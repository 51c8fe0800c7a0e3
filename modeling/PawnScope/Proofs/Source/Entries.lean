import PawnScope.Proofs.Declaration.Shape
import PawnScope.Proofs.Source.Lines
import PawnScope.Proofs.Symbol.Outline
import PawnScope.Source.Outline
/-!
Reading lines as a list of entries: what a statement says does not depend on what has been read
before it, and all that one statement hands to the next is how many lines belong to it and the doc
comment that waits.

* `Outline.ofText_eq` — the outline of a text is that of its entries;
* `Progress.all_append` — lines can be read in parts if no statement goes on from one into the next;
* `Statement.detached` — that is so if the first part does not end in a backslash, and what follows
  cannot go on with a parameter list;
* `Progress.all_down` — the entries of lines further down are the same, further down.
-/

namespace PawnScope

/-! ## Statements -/

/-- What a statement says. -/
inductive Statement where
  | nothing
  | directive (directive : Directive)
  | declaration (declaration : Declaration)
deriving DecidableEq, Repr

namespace Statement

/-- How many of the lines after `line` belong to the statement on it, and what this says. -/
def read [Alphabets] (line : Line) (following : List Line) : Nat × Statement :=
  if line.depth ≠ 0 then (0, nothing)
  else if (Text.trimStart line.code).head? = some '#' then
    let joined := Outline.joinDirective (Text.trimEnd line.code) following
    (joined.1, ((Directive.recognize? joined.2).map directive).getD nothing)
  else
    let joined := Outline.joinList line.code 0 following
    (joined.1, (joined.2.map declaration).getD nothing)

/-- What a statement adds to the outline. -/
def entries (site : Site) : Statement → List Entry
  | nothing => []
  | directive (.inclusion filename isLocal isOptional) =>
    [.inclusion
      ⟨filename, isLocal, isOptional, .onLine site.line.number 0 site.line.raw.length⟩]
  | directive (.template name nameStart label parameters definition) =>
    [.callable {
      name, label, parameters
      isTemplate := true
      file := site.file
      span := site.nameSpan nameStart name
      documentation := some (site.templateDoc definition)
      isPrototype := false
      isStatic := false }]
  | directive (.constant name nameStart value label) =>
    [.constant ⟨name, value, label, site.file, site.nameSpan nameStart name⟩]
  | declaration (.function head) =>
    if head.isStatic && site.skipStatic then [] else [.callable (site.callable head)]
  | declaration (.globals heads) =>
    (heads.filter fun head => !(head.isStatic && site.skipStatic)).map fun head =>
      .global (site.global head)

/-- `Adds site statement entry`: the statement, read at `site`, adds the entry. -/
inductive Adds (site : Site) : Statement → Entry → Prop
  | inclusion {filename : Text} {isLocal isOptional : Bool} :
      Adds site (directive (.inclusion filename isLocal isOptional))
        (.inclusion ⟨filename, isLocal, isOptional, .onLine site.line.number 0 site.line.raw.length⟩)
  | template {name label definition : Text} {nameStart : Nat} {parameters : List Text} :
      Adds site (directive (.template name nameStart label parameters definition))
        (.callable {
          name, label, parameters
          isTemplate := true
          file := site.file
          span := site.nameSpan nameStart name
          documentation := some (site.templateDoc definition)
          isPrototype := false
          isStatic := false })
  | constant {name value label : Text} {nameStart : Nat} :
      Adds site (directive (.constant name nameStart value label))
        (.constant ⟨name, value, label, site.file, site.nameSpan nameStart name⟩)
  | function {head : FunctionHead} (shown : (head.isStatic && site.skipStatic) = false) :
      Adds site (declaration (.function head)) (.callable (site.callable head))
  | global {heads : List GlobalHead} {head : GlobalHead} (inside : head ∈ heads)
      (shown : (head.isStatic && site.skipStatic) = false) :
      Adds site (declaration (.globals heads)) (.global (site.global head))

theorem mem_entries_iff {site : Site} {statement : Statement} {entry : Entry} :
    entry ∈ statement.entries site ↔ Adds site statement entry := by
  constructor
  · intro member
    match statement with
    | nothing => exact absurd member List.not_mem_nil
    | directive (.inclusion ..) =>
      cases List.mem_singleton.mp member
      exact .inclusion
    | directive (.template ..) =>
      cases List.mem_singleton.mp member
      exact .template
    | directive (.constant ..) =>
      cases List.mem_singleton.mp member
      exact .constant
    | declaration (.function head) =>
      rw [entries] at member
      split at member
      · exact absurd member List.not_mem_nil
      · next shown =>
        cases List.mem_singleton.mp member
        exact .function ((Bool.not_eq_true _).mp shown)
    | declaration (.globals heads) =>
      obtain ⟨head, kept, rfl⟩ := List.mem_map.mp member
      obtain ⟨inside, shown⟩ := List.mem_filter.mp kept
      exact .global inside ((Bool.not_eq_true' _).mp shown)
  · intro adds
    cases adds with
    | inclusion | template | constant => exact List.mem_singleton_self _
    | function shown =>
      rw [entries, shown, if_neg Bool.false_ne_true]
      exact List.mem_singleton_self _
    | global inside shown =>
      exact List.mem_map_of_mem (List.mem_filter.mpr ⟨inside, by rw [shown]; rfl⟩)

end Statement

namespace Outline

theorem applyDirective_eq (outline : Outline) (site : Site) (directive : Directive) :
    outline.applyDirective site directive =
      outline.putAll ((Statement.directive directive).entries site) := by
  cases directive <;> rfl

theorem applyDeclaration_eq (outline : Outline) (site : Site) (declaration : Declaration) :
    outline.applyDeclaration site declaration =
      outline.putAll ((Statement.declaration declaration).entries site) := by
  cases declaration with
  | function head =>
    rw [applyDeclaration, Statement.entries]
    split <;> rfl
  | globals heads =>
    rw [applyDeclaration, Statement.entries, putAll, List.foldl_map, List.foldl_map]
    rfl

theorem readStatement_eq [Alphabets] (outline : Outline) (site : Site) (following : List Line) :
    outline.readStatement site following =
      ((Statement.read site.line following).1,
        outline.putAll ((Statement.read site.line following).2.entries site)) := by
  rw [readStatement, Statement.read]
  split
  · rfl
  · split
    · dsimp only
      cases Directive.recognize? (joinDirective (Text.trimEnd site.line.code) following).2 with
      | none => rfl
      | some directive => exact congrArg _ (applyDirective_eq outline site directive)
    · dsimp only
      cases (joinList site.line.code 0 following).2 with
      | none => rfl
      | some declaration => exact congrArg _ (applyDeclaration_eq outline site declaration)

end Outline

/-! ## Progress -/

/-- Where a reader of lines stands. -/
structure Progress where
  /-- How many of the next lines belong to a statement before. -/
  skip : Nat
  /-- The doc comment that waits for its code. -/
  doc : Option Text
deriving DecidableEq, Repr

namespace Progress

def start : Progress :=
  ⟨0, none⟩

variable [Alphabets]

/-- The progress after one more line, with `rest` after it. -/
def next (progress : Progress) (line : Line) (rest : List Line) : Progress :=
  match progress.skip with
  | skip + 1 => ⟨skip, progress.doc⟩
  | 0 =>
    if line.code.allBlank then ⟨0, line.leadingDoc <|> progress.doc⟩
    else ⟨(Statement.read line rest).1, line.trailingDoc⟩

/-- The progress after lines. -/
def after (progress : Progress) : List Line → Progress
  | [] => progress
  | line :: rest => (progress.next line rest).after rest

variable (file : SourceId) (skipStatic : Bool)

/-- The entries of one more line, with `rest` after it. -/
def entries (progress : Progress) (line : Line) (rest : List Line) : List Entry :=
  if progress.skip ≠ 0 ∨ line.code.allBlank then []
  else (Statement.read line rest).2.entries
    ⟨file, skipStatic, line, line.leadingDoc <|> progress.doc⟩

/-- The entries of lines. -/
def all (progress : Progress) : List Line → List Entry
  | [] => []
  | line :: rest =>
    progress.entries file skipStatic line rest ++ (progress.next line rest).all rest

end Progress

namespace Outline

variable [Alphabets] (file : SourceId) (skipStatic : Bool)

theorem readLines_eq (progress : Progress) (outline : Outline) (lines : List Line) :
    readLines file skipStatic progress.skip progress.doc outline lines =
      outline.putAll (progress.all file skipStatic lines) := by
  induction lines generalizing progress outline with
  | nil => rfl
  | cons line rest ih =>
    obtain ⟨skip, doc⟩ := progress
    cases skip with
    | succ skip => exact ih ⟨skip, doc⟩ outline
    | zero =>
      rw [readLines, Progress.all, putAll_append, ← ih]
      by_cases blank : line.code.allBlank = true
      · simp [Progress.next, Progress.entries, blank, putAll]
      · simp [Progress.next, Progress.entries, blank, readStatement_eq]

/-- The outline of a text is that of its entries. -/
theorem ofText_eq (text : Text) :
    ofText file text skipStatic =
      empty.putAll (Progress.start.all file skipStatic (Line.ofText text)) :=
  readLines_eq file skipStatic .start empty (Line.ofText text)

end Outline

/-! ## Joined lines -/

namespace Outline

/-- A line that cannot go on with the parameter list of a line above. -/
def Stops [Alphabets] (line : Line) : Prop :=
  ¬(line.depth = 0 ∧ Declaration.continuesList line.code = true)

theorem joinList_le [Alphabets] (joined : Text) (count : Nat) (lines : List Line) :
    (joinList joined count lines).1 ≤ count + lines.length := by
  induction lines generalizing joined count with
  | nil =>
    rw [joinList]
    split <;> simp
  | cons next rest ih =>
    rw [joinList]
    split
    · exact Nat.le_add_right _ _
    · exact Nat.zero_le _
    · split
      · have more := ih (joined ++ ' ' :: next.code) (count + 1)
        rw [List.length_cons]
        omega
      · split <;> exact Nat.le_add_right _ _

theorem joinDirective_le (joined : Text) (lines : List Line) :
    (joinDirective joined lines).1 ≤ lines.length := by
  induction lines generalizing joined with
  | nil => exact Nat.le_refl _
  | cons next rest ih =>
    rw [joinDirective]
    split
    · exact Nat.succ_le_succ (ih _)
    · exact Nat.zero_le _

/-- A parameter list that is open at the end of the lines is the same if a line stops it there. -/
theorem joinList_append [Alphabets] {more : List Line} (stops : ∀ first ∈ more.head?, Stops first)
    (joined : Text) (count : Nat) (lines : List Line) :
    joinList joined count (lines ++ more) = joinList joined count lines := by
  induction lines generalizing joined count with
  | cons next rest ih =>
    rw [List.cons_append, joinList, joinList, ih]
  | nil =>
    cases more with
    | nil => rfl
    | cons first behind =>
      have stop := stops first rfl
      rw [List.nil_append, joinList, joinList]
      rcases Declaration.recognize_complete joined (maxListLines ≤ count) with
        ⟨same, ready⟩ | ⟨unfinished, head, found⟩
      · rw [same]
        cases kind : Declaration.recognize joined true with
        | found declaration => rfl
        | nothing => rfl
        | unfinished => exact absurd kind ready
      · rw [unfinished, found]
        exact if_neg stop

/-- Lines that do not end in a backslash, blanks at the end aside. -/
def Unbroken (lines : List Line) : Prop :=
  ∀ line ∈ lines.getLast?, (Text.trimEnd line.code).getLast? ≠ some '\\'

/-- A directive that has come to the end of the lines goes no further. -/
theorem joinDirective_append {lines : List Line} (unbroken : Unbroken lines) {joined : Text}
    (ends : lines = [] → joined.getLast? ≠ some '\\') (more : List Line) :
    joinDirective joined (lines ++ more) = joinDirective joined lines := by
  induction lines generalizing joined with
  | nil =>
    cases more with
    | nil => rfl
    | cons first behind => exact if_neg (ends rfl)
  | cons next rest ih =>
    rw [List.cons_append, joinDirective, joinDirective, ih]
    · intro line last
      refine unbroken line ?_
      cases rest with
      | nil => simp at last
      | cons second behind => rwa [List.getLast?_cons_cons]
    · rintro rfl
      -- The joined code ends as `next` does, or in the blank that has come for the backslash.
      by_cases blank : Text.trim next.code = []
      · simp [blank]
      · have last : (joined.dropLast ++ ' ' :: Text.trim next.code).getLast? =
            (Text.trimEnd next.code).getLast? := by
          rw [List.getLast?_append_of_ne_nil _ (List.cons_ne_nil _ _),
            ← List.singleton_append, List.getLast?_append_of_ne_nil _ blank,
            Text.getLast?_trim blank]
        rw [last]
        exact unbroken next rfl

end Outline

/-! ## Reading in parts -/

namespace Statement

variable [Alphabets] {lines more : List Line}

theorem read_le (line : Line) (following : List Line) :
    (read line following).1 ≤ following.length := by
  rw [read]
  split
  · exact Nat.zero_le _
  · split
    · exact Outline.joinDirective_le _ _
    · simpa using Outline.joinList_le line.code 0 following

/-- No statement that begins on one of `lines` goes on into `more`. -/
def Detached (lines more : List Line) : Prop :=
  ∀ line rest, line :: rest <:+ lines → read line (rest ++ more) = read line rest

theorem detached (unbroken : more ≠ [] → Outline.Unbroken lines)
    (stops : ∀ first ∈ more.head?, Outline.Stops first) : Detached lines more := by
  rintro line rest ⟨above, rfl⟩
  by_cases nothing : more = []
  · rw [nothing, List.append_nil]
  have last : Outline.Unbroken (line :: rest) := by
    intro other found
    refine unbroken nothing other ?_
    rwa [List.getLast?_append_of_ne_nil _ (List.cons_ne_nil _ _)]
  rw [read, read, Outline.joinList_append stops, Outline.joinDirective_append]
  · intro other found
    refine last other ?_
    cases rest with
    | nil => simp at found
    | cons second behind => rwa [List.getLast?_cons_cons]
  · rintro rfl
    exact last line rfl

theorem Detached.tail {line : Line} (detached : Detached (line :: lines) more) :
    Detached lines more :=
  fun first rest suffix => detached first rest (suffix.trans (List.suffix_cons _ _))

end Statement

namespace Progress

variable [Alphabets] {progress : Progress} {lines more : List Line} {line : Line}

theorem next_skip_le (inside : progress.skip ≤ (line :: lines).length) :
    (progress.next line lines).skip ≤ lines.length := by
  obtain ⟨skip, doc⟩ := progress
  cases skip with
  | succ skip => exact Nat.le_of_succ_le_succ inside
  | zero =>
    rw [next]
    dsimp only
    split
    · exact Nat.zero_le _
    · exact Statement.read_le _ _

/-- No statement goes on past the last line. -/
theorem after_skip (inside : progress.skip ≤ lines.length) : (progress.after lines).skip = 0 := by
  induction lines generalizing progress with
  | nil => exact Nat.le_zero.mp inside
  | cons line rest ih => exact ih (next_skip_le inside)

variable (file : SourceId) (skipStatic : Bool)

/-- Lines can be read in parts if no statement goes on from one part into the next. -/
theorem all_append (detached : Statement.Detached lines more) (progress : Progress) :
    progress.all file skipStatic (lines ++ more) =
      progress.all file skipStatic lines ++ (progress.after lines).all file skipStatic more := by
  induction lines generalizing progress with
  | nil => rfl
  | cons line rest ih =>
    have same : Statement.read line (rest ++ more) = Statement.read line rest :=
      detached line rest (List.suffix_refl _)
    have step : progress.next line (rest ++ more) = progress.next line rest := by
      rw [next, same, next]
    have found : progress.entries file skipStatic line (rest ++ more) =
        progress.entries file skipStatic line rest := by
      rw [entries, same, entries]
    rw [List.cons_append, all, all, after, step, found, ih detached.tail, List.append_assoc]

/-- Lines that belong to a statement before, and blank ones behind them, have no entries. -/
theorem all_of_blank {skip : Nat} {lines : List Line}
    (blank : ∀ line ∈ lines.drop skip, line.code.allBlank = true) (doc : Option Text) :
    all file skipStatic ⟨skip, doc⟩ lines = [] := by
  induction lines generalizing skip doc with
  | nil => rfl
  | cons line rest ih =>
    cases skip with
    | succ skip =>
      rw [all, next, ih blank]
      rfl
    | zero =>
      obtain ⟨here, behind⟩ := List.forall_mem_cons.mp blank
      have behind : ∀ other ∈ rest.drop 0, other.code.allBlank = true := behind
      simpa [all, next, entries, here] using ih behind (line.leadingDoc <|> doc)

/--
What a directive says is found on the line that it begins on, and the lines that it goes on over are
left.
-/
theorem all_directive {line : Line} {following : List Line} {count : Nat} {joined : Text}
    {directive : Directive} (top : line.depth = 0) (hash : (Text.trimStart line.code).head? = some '#')
    (joins : Outline.joinDirective (Text.trimEnd line.code) following = (count, joined))
    (recognized : Directive.recognize? joined = some directive) :
    start.all file skipStatic (line :: following) =
      (Statement.directive directive).entries ⟨file, skipStatic, line, line.leadingDoc⟩ ++
        all file skipStatic ⟨count, line.trailingDoc⟩ following := by
  have filled : line.code.allBlank = false := Bool.eq_false_iff.mpr fun blank => by
    rw [Text.trimStart_of_allBlank blank] at hash
    contradiction
  have read : Statement.read line following = (count, .directive directive) := by
    rw [Statement.read, if_neg (by simp [top]), if_pos hash]
    simp only [joins, recognized]
    rfl
  have doc : (line.leadingDoc <|> none) = line.leadingDoc := by cases line.leadingDoc <;> rfl
  rw [← doc, all, next, entries, filled, read]
  rfl

end Progress

/-! ## Further down -/

namespace Outline

variable {count : Nat}

theorem joinList_down [Alphabets] (joined : Text) (taken : Nat) (lines : List Line) :
    joinList joined taken (lines.map (Line.down count)) = joinList joined taken lines := by
  induction lines generalizing joined taken with
  | nil => rfl
  | cons next rest ih =>
    rw [List.map_cons, joinList, joinList, ih]
    rfl

/-- Of the lines that a directive goes on over only the code matters. -/
theorem joinDirective_congr {lines others : List Line}
    (same : lines.map Line.code = others.map Line.code) (joined : Text) :
    joinDirective joined lines = joinDirective joined others := by
  induction lines generalizing joined others with
  | nil =>
    obtain rfl := List.map_eq_nil_iff.mp same.symm
    rfl
  | cons next rest ih =>
    cases others with
    | nil => simp at same
    | cons other others =>
      obtain ⟨here, behind⟩ := List.cons.inj same
      rw [joinDirective, joinDirective, here, ih behind]

theorem joinDirective_down (joined : Text) (lines : List Line) :
    joinDirective joined (lines.map (Line.down count)) = joinDirective joined lines := by
  refine joinDirective_congr ?_ joined
  rw [List.map_map]
  rfl

end Outline

namespace Statement

variable {count : Nat}

theorem read_down [Alphabets] (line : Line) (following : List Line) :
    read (line.down count) (following.map (Line.down count)) = read line following := by
  rw [read, read, Outline.joinList_down, Outline.joinDirective_down]
  rfl

theorem entries_down (file : SourceId) (skipStatic : Bool) (line : Line) (doc : Option Text)
    (statement : Statement) :
    statement.entries ⟨file, skipStatic, line.down count, doc⟩ =
      (statement.entries ⟨file, skipStatic, line, doc⟩).map (Entry.down count) := by
  cases statement with
  | nothing => rfl
  | directive directive => cases directive <;> rfl
  | declaration declaration =>
    cases declaration with
    | function head =>
      simp only [entries]
      split <;> rfl
    | globals heads =>
      rw [entries, entries, List.map_map]
      rfl

end Statement

namespace Progress

theorem all_down [Alphabets] (file : SourceId) (skipStatic : Bool) (count : Nat) (progress : Progress)
    (lines : List Line) :
    progress.all file skipStatic (lines.map (Line.down count)) =
      (progress.all file skipStatic lines).map (Entry.down count) := by
  induction lines generalizing progress with
  | nil => rfl
  | cons line rest ih =>
    have step : progress.next (line.down count) (rest.map (Line.down count)) =
        progress.next line rest := by
      rw [next, Statement.read_down, next]
      rfl
    have found : progress.entries file skipStatic (line.down count) (rest.map (Line.down count)) =
        (progress.entries file skipStatic line rest).map (Entry.down count) := by
      have code : (line.down count).code = line.code := rfl
      rw [entries, entries, Statement.read_down, Statement.entries_down, code]
      split <;> rfl
    rw [List.map_cons, all, all, List.map_append, step, found, ih]

end Progress

end PawnScope
