import PawnScope.Identifier.European
import PawnScope.Proofs.Source.Entries
import PawnScope.Proofs.Token.Tiling
/-!
What stands inside braces has no influence on the outline of a text: `Outline.ofText_inside_braces`.
Lines inside braces have no entries, and all that they leave behind is the doc comment that waits. The
line after them takes it and has no entries either: `Progress.all_inside`, `Progress.all_below`.

A directive above the braces may go on into them. That is so if a backslash ends its line, and blanks
after the backslash do not matter: `Outline.ofText_backslash_above_braces`.
-/

namespace PawnScope

namespace Line

/-- Blanks open and close no braces. -/
theorem braceDepth_of_allBlank [Alphabets] {code : Text} (blank : code.allBlank = true) (depth : Nat) :
    braceDepth depth (Token.ofLine code) = depth := by
  have blanks : ∀ c ∈ code, isBlank c = true := List.all_eq_true.mp blank
  have absent {token : Token} {mark : Char} (member : token ∈ Token.ofLine code)
      (solid : isBlank mark = false) : Token.mark? token.kind ≠ some mark := by
    intro marks
    rw [blanks mark (Token.mark_mem member marks)] at solid
    contradiction
  refine braceDepth_of_no_braces (fun token member => ⟨fun kind => ?_, fun kind => ?_⟩) depth
  · exact absent member (show isBlank '{' = false by decide) (by rw [kind]; rfl)
  · exact absent member (show isBlank '}' = false by decide) (by rw [kind]; rfl)

/-- The lines from `first` to `last` begin inside braces. -/
def Inside [Alphabets] (text : Text) (first last : Nat) : Prop :=
  ∀ line ∈ ofText text, first ≤ line.number → line.number ≤ last → line.depth ≠ 0

instance [Alphabets] (text : Text) (first last : Nat) : Decidable (Inside text first last) :=
  inferInstanceAs (Decidable (∀ line ∈ ofText text, _))

end Line

theorem Statement.read_inside [Alphabets] {line : Line} (inside : line.depth ≠ 0) (following : List Line) :
    Statement.read line following = (0, .nothing) :=
  if_pos inside

namespace Progress

variable (file : SourceId) (skipStatic : Bool)

theorem entries_inside [Alphabets] {line : Line} (inside : line.depth ≠ 0) (progress : Progress)
    (rest : List Line) : progress.entries file skipStatic line rest = [] := by
  rw [entries, Statement.read_inside inside]
  split <;> rfl

theorem next_inside [Alphabets] {line : Line} (inside : line.depth ≠ 0) (doc : Option Text)
    (rest : List Line) :
    next ⟨0, doc⟩ line rest =
      ⟨0, if line.code.allBlank then line.leadingDoc <|> doc else line.trailingDoc⟩ := by
  rw [next]
  dsimp only
  rw [Statement.read_inside inside]
  split <;> rfl

/-- Lines inside braces have no entries. -/
theorem all_inside [Alphabets] {inner : List Line} (inside : ∀ line ∈ inner, line.depth ≠ 0)
    (doc : Option Text) (more : List Line) :
    ∃ doc', all file skipStatic ⟨0, doc⟩ (inner ++ more) = all file skipStatic ⟨0, doc'⟩ more := by
  induction inner generalizing doc with
  | nil => exact ⟨doc, rfl⟩
  | cons line rest ih =>
    have here : line.depth ≠ 0 := inside line List.mem_cons_self
    rw [List.cons_append, all, entries_inside _ _ here, List.nil_append, next_inside here]
    exact ih (fun other member => inside other (List.mem_cons_of_mem _ member)) _

/-- No doc comment speaks of a line inside braces, nor of what comes after that line. -/
theorem all_below [Alphabets] {number : Nat} {opened : Opened} {raws : List Text}
    (inside : raws ≠ [] → opened.depth ≠ 0) (doc doc' : Option Text) :
    all file skipStatic ⟨0, doc⟩ (Line.readFrom number opened raws) =
      all file skipStatic ⟨0, doc'⟩ (Line.readFrom number opened raws) := by
  induction raws generalizing number opened doc doc' with
  | nil => rfl
  | cons raw rest ih =>
    have here := inside (List.cons_ne_nil _ _)
    rw [Line.readFrom_cons]
    generalize read : (Line.ofRaw number opened.depth opened.comment (Line.withoutReturn raw)).1 = line
    have depth : line.depth ≠ 0 := by
      rw [← read]
      exact here
    rw [all, all, entries_inside _ _ depth, entries_inside _ _ depth, next_inside depth,
      next_inside depth]
    split
    case isTrue blank =>
      refine congrArg _ (ih (fun _ => ?_) _ _)
      have same : (opened.next raw).depth = opened.depth := by
        rw [← read] at blank
        exact Line.braceDepth_of_allBlank blank _
      rwa [same]
    case isFalse => rfl

end Progress

namespace Line.Inside

variable {text : Text} {first last : Nat}

/-- The lines from `first` up to `last` are inside braces. -/
theorem depth_ne_zero [Alphabets] (inside : Inside text first last) :
    ∀ line ∈ ((ofText text).drop first).take (last - first), line.depth ≠ 0 := by
  intro line member
  obtain ⟨index, found⟩ := List.mem_iff_getElem?.mp member
  rw [List.getElem?_take, List.getElem?_drop] at found
  split at found
  case isTrue short =>
    have number := number_ofText found
    exact inside line (List.mem_of_getElem? found) (by omega) (by omega)
  case isFalse => simp at found

/-- So is the line `last`, if there is one. -/
theorem opened_depth_ne_zero [Alphabets] (ordered : first ≤ last) (inside : Inside text first last)
    (more : (Text.split '\n' text).drop last ≠ []) : (openedAt text last).depth ≠ 0 := by
  obtain ⟨raw, rest, here⟩ := List.exists_cons_of_ne_nil more
  have below := drop_ofText text last
  rw [here, readFrom_cons] at below
  have found := congrArg List.head? below
  rw [List.head?_drop, List.head?_cons] at found
  have number := number_ofText found
  exact inside _ (List.mem_of_getElem? found) (by omega) (by omega)

end Line.Inside

namespace Outline

variable {text one two : Text} {first last : Nat}

/-- The entries of a text are those of what stands above and below the lines inside braces. -/
theorem all_ofText_inside [Alphabets] (file : SourceId) (skipStatic : Bool) (ordered : first ≤ last)
    (inside : Line.Inside text first last)
    (unbroken : (Line.ofText text).drop first ≠ [] → Unbroken ((Line.ofText text).take first)) :
    ∃ doc, Progress.start.all file skipStatic (Line.ofText text) =
      Progress.start.all file skipStatic ((Line.ofText text).take first) ++
        Progress.all file skipStatic ⟨0, doc⟩ ((Line.ofText text).drop last) := by
  have parts : (Line.ofText text).drop first =
      ((Line.ofText text).drop first).take (last - first) ++ (Line.ofText text).drop last := by
    conv_lhs => rw [← List.take_append_drop (last - first) ((Line.ofText text).drop first),
      List.drop_drop, Nat.add_sub_cancel' ordered]
  have stops : ∀ line ∈ ((Line.ofText text).drop first).head?, Stops line := by
    rintro line found ⟨outside, -⟩
    rw [List.head?_drop] at found
    have number := Line.number_ofText found
    exact inside line (List.mem_of_getElem? found) (by omega) (by omega) outside
  have above := Progress.all_append file skipStatic (Statement.detached unbroken stops) .start
  rw [List.take_append_drop] at above
  obtain ⟨doc, below⟩ := Progress.all_inside file skipStatic inside.depth_ne_zero
    (Progress.start.after ((Line.ofText text).take first)).doc ((Line.ofText text).drop last)
  refine ⟨doc, ?_⟩
  have skip : (Progress.start.after ((Line.ofText text).take first)).skip = 0 :=
    Progress.after_skip (Nat.zero_le _)
  rw [above, ← below, ← parts, ← skip]

/-- Texts that differ only inside braces have the same outline. -/
theorem ofText_inside_braces [Alphabets] (file : SourceId) (skipStatic : Bool) (ordered : first ≤ last)
    (long : (Line.ofText one).length = (Line.ofText two).length)
    (above : ((Line.ofText one).take first).map Line.raw =
      ((Line.ofText two).take first).map Line.raw)
    (below : ((Line.ofText one).drop last).map Line.raw =
      ((Line.ofText two).drop last).map Line.raw)
    (inside : Line.Inside one first last) (inside' : Line.Inside two first last)
    (same : Line.openedAt one last = Line.openedAt two last)
    (unbroken : ∀ line ∈ Line.ofText one, line.number + 1 = first →
      (Text.trimEnd line.code).getLast? ≠ some '\\') :
    ofText file one skipStatic = ofText file two skipStatic := by
  have above' : (Line.ofText one).take first = (Line.ofText two).take first := by
    rw [List.map_take, List.map_take, Line.raw_ofText, Line.raw_ofText, ← List.map_take,
      ← List.map_take] at above
    rw [Line.take_ofText, Line.take_ofText, (Line.readFrom_congr above 0 .nothing).1]
  have below' : (Line.ofText one).drop last = (Line.ofText two).drop last := by
    rw [List.map_drop, List.map_drop, Line.raw_ofText, Line.raw_ofText, ← List.map_drop,
      ← List.map_drop] at below
    rw [Line.drop_ofText, Line.drop_ofText, long, same, (Line.readFrom_congr below _ _).1]
  have upper (more : (Line.ofText one).drop first ≠ []) :
      Unbroken ((Line.ofText one).take first) := by
    intro line found
    have short := List.length_pos_of_ne_nil more
    rw [List.length_drop] at short
    rw [List.getLast?_eq_getElem?, List.getElem?_take, List.length_take] at found
    split at found
    case isTrue inner =>
      have number := Line.number_ofText found
      exact unbroken line (List.mem_of_getElem? found) (by omega)
    case isFalse => simp at found
  have upper' (more : (Line.ofText two).drop first ≠ []) :
      Unbroken ((Line.ofText two).take first) := by
    rw [← above']
    refine upper fun nothing => more ?_
    rwa [List.drop_eq_nil_iff, ← long, ← List.drop_eq_nil_iff]
  obtain ⟨doc, entries⟩ := all_ofText_inside file skipStatic ordered inside upper
  obtain ⟨doc', entries'⟩ := all_ofText_inside file skipStatic ordered inside' upper'
  rw [ofText_eq, ofText_eq, entries, entries', ← above', ← below', Line.drop_ofText,
    Progress.all_below file skipStatic (inside.opened_depth_ne_zero ordered) doc doc']

open scoped Identifier.European

/-- A body may hold directives, doc comments, and what is never closed. -/
theorem ofText_inside_body :
    ofText ⟨"f.sma".toList⟩ "stock f() \x7b\n#define Y \\\nnew a; \" (\n\x7d\nnew z;".toList false =
      ofText ⟨"f.sma".toList⟩ "stock f() \x7b\n\x7b \x7d /** doc */\n\n\x7d\nnew z;".toList false := by
  refine ofText_inside_braces _ _ (show 1 ≤ 3 by decide) ?_ ?_ ?_ ?_ ?_ ?_ ?_
  all_goals decide +kernel

/-- It is not enough that the line above does not end in a backslash: blanks may follow one. -/
theorem ofText_backslash_above_braces :
    ¬∀ (file : SourceId) (skipStatic : Bool) (one two : Text) (first last : Nat), first ≤ last →
      (Line.ofText one).length = (Line.ofText two).length →
      ((Line.ofText one).take first).map Line.raw = ((Line.ofText two).take first).map Line.raw →
      ((Line.ofText one).drop last).map Line.raw = ((Line.ofText two).drop last).map Line.raw →
      Line.Inside one first last → Line.Inside two first last →
      Line.openedAt one last = Line.openedAt two last →
      (Line.openedAt one last).comment = .none →
      (∀ line ∈ Line.ofText one, line.number + 1 = first → line.code.getLast? ≠ some '\\') →
      ofText file one skipStatic = ofText file two skipStatic := by
  intro always
  have same := always ⟨"f.sma".toList⟩ false "#define X \x7b \\ \nfoo\n\x7d".toList
    "#define X \x7b \\ \nbar\n\x7d".toList 1 2 (by decide) (by decide +kernel) (by decide +kernel)
    (by decide +kernel) (by decide +kernel) (by decide +kernel) (by decide +kernel)
    (by decide +kernel) (by decide +kernel)
  exact absurd same (by decide +kernel)

end Outline

end PawnScope
