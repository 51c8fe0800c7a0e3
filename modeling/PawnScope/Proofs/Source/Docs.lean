import PawnScope.Proofs.Source.Braces
import PawnScope.Proofs.Text.LineTable
/-!
The doc comments of a text. Which one stands directly before a place is said of the characters above it, each
with what it belongs to: `Doc.Closes`. A reader that goes over them finds it: `Doc.closed_iff`.
-/

namespace PawnScope

/-- A character of a text with what it belongs to. -/
abbrev Letter := Char × Region

/-- Of a line end at most a carriage return stands in front of the line feed. -/
theorem Line.eq_return {raw : Text} {c : Char} (member : c ∈ raw.drop (withoutReturn raw).length) :
    c = '\r' := by
  rw [withoutReturn] at member
  split at member
  case isTrue last =>
    obtain ⟨line, rfl⟩ := List.getLast?_eq_some_iff.mp last
    rw [List.dropLast_concat, List.drop_left] at member
    exact List.mem_singleton.mp member
  case isFalse => simp at member

/-! ## The characters of a text -/

namespace Mode

/-- What a line end belongs to, if the reader is inside of this there. -/
def lineEnd : Mode → Region
  | opening _ true | block true => .docBody
  | opening _ false | block false => .comment
  | _ => .code

theorem lineEnd_ne (mode : Mode) : mode.lineEnd ≠ .docEnd := by
  unfold lineEnd
  split <;> simp

/-- The characters of a written line with its line feed; a carriage return belongs to the line end. -/
def lettersOfRaw (mode : Mode) (raw : Text) : List Letter :=
  let line := Line.withoutReturn raw
  line.zip (mode.regions line) ++
    (raw.drop line.length ++ ['\n']).map fun c => (c, (mode.after line).lineEnd)

/-- The characters of written lines, the first of which is entered in `mode`. -/
def lettersOfLines (mode : Mode) : List Text → List Letter
  | [] => []
  | raw :: rest =>
    mode.lettersOfRaw raw ++ (mode.after (Line.withoutReturn raw)).overLine.lettersOfLines rest

end Mode

/-- The characters of a text. Behind the last line there is no line feed. -/
def letters (text : Text) : List Letter :=
  (Mode.code.lettersOfLines (Text.split '\n' text)).dropLast

namespace Doc

/-- How a doc comment begins. -/
def opener : List Letter :=
  [('/', .comment), ('*', .comment), ('*', .comment)]

/-- A doc comment with the body `body`. -/
def letters (body : Text) : List Letter :=
  opener ++ body.map (·, .docBody) ++ [('*', .comment), ('/', .docEnd)]

/-- No doc comment ends here, and what belongs to no comment is blank. -/
def Gap (gap : List Letter) : Prop :=
  ∀ letter ∈ gap, letter.2 ≠ .docEnd ∧ (letter.2.isKept = true → isBlank letter.1 = true)

/-- How many lines end in the characters. -/
def lineFeeds (front : List Letter) : Nat :=
  (front.map Prod.fst).count '\n'

/--
The last doc comment in `front` has the body `body` and ends on the line `index`, and at most blanks and
other comments follow it.
-/
def Closes (front : List Letter) (body : Text) (index : Nat) : Prop :=
  ∃ above gap, front = above ++ letters body ++ gap ∧ Gap gap ∧
    index = lineFeeds (above ++ letters body)

end Doc

/-! ## Reading them -/

/-- What reading the characters of a text for doc comments has come to. -/
structure Trail where
  /-- How many line feeds have been read. -/
  number : Nat
  /-- The body of an open doc comment, as far as it has been read. -/
  body : Text
  /-- The body of the last doc comment, and the line on which it ended, if no code has followed it. -/
  closed : Option (Text × Nat)
deriving DecidableEq, Repr

namespace Trail

def start : Trail :=
  ⟨0, [], none⟩

def step (trail : Trail) (letter : Letter) : Trail :=
  let number := if letter.1 = '\n' then trail.number + 1 else trail.number
  match letter.2 with
  | .docBody => ⟨number, trail.body ++ [letter.1], trail.closed⟩
  | .docEnd => ⟨number, [], some (trail.body, trail.number)⟩
  | .comment => ⟨number, trail.body, trail.closed⟩
  | .code | .literal => ⟨number, trail.body, if isBlank letter.1 then trail.closed else none⟩

def run (letters : List Letter) (trail : Trail) : Trail :=
  letters.foldl step trail

variable {trail : Trail} {letter : Letter} {front rest gap above : List Letter} {body : Text}

theorem run_append (front rest : List Letter) (trail : Trail) :
    trail.run (front ++ rest) = (trail.run front).run rest :=
  List.foldl_append

theorem run_snoc (front : List Letter) (letter : Letter) (trail : Trail) :
    trail.run (front ++ [letter]) = (trail.run front).step letter :=
  run_append front [letter] trail

theorem number_run (letters : List Letter) (trail : Trail) :
    (trail.run letters).number = trail.number + Doc.lineFeeds letters := by
  induction letters generalizing trail with
  | nil => rfl
  | cons letter letters ih =>
    have step : (trail.step letter).number = trail.number + [letter.1].count '\n' := by
      obtain ⟨c, region⟩ := letter
      by_cases line : c = '\n' <;> cases region <;> simp [Trail.step, line]
    have size : Doc.lineFeeds (letter :: letters) = [letter.1].count '\n' + Doc.lineFeeds letters := by
      rw [Doc.lineFeeds, List.map_cons, ← List.singleton_append, List.count_append]
      rfl
    rw [run, List.foldl_cons, ← run, ih, step, size, Nat.add_assoc]

theorem closed_step (quiet : letter.2 ≠ .docEnd) (blank : letter.2.isKept = true → isBlank letter.1 = true) :
    (trail.step letter).closed = trail.closed := by
  obtain ⟨c, region⟩ := letter
  cases region with
  | code | literal => exact if_pos (blank rfl)
  | comment | docBody => rfl
  | docEnd => exact absurd rfl quiet

theorem closed_run (blank : Doc.Gap gap) (trail : Trail) : (trail.run gap).closed = trail.closed := by
  induction gap generalizing trail with
  | nil => rfl
  | cons letter gap ih =>
    obtain ⟨⟨quiet, kept⟩, behind⟩ := List.forall_mem_cons.mp blank
    rw [run, List.foldl_cons, ← run, ih behind, closed_step quiet kept]

/-- Outside of doc comments nothing is added to a body. -/
theorem body_run_of_outside {letters : List Letter}
    (outside : ∀ letter ∈ letters, letter.2 ≠ .docBody ∧ letter.2 ≠ .docEnd) (trail : Trail) :
    (trail.run letters).body = trail.body := by
  induction letters generalizing trail with
  | nil => rfl
  | cons letter letters ih =>
    obtain ⟨⟨body, ends⟩, behind⟩ := List.forall_mem_cons.mp outside
    have step : (trail.step letter).body = trail.body := by
      obtain ⟨c, region⟩ := letter
      cases region <;> first | rfl | contradiction
    rw [run, List.foldl_cons, ← run, ih behind, step]

theorem body_run (body : Text) (trail : Trail) :
    (trail.run (body.map (·, .docBody))).body = trail.body ++ body := by
  induction body generalizing trail with
  | nil => exact (List.append_nil _).symm
  | cons c body ih =>
    rw [List.map_cons, run, List.foldl_cons, ← run, ih]
    exact List.append_assoc _ _ _

end Trail

namespace Doc

variable {front gap gap' above above' : List Letter} {body body' : Text} {index : Nat}

theorem Gap.snoc {letter : Letter} (blank : Gap gap) (quiet : letter.2 ≠ .docEnd)
    (kept : letter.2.isKept = true → isBlank letter.1 = true) : Gap (gap ++ [letter]) :=
  List.forall_mem_append.mpr ⟨blank, List.forall_mem_singleton.mpr ⟨quiet, kept⟩⟩

theorem Closes.snoc {letter : Letter} (closes : Closes front body index) (quiet : letter.2 ≠ .docEnd)
    (kept : letter.2.isKept = true → isBlank letter.1 = true) : Closes (front ++ [letter]) body index := by
  obtain ⟨above, gap, rfl, blank, place⟩ := closes
  exact ⟨above, gap ++ [letter], List.append_assoc _ _ _, blank.snoc quiet kept, place⟩

/-- Only one doc comment is the last one. -/
theorem body_unique (same : above ++ letters body ++ gap = above' ++ letters body' ++ gap')
    (blank : Gap gap) (blank' : Gap gap') : body = body' := by
  have found {above gap : List Letter} {body : Text} (blank : Gap gap) :
      (((above ++ letters body ++ gap).reverse.dropWhile (·.2 != .docEnd)).drop 2).takeWhile
        (·.2 == .docBody) = (body.map (·, Region.docBody)).reverse := by
    have skip : ∀ letter ∈ gap.reverse, (letter.2 != Region.docEnd) = true := fun letter member =>
      bne_iff_ne.mpr (blank letter (List.mem_reverse.mp member)).1
    have whole : (above ++ letters body ++ gap).reverse = gap.reverse ++ ('/', Region.docEnd) ::
        ('*', Region.comment) :: ((body.map (·, Region.docBody)).reverse ++
          (opener.reverse ++ above.reverse)) := by
      simp [letters, opener]
    rw [whole, List.dropWhile_append_of_pos skip, List.dropWhile_cons_of_neg (by simp)]
    exact Text.takeWhile_run (by simp) (by simp [opener])
  have bodies : (body.map (·, Region.docBody)).reverse = (body'.map (·, Region.docBody)).reverse := by
    rw [← found blank, same, found blank']
  have letters := congrArg (List.map Prod.fst) (List.reverse_injective bodies)
  simpa [Function.comp_def] using letters

end Doc

/-! ## What the reader is inside of -/

namespace Mode

/-- What the reader knows of a doc comment that it is inside of, where `rest` is left of the line. -/
def Inside (front : List Letter) (body rest : Text) : Mode → Prop
  | opening left true =>
    body = [] ∧ (left = 1 ∨ left = 2) ∧ (∃ above, front = above ++ Doc.opener.take (3 - left)) ∧
      List.replicate left '*' <+: rest
  | block true => ∃ above, front = above ++ (Doc.opener ++ body.map (·, .docBody))
  | closing true =>
    (∃ above, front = above ++ (Doc.opener ++ body.map (·, .docBody) ++ [('*', .comment)])) ∧ ['/'] <+: rest
  | _ => body = []

variable {mode : Mode} {front : List Letter} {rest : Text} {c : Char} {trail : Trail}

theorem inside_step (inside : mode.Inside front trail.body (c :: rest)) :
    (mode.step c rest).2.Inside (front ++ [(c, (mode.step c rest).1)])
      (trail.step (c, (mode.step c rest).1)).body rest := by
  match mode with
  | code =>
    simp only [step]
    split
    case isTrue => exact inside
    split
    case isTrue => exact inside
    split
    case isFalse => exact inside
    case isTrue opens =>
      obtain ⟨rfl, star⟩ := opens
      split
      case isFalse => exact inside
      case isTrue doc =>
        refine ⟨inside, .inr rfl, ⟨front, rfl⟩, ?_⟩
        obtain ⟨more, rfl⟩ := List.head?_eq_some_iff.mp star
        cases more with
        | nil => cases doc
        | cons d more =>
          obtain rfl : d = '*' := by
            by_contra other
            simp [opensDoc, other] at doc
          exact ⟨more, rfl⟩
  | literal quote =>
    simp only [step]
    split
    case isTrue => exact inside
    split <;> exact inside
  | escaped quote | lineComment => exact inside
  | opening left false =>
    simp only [step]
    split <;> exact inside
  | opening left true =>
    obtain ⟨nothing, rfl | rfl, ⟨above, rfl⟩, more, same⟩ := inside
    · obtain ⟨rfl, rfl⟩ := List.cons.inj same
      have bare : (trail.step ('*', .comment)).body = [] := nothing
      exact ⟨above, by simp [step, bare, Doc.opener]⟩
    · obtain ⟨rfl, rfl⟩ := List.cons.inj same
      exact ⟨nothing, .inl rfl, ⟨above, List.append_assoc _ _ _⟩, more, rfl⟩
  | block true =>
    obtain ⟨above, rfl⟩ := inside
    simp only [step]
    split
    case isTrue ends =>
      obtain ⟨rfl, slash⟩ := ends
      obtain ⟨more, rfl⟩ := List.head?_eq_some_iff.mp slash
      exact ⟨⟨above, by simp [Trail.step]⟩, more, rfl⟩
    case isFalse => exact ⟨above, by simp [Trail.step]⟩
  | block false =>
    simp only [step]
    split <;> exact inside
  | closing true => rfl
  | closing false => exact inside

/-- A line end belongs to a doc comment that is open there. -/
theorem Inside.pastEnd (inside : mode.Inside front trail.body []) (ends rest : Text) :
    mode.overLine.Inside (front ++ ends.map fun c => (c, mode.lineEnd))
      (trail.run (ends.map fun c => (c, mode.lineEnd))).body rest := by
  have kept {region : Region} (quiet : region = .code ∨ region = .comment) :
      (trail.run (ends.map fun c => (c, region))).body = trail.body := by
    refine Trail.body_run_of_outside (List.forall_mem_map.mpr fun c _ => ?_) trail
    rcases quiet with rfl | rfl <;> simp
  match mode with
  | code | literal _ | escaped _ | lineComment | closing false => exact (kept (.inl rfl)).trans inside
  | opening _ false | block false => exact (kept (.inr rfl)).trans inside
  | opening _ true =>
    obtain ⟨-, rfl | rfl, -, more, same⟩ := inside <;> cases same
  | block true =>
    obtain ⟨above, rfl⟩ := inside
    exact ⟨above, by simp [lineEnd, Trail.body_run]⟩
  | closing true =>
    obtain ⟨-, more, same⟩ := inside
    cases same

/-- What the reader knows of the doc comments in front of it. -/
structure Knows (mode : Mode) (front : List Letter) (rest : Text) : Prop where
  inside : mode.Inside front (Trail.start.run front).body rest
  closed : ∀ body index, (Trail.start.run front).closed = some (body, index) →
    Doc.Closes front body index

namespace Knows

theorem step (knows : mode.Knows front (c :: rest)) :
    (mode.step c rest).2.Knows (front ++ [(c, (mode.step c rest).1)]) rest := by
  refine ⟨by rw [Trail.run_snoc]; exact inside_step knows.inside, fun body index closes => ?_⟩
  rw [Trail.run_snoc] at closes
  by_cases ends : (mode.step c rest).1 = .docEnd
  · obtain rfl : mode = .closing true := by
      unfold Mode.step at ends
      grind
    obtain ⟨⟨above, whole⟩, more, same⟩ := knows.inside
    obtain ⟨rfl, rfl⟩ := List.cons.inj same
    have found : some ((Trail.start.run front).body, (Trail.start.run front).number) = some (body, index) :=
      closes
    obtain ⟨same, place⟩ := Prod.mk.inj (Option.some.inj found)
    have number := Trail.number_run front .start
    refine ⟨above, [], ?_, List.forall_mem_nil _, ?_⟩
    · rw [← same]
      conv_lhs => rw [whole]
      simp [Doc.letters, Mode.step]
    · rw [← place, number, whole, ← same]
      simp [Doc.lineFeeds, Doc.letters, Trail.start]
  · have blank : (mode.step c rest).1.isKept = true → isBlank c = true := by
      intro kept
      by_contra solid
      have none : ((Trail.start.run front).step (c, (mode.step c rest).1)).closed = none := by
        cases region : (mode.step c rest).1 <;> rw [region] at kept <;>
          first | contradiction | exact if_neg solid
      rw [none] at closes
      contradiction
    rw [Trail.closed_step ends blank] at closes
    exact (knows.closed body index closes).snoc ends blank

/-- The reader goes on over a part of a line. -/
theorem read {line : Text} (knows : mode.Knows front line) (count : Nat) :
    ∃ mode', mode'.Knows (front ++ (line.zip (mode.regions line)).take count) (line.drop count) ∧
      (line.length ≤ count → mode' = mode.after line) := by
  induction line generalizing mode front count with
  | nil =>
    rw [List.zip_nil_left, List.take_nil, List.append_nil, List.drop_nil]
    exact ⟨mode, knows, fun _ => rfl⟩
  | cons c line ih =>
    cases count with
    | zero =>
      rw [List.take_zero, List.append_nil]
      exact ⟨mode, knows, fun whole => absurd whole (Nat.not_succ_le_zero _)⟩
    | succ count =>
      obtain ⟨mode', knows', last⟩ := ih knows.step count
      refine ⟨mode', ?_, fun whole => last (Nat.le_of_succ_le_succ whole)⟩
      rw [regions_cons, List.zip_cons_cons, List.take_succ_cons, ← List.singleton_append, ← List.append_assoc]
      exact knows'

/-- Over a line end nothing is forgotten. -/
theorem pastEnd (knows : mode.Knows front []) {ends : Text}
    (blank : ∀ c ∈ ends, isBlank c = true) (rest : Text) :
    mode.overLine.Knows (front ++ ends.map fun c => (c, mode.lineEnd)) rest := by
  have gap : Doc.Gap (ends.map fun c => (c, mode.lineEnd)) :=
    List.forall_mem_map.mpr fun c member => ⟨lineEnd_ne mode, fun _ => blank c member⟩
  refine ⟨by rw [Trail.run_append]; exact knows.inside.pastEnd ends rest, fun body index closes => ?_⟩
  rw [Trail.run_append, Trail.closed_run gap] at closes
  obtain ⟨above, gap', rfl, blank', place⟩ := knows.closed body index closes
  exact ⟨above, _, List.append_assoc _ _ _, List.forall_mem_append.mpr ⟨blank', gap⟩, place⟩

/-- The reader goes on over a written line. -/
theorem overRaw {raw : Text} (knows : ∀ rest, mode.Knows front rest) (rest : Text) :
    (mode.after (Line.withoutReturn raw)).overLine.Knows (front ++ mode.lettersOfRaw raw) rest := by
  obtain ⟨mode', knows', last⟩ := (knows (Line.withoutReturn raw)).read (Line.withoutReturn raw).length
  obtain rfl := last (Nat.le_refl _)
  rw [List.drop_length, List.take_of_length_le (List.length_zip ▸ Nat.min_le_left _ _)] at knows'
  rw [lettersOfRaw, ← List.append_assoc]
  refine knows'.pastEnd (List.forall_mem_append.mpr
    ⟨fun c member => ?_, List.forall_mem_singleton.mpr rfl⟩) rest
  rw [Line.eq_return member]
  rfl

end Knows

/-! ## The lines of a text -/

theorem lettersOfLines_append [Alphabets] (opened : Opened) (raws more : List Text) :
    opened.comment.mode.lettersOfLines (raws ++ more) = opened.comment.mode.lettersOfLines raws ++
      (opened.after raws).comment.mode.lettersOfLines more := by
  induction raws generalizing opened with
  | nil => rfl
  | cons raw raws ih =>
    rw [List.cons_append, lettersOfLines, lettersOfLines, ← Line.mode_next, ih, List.append_assoc]
    rfl

/-- What is written is what is read. -/
theorem map_lettersOfRaw (mode : Mode) (raw : Text) :
    (mode.lettersOfRaw raw).map Prod.fst = raw ++ ['\n'] := by
  have parts := List.prefix_iff_eq_append.mp (Line.withoutReturn_begins raw)
  rw [lettersOfRaw, List.map_append, List.map_map, List.map_fst_zip (Nat.le_of_eq (length_regions _ _).symm)]
  conv_rhs => rw [← parts, List.append_assoc]
  exact congrArg _ (List.map_id _)

theorem length_lettersOfRaw (mode : Mode) (raw : Text) : (mode.lettersOfRaw raw).length = raw.length + 1 := by
  rw [← List.length_map Prod.fst, map_lettersOfRaw, List.length_append, List.length_singleton]

theorem lineFeeds_lettersOfLines {raws : List Text} (apart : ∀ raw ∈ raws, '\n' ∉ raw) (mode : Mode) :
    Doc.lineFeeds (mode.lettersOfLines raws) = raws.length := by
  induction raws generalizing mode with
  | nil => rfl
  | cons raw raws ih =>
    obtain ⟨single, apart⟩ := List.forall_mem_cons.mp apart
    have below := ih apart (mode.after (Line.withoutReturn raw)).overLine
    rw [Doc.lineFeeds] at below ⊢
    rw [lettersOfLines, List.map_append, List.count_append, below, map_lettersOfRaw, List.count_append,
      List.count_eq_zero_of_not_mem single, List.length_cons]
    simp [Nat.add_comm]

/-- A line begins behind the characters of the lines above it. -/
theorem start_of_lines {raws : List Text} (apart : ∀ raw ∈ raws, '\n' ∉ raw) (mode : Mode) (base : Nat)
    {index : Nat} (short : index < raws.length) :
    (base :: LineTable.startsAfter base (Text.join ['\n'] raws))[index]? =
      some (base + (mode.lettersOfLines (raws.take index)).length) := by
  induction raws generalizing mode base index with
  | nil => contradiction
  | cons raw raws ih =>
    cases index with
    | zero => rfl
    | succ index =>
      obtain ⟨single, apart⟩ := List.forall_mem_cons.mp apart
      have more : raws ≠ [] := by
        rintro rfl
        simp at short
      have size : base + (mode.lettersOfLines ((raw :: raws).take (index + 1))).length =
          base + raw.length + 1 + ((mode.after (Line.withoutReturn raw)).overLine.lettersOfLines
            (raws.take index)).length := by
        rw [List.take_succ_cons, lettersOfLines, List.length_append, length_lettersOfRaw]
        omega
      rw [List.getElem?_cons_succ, Text.join_cons _ _ more, List.singleton_append,
        LineTable.startsAfter_append_cons single, ih apart _ _ (Nat.lt_of_succ_lt_succ short), size]

/-- The characters in front of a place are those of the lines above it, and what its line begins with. -/
theorem take_letters [Alphabets] {text raw : Text} {index column : Nat}
    (found : (Text.split '\n' text)[index]? = some raw)
    (inside : column ≤ (Line.withoutReturn raw).length) :
    (letters text).take ((LineTable.ofText text).offset ⟨index, column⟩) =
      Mode.code.lettersOfLines ((Text.split '\n' text).take index) ++
        ((Line.withoutReturn raw).zip
          ((Line.openedAt text index).comment.mode.regions (Line.withoutReturn raw))).take column := by
  obtain ⟨short, here⟩ := List.getElem?_eq_some_iff.mp found
  have parts : Text.split '\n' text =
      (Text.split '\n' text).take index ++ raw :: (Text.split '\n' text).drop (index + 1) := by
    rw [← here, ← List.drop_eq_getElem_cons short, List.take_append_drop]
  obtain ⟨upper, lower, stands⟩ := LineTable.lineAt found
  have place : upper.length = (Mode.code.lettersOfLines ((Text.split '\n' text).take index)).length := by
    have start := stands.start
    have apart : ∀ raw ∈ Text.split '\n' text, '\n' ∉ raw := fun raw => Text.not_mem_of_mem_split
    rw [← Text.join_split '\n' text, start_of_lines apart .code 0 short, Nat.zero_add, Nat.zero_add] at start
    exact (Option.some.inj start).symm
  obtain ⟨rest, filled, whole⟩ : ∃ rest, rest ≠ [] ∧ Mode.code.lettersOfLines (Text.split '\n' text) =
      Mode.code.lettersOfLines ((Text.split '\n' text).take index) ++ ((Line.withoutReturn raw).zip
        ((Line.openedAt text index).comment.mode.regions (Line.withoutReturn raw)) ++ rest) := by
    have lines := lettersOfLines_append .nothing ((Text.split '\n' text).take index)
      (raw :: (Text.split '\n' text).drop (index + 1))
    rw [← parts, lettersOfLines, lettersOfRaw, List.append_assoc] at lines
    exact ⟨_, by simp, lines⟩
  have fits : column ≤ ((Line.withoutReturn raw).zip
      ((Line.openedAt text index).comment.mode.regions (Line.withoutReturn raw))).length := by
    rwa [List.length_zip, length_regions, Nat.min_self]
  rw [stands.offset_eq (Nat.le_trans inside (Line.withoutReturn_begins raw).length_le), place, letters, whole,
    List.dropLast_append_of_ne_nil (List.append_ne_nil_of_right_ne_nil _ filled),
    List.dropLast_append_of_ne_nil filled, List.take_length_add_append, List.take_append_of_le_length fits]

/-- The reader goes on over written lines. -/
theorem Knows.overLines [Alphabets] {opened : Opened} {front : List Letter} (raws : List Text)
    (knows : ∀ rest, opened.comment.mode.Knows front rest) (rest : Text) :
    (opened.after raws).comment.mode.Knows (front ++ opened.comment.mode.lettersOfLines raws) rest := by
  induction raws generalizing opened front rest with
  | nil =>
    rw [lettersOfLines, List.append_nil]
    exact knows rest
  | cons raw raws ih =>
    rw [lettersOfLines, ← Line.mode_next, ← List.append_assoc]
    refine ih (fun rest => ?_) rest
    rw [Line.mode_next]
    exact overRaw knows rest

end Mode

namespace Doc

/-- The reader finds the doc comment that stands directly before. -/
theorem closed_iff {mode : Mode} {front : List Letter} {rest : Text} (knows : mode.Knows front rest)
    (body : Text) (index : Nat) :
    (Trail.start.run front).closed = some (body, index) ↔ Closes front body index := by
  refine ⟨knows.closed body index, ?_⟩
  rintro ⟨above, gap, rfl, blank, rfl⟩
  have found : (Trail.start.run (above ++ letters body)).closed =
      some ((Trail.start.run above).body ++ body, lineFeeds (above ++ letters body)) := by
    have opens : ∀ letter ∈ opener, letter.2 ≠ Region.docBody ∧ letter.2 ≠ .docEnd := by decide +kernel
    have number := Trail.number_run (above ++ opener ++ body.map (·, .docBody) ++ [('*', .comment)]) .start
    have bodies : (Trail.start.run (above ++ opener ++ body.map (·, .docBody) ++ [('*', .comment)])).body =
        (Trail.start.run above).body ++ body := by
      rw [Trail.run_snoc, Trail.run_append, Trail.run_append]
      exact (Trail.body_run _ _).trans (congrArg (· ++ body) (Trail.body_run_of_outside opens _))
    have whole : above ++ letters body =
        above ++ opener ++ body.map (·, .docBody) ++ [('*', .comment)] ++ [('/', .docEnd)] := by
      simp [letters]
    have size : lineFeeds (above ++ letters body) =
        (Trail.start.run (above ++ opener ++ body.map (·, .docBody) ++ [('*', .comment)])).number := by
      rw [number, whole]
      simp [lineFeeds, Trail.start]
    rw [size, ← bodies, whole, Trail.run_snoc]
    rfl
  rw [← Trail.closed_run blank, ← Trail.run_append] at found
  obtain ⟨above', gap', whole, blank', -⟩ := knows.closed _ _ found
  rw [found, ← body_unique whole blank blank']

end Doc

end PawnScope
