import PawnScope.Proofs.Text.LineTable
/-!
Offsets and positions of a text. The lines begin one behind the other, so the line of an offset is the
last one that begins at or before it, and the offset stands on that line. Main result:
`ofText_inverse`, that the two conversions undo each other and keep the order.
-/

namespace PawnScope

/-- One position comes before another one, or is the same. -/
def Position.UpTo (one two : Position) : Prop :=
  one.line < two.line ∨ one.line = two.line ∧ one.column ≤ two.column

/-- A span contains what stands between its ends, and its ends. -/
theorem Span.contains_iff {span : Span} {position : Position} :
    span.contains position = true ↔ span.start.UpTo position ∧ position.UpTo span.stop := by
  simp only [contains, Position.UpTo, Bool.and_eq_true, Bool.not_eq_true', Bool.or_eq_false_iff,
    Bool.and_eq_false_iff, decide_eq_false_iff_not, beq_eq_false_iff_ne]
  omega

namespace LineTable

variable {text piece above below : Text} {line offset : Nat}

/-! ## Where lines begin -/

theorem startsAfter_bounds {base start : Nat} (member : start ∈ startsAfter base text) :
    base < start ∧ start ≤ base + text.length := by
  induction text generalizing base with
  | nil => cases member
  | cons c rest ih =>
    have later (member : start ∈ startsAfter (base + 1) rest) :
        base < start ∧ start ≤ base + (rest.length + 1) := by
      have bounds := ih member
      omega
    rw [startsAfter] at member
    rw [List.length_cons]
    split at member
    · rcases List.mem_cons.mp member with rfl | member
      · omega
      · exact later member
    · exact later member

theorem startsAfter_sorted (base : Nat) (text : Text) :
    (base :: startsAfter base text).Pairwise (· < ·) := by
  induction text generalizing base with
  | nil => exact List.pairwise_singleton _ _
  | cons c rest ih =>
    refine List.pairwise_cons.mpr ⟨fun start member => (startsAfter_bounds member).1, ?_⟩
    rw [startsAfter]
    split
    · exact ih (base + 1)
    · exact (ih (base + 1)).of_cons

theorem starts_sorted (text : Text) : (ofText text).starts.Pairwise (· < ·) :=
  startsAfter_sorted 0 text

/-- Every line has its piece. -/
theorem length_startsAfter (base : Nat) (text : Text) :
    (startsAfter base text).length + 1 = (Text.split '\n' text).length := by
  induction text generalizing base with
  | nil => rfl
  | cons c rest ih =>
    rw [startsAfter, Text.split]
    split
    · rw [List.length_cons, List.length_cons, ih]
    · rw [ih]
      cases found : Text.split '\n' rest with
      | nil => exact absurd found (Text.split_ne_nil '\n' rest)
      | cons piece pieces => rfl

theorem lineCount_ofText (text : Text) :
    (ofText text).lineCount = (Text.split '\n' text).length :=
  length_startsAfter 0 text

theorem exists_piece (found : line < (ofText text).starts.length) :
    ∃ piece, (Text.split '\n' text)[line]? = some piece :=
  ⟨_, List.getElem?_eq_getElem (lineCount_ofText text ▸ found)⟩

/-! ## The line of an offset -/

/-- In a sorted list what is up to a bound comes first. -/
theorem le_iff_lt_countP {starts : List Nat} (sorted : starts.Pairwise (· < ·)) {index start : Nat}
    (found : starts[index]? = some start) (bound : Nat) :
    start ≤ bound ↔ index < starts.countP (· ≤ bound) := by
  induction starts generalizing index with
  | nil => simp at found
  | cons first rest ih =>
    obtain ⟨before, sorted'⟩ := List.pairwise_cons.mp sorted
    by_cases low : first ≤ bound
    · rw [List.countP_cons_of_pos (by simpa using low)]
      cases index with
      | zero =>
        obtain rfl : first = start := by simpa using found
        simp [low]
      | succ index =>
        rw [ih sorted' (by simpa using found)]
        omega
    · -- nothing behind a number above the bound is up to it
      have high : ∀ later ∈ rest, ¬later ≤ bound := fun later member reached =>
        low (Nat.le_trans (Nat.le_of_lt (before later member)) reached)
      have none : rest.countP (· ≤ bound) = 0 := List.countP_eq_zero.mpr (by simpa using high)
      rw [List.countP_cons_of_neg (by simpa using low), none]
      refine iff_of_false ?_ (Nat.not_lt_zero _)
      rcases List.mem_cons.mp (List.mem_of_getElem? found) with rfl | member
      · exact low
      · exact high start member

theorem LineAt.start_eq (stands : LineAt 0 text line piece above below) :
    (ofText text).starts[line]? = some above.length := by
  have start := stands.start
  rwa [Nat.zero_add] at start

theorem LineAt.within (stands : LineAt 0 text line piece above below) :
    above.length + piece.length ≤ text.length := by
  rw [stands.whole, List.length_append, List.length_append]
  omega

/-- A line that begins behind another one begins behind its line feed. -/
theorem LineAt.ends_before (stands : LineAt 0 text line piece above below) {line' start : Nat}
    (later : line < line') (found : (ofText text).starts[line']? = some start) :
    above.length + piece.length < start := by
  have next := stands.next
  rw [Nat.zero_add] at next
  have inside : line + 1 < (ofText text).starts.length :=
    Nat.lt_of_le_of_lt later (List.getElem?_eq_some_iff.mp found).1
  have begins : (ofText text).starts[line + 1]? = some (above.length + piece.length + 1) := by
    split at next
    · rw [List.getElem?_eq_none_iff] at next
      exact absurd next (Nat.not_le_of_lt inside)
    · exact next
  rcases Nat.eq_or_lt_of_le later with same | further
  · rw [← same, begins] at found
    exact Option.some.inj found ▸ Nat.lt_succ_self _
  · obtain ⟨_, first⟩ := List.getElem?_eq_some_iff.mp begins
    obtain ⟨inside', second⟩ := List.getElem?_eq_some_iff.mp found
    have ordered :=
      List.pairwise_iff_getElem.mp (starts_sorted text) _ _ inside inside' further
    omega

/-- The line of an offset is the one on which it stands. -/
theorem LineAt.lineOf_eq (stands : LineAt 0 text line piece above below) {column : Nat}
    (short : column ≤ piece.length) : (ofText text).lineOf (above.length + column) = line := by
  have sorted := starts_sorted text
  have first : line < (ofText text).starts.countP (· ≤ above.length + column) :=
    (le_iff_lt_countP sorted stands.start_eq _).mp (Nat.le_add_right _ _)
  have last : ¬line + 1 < (ofText text).starts.countP (· ≤ above.length + column) := by
    intro more
    have inside := Nat.lt_of_lt_of_le more List.countP_le_length
    have found := List.getElem?_eq_getElem inside
    have reached := (le_iff_lt_countP sorted found _).mpr more
    have behind := stands.ends_before (Nat.lt_succ_self line) found
    omega
  rw [lineOf]
  omega

theorem LineAt.position_eq (stands : LineAt 0 text line piece above below) {column : Nat}
    (short : column ≤ piece.length) :
    (ofText text).position (above.length + column) = ⟨line, column⟩ := by
  have inside : above.length + column ≤ (ofText text).length :=
    Nat.le_trans (Nat.add_le_add_left short _) stands.within
  rw [position, Nat.min_eq_left inside, stands.lineOf_eq short, List.getD_eq_getElem?_getD, stands.start_eq]
  simp

/-- Every offset stands on a line, or at its end. -/
theorem exists_lineAt_of_le (short : offset ≤ text.length) :
    ∃ line column piece above below, LineAt 0 text line piece above below ∧
      column ≤ piece.length ∧ offset = above.length + column := by
  have sorted := starts_sorted text
  have first : (ofText text).starts[0]? = some 0 := rfl
  have begun : 0 < (ofText text).starts.countP (· ≤ offset) :=
    (le_iff_lt_countP sorted first offset).mp (Nat.zero_le _)
  obtain ⟨line, count⟩ := Nat.exists_eq_add_one_of_ne_zero (Nat.ne_of_gt begun)
  have counted : line < (ofText text).starts.countP (· ≤ offset) := count ▸ Nat.lt_succ_self line
  obtain ⟨piece, found⟩ := exists_piece (Nat.lt_of_lt_of_le counted List.countP_le_length)
  obtain ⟨above, below, stands⟩ := lineAt found
  have reached := (le_iff_lt_countP sorted stands.start_eq offset).mpr counted
  refine ⟨line, offset - above.length, piece, above, below, stands, ?_, by omega⟩
  -- an offset behind the line would be at or behind the start of the next one
  by_cases last : below = []
  · have whole := congrArg List.length stands.whole
    rw [last, List.append_nil, List.length_append] at whole
    omega
  · have next := stands.next
    rw [if_neg last] at next
    have before := (le_iff_lt_countP sorted next offset).not.mpr (Nat.not_lt.mpr (Nat.le_of_eq count))
    omega

theorem offset_position (short : offset ≤ text.length) :
    (ofText text).offset ((ofText text).position offset) = offset := by
  obtain ⟨line, column, piece, above, below, stands, inside, rfl⟩ := exists_lineAt_of_le short
  rw [stands.position_eq inside, stands.offset_eq inside]

/-! ## The order of positions -/

theorem offset_past (past : (Text.split '\n' text)[line]? = none) (column : Nat) :
    (ofText text).offset ⟨line, column⟩ = text.length := by
  have absent : (ofText text).starts[line]? = none := by
    rw [List.getElem?_eq_none_iff, ← lineCount_ofText] at past
    exact List.getElem?_eq_none_iff.mpr past
  rw [LineTable.offset, absent]
  rfl

theorem offset_le (text : Text) (position : Position) :
    (ofText text).offset position ≤ text.length := by
  cases found : (Text.split '\n' text)[position.line]? with
  | none => exact Nat.le_of_eq (offset_past found position.column)
  | some piece =>
    obtain ⟨above, below, stands⟩ := lineAt found
    have clamped : (ofText text).offset position = _ := stands.offset_min position.column
    have within := stands.within
    omega

theorem offset_mono {one two : Position} (ordered : one.UpTo two) :
    (ofText text).offset one ≤ (ofText text).offset two := by
  obtain ⟨line, column⟩ := one
  obtain ⟨line', column'⟩ := two
  cases found : (Text.split '\n' text)[line']? with
  | none =>
    rw [offset_past found]
    exact offset_le text _
  | some piece' =>
    obtain ⟨above', below', stands'⟩ := lineAt found
    rw [stands'.offset_min]
    rcases ordered with earlier | ⟨same, ordered⟩
    · have inside := Nat.lt_trans earlier (List.getElem?_eq_some_iff.mp found).1
      obtain ⟨above, below, stands⟩ := lineAt (List.getElem?_eq_getElem inside)
      have before := stands.ends_before earlier stands'.start_eq
      rw [stands.offset_min]
      omega
    · obtain rfl : line = line' := same
      rw [stands'.offset_min]
      dsimp only at ordered
      omega

/-- What a span contains is between the offsets of its ends. -/
theorem offset_of_contains {span : Span} {position : Position} (inside : span.contains position = true) :
    (ofText text).offset span.start ≤ (ofText text).offset position ∧
      (ofText text).offset position ≤ (ofText text).offset span.stop := by
  obtain ⟨behind, before⟩ := Span.contains_iff.mp inside
  exact ⟨offset_mono behind, offset_mono before⟩

/--
Up to the end of a text its offsets are the positions on its lines, the ends of lines among them: each
conversion undoes the other. All positions, however far behind the end of their line or of the text, keep
their order and stay in the text, and an offset behind the end means the end.
-/
theorem ofText_inverse (text : Text) :
    (∀ offset ≤ (ofText text).length,
      (ofText text).offset ((ofText text).position offset) = offset) ∧
    (∀ line column piece, (Text.split '\n' text)[line]? = some piece → column ≤ piece.length →
      (ofText text).position ((ofText text).offset ⟨line, column⟩) = ⟨line, column⟩) ∧
    (∀ one two : Position, one.UpTo two → (ofText text).offset one ≤ (ofText text).offset two) ∧
    (∀ position, (ofText text).offset position ≤ (ofText text).length) ∧
    ∀ offset, (ofText text).length ≤ offset →
      (ofText text).position offset = (ofText text).position (ofText text).length := by
  refine ⟨fun offset => offset_position, ?_, fun one two => offset_mono, offset_le text, ?_⟩
  · intro line column piece found inside
    obtain ⟨above, below, stands⟩ := lineAt found
    rw [stands.offset_eq inside, stands.position_eq inside]
  · intro offset past
    rw [position, position, Nat.min_eq_right past, Nat.min_self]

/-- An empty line, a line feed at the end, and columns and lines that are nowhere. -/
theorem ofText_inverse_emptyLine :
    let table := ofText "ab\n\nc\n".toList
    table.offset (table.position 3) = 3 ∧ table.position (table.offset ⟨3, 0⟩) = ⟨3, 0⟩ ∧
      table.offset ⟨0, UInt64.size - 1⟩ ≤ table.offset ⟨1, 0⟩ ∧ table.position 40 = table.position 6 := by
  obtain ⟨offsets, positions, ordered, _, past⟩ := ofText_inverse "ab\n\nc\n".toList
  refine ⟨offsets 3 (by decide), positions 3 0 [] (by decide) (by decide), ordered _ _ ?_, ?_⟩
  · exact .inl (by decide)
  · exact past 40 (by decide)

end LineTable

end PawnScope
