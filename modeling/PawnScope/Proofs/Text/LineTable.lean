import PawnScope.Proofs.Text.Pieces
import PawnScope.Text.LineTable
/-!
The line table of a text and the pieces of the text between line feeds: where a line begins and ends is
where its piece stands in the text. So the offset of a position on a line counts from there:
`LineAt.offset_eq`.
-/

namespace PawnScope.LineTable

theorem startsAfter_of_not_mem {piece : Text} (apart : '\n' ∉ piece) (base : Nat) :
    startsAfter base piece = [] := by
  induction piece generalizing base with
  | nil => rfl
  | cons c rest ih =>
    obtain ⟨differ, apart'⟩ := not_or.mp (List.mem_cons.not.mp apart)
    rw [startsAfter, if_neg (Ne.symm differ), ih apart']

theorem startsAfter_append_cons {piece : Text} (apart : '\n' ∉ piece) (base : Nat) (more : Text) :
    startsAfter base (piece ++ '\n' :: more) =
      (base + piece.length + 1) :: startsAfter (base + piece.length + 1) more := by
  induction piece generalizing base with
  | nil => simp [startsAfter]
  | cons c rest ih =>
    obtain ⟨differ, apart'⟩ := not_or.mp (List.mem_cons.not.mp apart)
    have place : base + 1 + rest.length = base + (c :: rest).length := by
      rw [List.length_cons]
      omega
    rw [List.cons_append, startsAfter, if_neg (Ne.symm differ), ih apart', place]

/-- A line of a text at offset `base`, with the text before and after it. -/
structure LineAt (base : Nat) (text : Text) (line : Nat) (piece above below : Text) : Prop where
  whole : text = above ++ (piece ++ below)
  before : ∀ c ∈ above.getLast?, c = '\n'
  after : ∀ c ∈ below.head?, c = '\n'
  start : (base :: startsAfter base text)[line]? = some (base + above.length)
  /-- The next line, if there is one, begins after the line feed. -/
  next : (base :: startsAfter base text)[line + 1]? =
    if below = [] then none else some (base + above.length + piece.length + 1)

theorem lineAt_of_join {pieces : List Text} (apart : ∀ piece ∈ pieces, '\n' ∉ piece) (base : Nat)
    {line : Nat} {piece : Text} (found : pieces[line]? = some piece) :
    ∃ above below, LineAt base (Text.join ['\n'] pieces) line piece above below := by
  induction pieces generalizing base line with
  | nil => simp at found
  | cons first rest ih =>
    have alone : '\n' ∉ first := apart first List.mem_cons_self
    by_cases more : rest = []
    · subst more
      obtain ⟨rfl, rfl⟩ : line = 0 ∧ first = piece := by
        cases line with
        | zero => exact ⟨rfl, by simpa using found⟩
        | succ line => simp at found
      refine ⟨[], [], ?_⟩
      constructor <;> simp [Text.join, startsAfter_of_not_mem alone]
    · have starts := startsAfter_append_cons alone base (Text.join ['\n'] rest)
      rw [Text.join_cons _ _ more, List.singleton_append]
      cases line with
      | zero =>
        obtain rfl : first = piece := by simpa using found
        refine ⟨[], '\n' :: Text.join ['\n'] rest, ?_⟩
        constructor <;> simp [starts]
      | succ line =>
        obtain ⟨above, below, stands⟩ :=
          ih (fun other member => apart other (List.mem_cons_of_mem _ member))
            (base + first.length + 1) found
        have size : base + (first ++ '\n' :: above).length = base + first.length + 1 + above.length := by
          rw [List.length_append, List.length_cons]
          omega
        refine ⟨first ++ '\n' :: above, below, ?_, ?_, stands.after, ?_, ?_⟩
        · rw [List.append_assoc, List.cons_append, ← stands.whole]
        · rw [List.getLast?_append_of_ne_nil _ (List.cons_ne_nil _ _)]
          cases above with
          | nil => simp
          | cons c above =>
            rw [List.getLast?_cons_cons]
            exact stands.before
        · rw [List.getElem?_cons_succ, starts, stands.start, size]
        · rw [List.getElem?_cons_succ, starts, stands.next, size]

theorem lineAt {text : Text} {line : Nat} {piece : Text}
    (found : (Text.split '\n' text)[line]? = some piece) :
    ∃ above below, LineAt 0 text line piece above below := by
  have whole := lineAt_of_join (fun piece member => Text.not_mem_of_mem_split member) 0 found
  rwa [Text.join_split] at whole

/-- The offset of a position on a line, or behind its end. -/
theorem LineAt.offset_min {text piece above below : Text} {line : Nat}
    (stands : LineAt 0 text line piece above below) (column : Nat) :
    (ofText text).offset ⟨line, column⟩ = above.length + min column piece.length := by
  have start := stands.start
  have next := stands.next
  rw [Nat.zero_add] at start next
  have stop : (ofText text).lineEnd line = above.length + piece.length := by
    rw [lineEnd, ofText]
    dsimp only
    rw [next]
    by_cases last : below = []
    · rw [if_pos last, stands.whole, last, List.append_nil, List.length_append]
    · rw [if_neg last]
      exact Nat.add_sub_cancel _ _
  rw [offset]
  dsimp only
  rw [stop]
  simp only [ofText, start]
  omega

/-- The offset of a position on a line. -/
theorem LineAt.offset_eq {text piece above below : Text} {line column : Nat}
    (stands : LineAt 0 text line piece above below) (short : column ≤ piece.length) :
    (ofText text).offset ⟨line, column⟩ = above.length + column := by
  rw [stands.offset_min, Nat.min_eq_left short]

end PawnScope.LineTable
