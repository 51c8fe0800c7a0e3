import Mathlib.Data.List.Induction
import PawnScope.Cursor.Word
/-!
The parentheses of a line that have no match. A closing one matches the nearest opening one before it that
has no match yet. Counting says which of the two kinds has more without a match, and nothing else:
`insideParens_iff`.
-/

namespace PawnScope

/-- Where the parentheses stand that have no match, the last one first. -/
structure Unmatched where
  opening : List Nat
  closing : List Nat
deriving DecidableEq, Repr

namespace Unmatched

/-- A closing parenthesis at `index` takes the nearest opening one, if one is left. -/
def step (found : Unmatched) (c : Char) (index : Nat) : Unmatched :=
  if c = '(' then { found with opening := index :: found.opening }
  else if c = ')' then
    match found.opening with
    | [] => { found with closing := index :: found.closing }
    | _ :: outer => { found with opening := outer }
  else found

/-- The parentheses of a text that have no match in it. -/
def ofText (text : Text) : Unmatched :=
  text.zipIdx.foldl (fun found entry => found.step entry.1 entry.2) ⟨[], []⟩

variable {text : Text} {c : Char}

theorem ofText_append_singleton (text : Text) (c : Char) :
    ofText (text ++ [c]) = (ofText text).step c text.length := by
  rw [ofText, List.zipIdx_append, List.foldl_append]
  simp [ofText]

/-- A step keeps the difference between the parentheses that were read and those without a match. -/
theorem length_step (found : Unmatched) (c : Char) (index : Nat) :
    (found.step c index).opening.length + found.closing.length + [c].count ')' =
      found.opening.length + (found.step c index).closing.length + [c].count '(' := by
  obtain ⟨opening, closing⟩ := found
  by_cases opens : c = '('
  · subst opens
    simp [step]
    omega
  · by_cases closes : c = ')'
    · subst closes
      cases opening with
      | nil => simp [step]
      | cons nearest outer =>
        simp [step]
        omega
    · simp [step, opens, closes]

/-- Each match takes one parenthesis of each kind. -/
theorem length_ofText (text : Text) :
    (ofText text).opening.length + text.count ')' = (ofText text).closing.length + text.count '(' := by
  induction text using List.reverseRecOn with
  | nil => rfl
  | append_singleton text c ih =>
    have step := length_step (ofText text) c text.length
    rw [ofText_append_singleton, List.count_append, List.count_append]
    omega

end Unmatched

/-- Inside of parentheses means that more opening than closing ones of the line have no match. -/
theorem insideParens_iff (chars : Text) (offset : Nat) :
    let found := Unmatched.ofText (lineBefore chars offset)
    insideParens chars offset = true ↔ found.closing.length < found.opening.length := by
  have balance := Unmatched.length_ofText (lineBefore chars offset)
  rw [insideParens, decide_eq_true_iff]
  dsimp only
  omega

end PawnScope
