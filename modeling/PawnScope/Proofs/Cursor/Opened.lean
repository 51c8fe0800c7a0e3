import Mathlib.Data.List.Induction
import PawnScope.Proofs.Cursor.Nested
/-!
The literal that is open behind a text. A character is masked by what is open before it and by itself
alone (`Literal.getElem?_mask`), so the mask of a text goes on from what is open behind its front:
`Literal.mask_append`.
-/

namespace PawnScope

namespace Literal

/-- The literal that is open behind `c`, given by its quote and by whether it escapes what follows. -/
def next (opened : Option (Char × Bool)) (c : Char) : Option (Char × Bool) :=
  if c = '\n' then none
  else
    match opened with
    | none => if isQuote c then some (c, false) else none
    | some (quote, true) => some (quote, false)
    | some (quote, false) =>
      if isEscape c then some (quote, true) else if c = quote then none else some (quote, false)

/-- The literal that is open behind a text. -/
def opened (text : Text) : Option (Char × Bool) :=
  text.foldl next none

/-- The quote of the literal that is open behind a text. -/
def open? (text : Text) : Option Char :=
  (opened text).map Prod.fst

/-- The mask of what stands where a literal may be open. -/
def maskBehind (opened : Option (Char × Bool)) (text : Text) : List Bool :=
  match opened with
  | none => mask text
  | some (quote, escaped) => maskFrom (some quote) (escaped && text.head?.any (· != '\n')) text

variable {quote c : Char} {escaped : Bool} {text front : Text}

theorem opened_append_singleton (front : Text) (c : Char) :
    opened (front ++ [c]) = next (opened front) c :=
  List.foldl_append

/-- Only a quote opens a literal. -/
theorem isQuote_of_opened (found : opened text = some (quote, escaped)) : isQuote quote = true := by
  induction text using List.reverseRecOn generalizing quote escaped with
  | nil => contradiction
  | append_singleton text c ih =>
    rw [opened_append_singleton] at found
    cases before : opened text with
    | none =>
      rw [before] at found
      grind [next]
    | some state =>
      obtain ⟨opener, escapes⟩ := state
      have same : opener = quote := by
        rw [before] at found
        cases escapes <;> grind [next]
      exact same ▸ ih before

theorem maskBehind_nil (opened : Option (Char × Bool)) : maskBehind opened [] = [] := by
  cases opened <;> rfl

/-- A character is masked by what is open before it and by itself. -/
theorem maskBehind_cons (opened : Option (Char × Bool)) (c : Char) (rest : Text) :
    maskBehind opened (c :: rest) =
      (c != '\n' && (opened.isSome || isQuote c)) :: maskBehind (next opened c) rest := by
  cases opened with
  | none => grind [maskBehind, mask, maskFrom, next]
  | some state =>
    obtain ⟨quote, escaped⟩ := state
    by_cases line : c = '\n'
    · simp [line, maskBehind, mask, maskFrom, next]
    · cases escaped with
      | true => simp [line, maskBehind, maskFrom, next]
      | false =>
        -- An escape at the end of its line escapes nothing, but the line ends the literal anyway.
        cases rest with
        | nil =>
          rw [maskBehind_nil]
          simp [line, maskBehind, maskFrom]
        | cons d rest => grind [maskBehind, mask, maskFrom, next]

theorem maskBehind_append (opened : Option (Char × Bool)) (front rest : Text) :
    maskBehind opened (front ++ rest) =
      maskBehind opened front ++ maskBehind (front.foldl next opened) rest := by
  induction front generalizing opened with
  | nil => rw [maskBehind_nil]; rfl
  | cons c front ih =>
    rw [List.cons_append, maskBehind_cons, maskBehind_cons, ih]
    rfl

/-- The mask of a text goes on from what is open behind its front. -/
theorem mask_append (front rest : Text) :
    mask (front ++ rest) = mask front ++ maskBehind (opened front) rest :=
  maskBehind_append none front rest

theorem length_mask (text : Text) : (mask text).length = text.length := by
  have length (opened : Option (Char × Bool)) : (maskBehind opened text).length = text.length := by
    induction text generalizing opened with
    | nil => rw [maskBehind_nil]; rfl
    | cons c text ih => rw [maskBehind_cons, List.length_cons, ih, List.length_cons]
  exact length none

/-- What is masked: all but line breaks where a literal is open, and the quotes that open one. -/
theorem getElem?_mask (text : Text) (index : Nat) :
    (mask text)[index]? = text[index]?.map fun c =>
      c != '\n' && ((open? (text.take index)).isSome || isQuote c) := by
  cases found : text[index]? with
  | none =>
    rw [Option.map_none, List.getElem?_eq_none_iff, length_mask]
    exact List.getElem?_eq_none_iff.mp found
  | some c =>
    obtain ⟨short, rfl⟩ := List.getElem?_eq_some_iff.mp found
    have size : (mask (text.take index)).length = index := by
      rw [length_mask, List.length_take]
      omega
    have whole : mask text = mask (text.take index) ++
        maskBehind (opened (text.take index)) (text[index] :: text.drop (index + 1)) := by
      rw [← mask_append, ← List.drop_eq_getElem_cons short, List.take_append_drop]
    rw [whole, List.getElem?_append_right (Nat.le_of_eq size), size, Nat.sub_self, maskBehind_cons]
    simp [open?]

/-- Behind a character outside of literals no literal is open. -/
theorem opened_of_unmasked {index : Nat} (unmasked : (mask text)[index]? = some false) :
    opened (text.take (index + 1)) = none := by
  rw [getElem?_mask, Option.map_eq_some_iff] at unmasked
  obtain ⟨c, found, unmasked⟩ := unmasked
  rw [List.take_add_one, found, Option.toList_some, opened_append_singleton]
  cases before : opened (text.take index) with
  | none => grind [next, open?]
  | some state =>
    obtain rfl : c = '\n' := by simpa [open?, before] using unmasked
    rfl

/-- What holds at the line breaks of a text holds at those of its rest, if nothing is open before that. -/
theorem opened_of_lines {rest : Text} (outside : opened front = none)
    (closed : ∀ index, front.length ≤ index → (front ++ rest)[index]? = some '\n' →
      open? ((front ++ rest).take index) = none) :
    ∀ above, above ++ ['\n'] <+: rest → opened above = none := by
  rintro above ⟨below, rfl⟩
  have nothing := closed (front.length + above.length) (Nat.le_add_right _ _) (by simp)
  rwa [List.take_length_add_append, List.append_assoc, List.take_left, open?, Option.map_eq_none_iff,
    opened, List.foldl_append, ← opened, outside] at nothing

end Literal

end PawnScope
