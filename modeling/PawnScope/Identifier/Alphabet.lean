import PawnScope.Text.CharClass
/-!
The characters that names are made of. ASCII is settled here. Past ASCII the identifier properties of
Unicode decide, and their tables are not part of the library: they are its parameter, `Alphabets`.

Text is cut into names in two ways, each with a table of its own. The lexer cuts tokens; the words
around a cursor and the names of parameters are cut straight from the text. Both mean the same
properties, but only `Alphabets.Agree` says that they know the same characters.
-/

namespace PawnScope

/--
What a table says of the characters past ASCII: the letters (XID_Start), and the marks and digits that
only go on with a name (the rest of XID_Continue). White space is neither.
-/
structure Alphabet where
  isLetter : Char → Bool
  isMark : Char → Bool
  solid_letter : ∀ c, isLetter c = true → isBlank c = false
  solid_mark : ∀ c, isMark c = true → isBlank c = false

namespace Alphabet

/-- A letter, `_` or `@` begins a name. -/
def starts (alphabet : Alphabet) (c : Char) : Bool :=
  if c.toNat < 128 then c.isAlpha || c == '_' || c == '@' else alphabet.isLetter c

/-- Digits and marks also continue one. -/
def continues (alphabet : Alphabet) (c : Char) : Bool :=
  alphabet.starts c || if c.toNat < 128 then c.isDigit else alphabet.isMark c

variable {alphabet : Alphabet} {c : Char}

theorem continues_of_starts (start : alphabet.starts c = true) : alphabet.continues c = true := by
  simp [continues, start]

/-- No blank is in a name. -/
theorem isBlank_of_continues (part : alphabet.continues c = true) : isBlank c = false := by
  have ascii : ∀ code ∈ List.range 128,
      ((Char.ofNat code).isAlpha || Char.ofNat code == '_' || Char.ofNat code == '@' ||
        (Char.ofNat code).isDigit) = true → isBlank (Char.ofNat code) = false := by decide +kernel
  unfold continues starts at part
  by_cases small : c.toNat < 128
  · have code := ascii c.toNat (List.mem_range.mpr small)
    rw [Char.ofNat_toNat] at code
    exact code (by simpa only [if_pos small] using part)
  · simp only [if_neg small, Bool.or_eq_true] at part
    exact part.elim (alphabet.solid_letter c) (alphabet.solid_mark c)

end Alphabet

/-- The alphabets that tokens and words are cut by. A word takes in all that a token does. -/
class Alphabets where
  token : Alphabet
  word : Alphabet
  known : ∀ c, token.continues c = true → word.continues c = true

/-- Tokens and words go on with the same characters. -/
def Alphabets.Agree [alphabets : Alphabets] : Prop :=
  ∀ c, alphabets.token.continues c = alphabets.word.continues c

end PawnScope
