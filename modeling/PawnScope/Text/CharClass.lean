/-!
Classes of characters: blanks, given as ranges of code points, and the marks of literals.
-/

namespace PawnScope

/-- A class of characters: inclusive ranges of code points. -/
abbrev CharClass := List (Nat × Nat)

namespace CharClass

def contains (ranges : CharClass) (c : Char) : Bool :=
  ranges.any fun range => range.1 ≤ c.toNat && c.toNat ≤ range.2

/-- The characters with the Unicode property White_Space. -/
def blanks : CharClass :=
  [(0x9, 0xD), (0x20, 0x20), (0x85, 0x85), (0xA0, 0xA0), (0x1680, 0x1680), (0x2000, 0x200A),
    (0x2028, 0x2029), (0x202F, 0x202F), (0x205F, 0x205F), (0x3000, 0x3000)]

/-- Classes have no character in common if their ranges are apart. -/
theorem contains_of_apart {ranges others : CharClass} {c : Char}
    (apart : ∀ range ∈ ranges, ∀ other ∈ others, range.2 < other.1 ∨ other.2 < range.1)
    (inside : ranges.contains c = true) : others.contains c = false := by
  refine Bool.eq_false_iff.mpr fun both => ?_
  obtain ⟨range, member, within⟩ := List.any_eq_true.mp inside
  obtain ⟨other, member', within'⟩ := List.any_eq_true.mp both
  simp only [Bool.and_eq_true, decide_eq_true_eq] at within within'
  have := apart range member other member'
  omega

end CharClass

/-- A blank separates words and is trimmed from the ends of a text. -/
def isBlank (c : Char) : Bool :=
  CharClass.blanks.contains c

/-- Both `^` and a backslash escape the character after them in a literal. -/
def isEscape (c : Char) : Bool :=
  c == '^' || c == '\\'

/-- The quotes of strings and of characters. -/
def isQuote (c : Char) : Bool :=
  c == '"' || c == '\''

end PawnScope
