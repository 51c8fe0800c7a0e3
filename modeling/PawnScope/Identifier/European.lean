import PawnScope.Identifier.Alphabet
/-!
An alphabet to read examples by: Unicode's letters and marks of the Latin, Greek and Cyrillic blocks.
-/

namespace PawnScope.Identifier.European

/-- The letters past ASCII up to U+052F. -/
def letters : CharClass :=
  [(0xAA, 0xAA), (0xB5, 0xB5), (0xBA, 0xBA), (0xC0, 0xD6), (0xD8, 0xF6), (0xF8, 0x2C1),
    (0x2C6, 0x2D1), (0x2E0, 0x2E4), (0x2EC, 0x2EC), (0x2EE, 0x2EE), (0x370, 0x374), (0x376, 0x377),
    (0x37B, 0x37D), (0x37F, 0x37F), (0x386, 0x386), (0x388, 0x38A), (0x38C, 0x38C), (0x38E, 0x3A1),
    (0x3A3, 0x3F5), (0x3F7, 0x481), (0x48A, 0x52F)]

/-- The marks up to there. -/
def marks : CharClass :=
  [(0xB7, 0xB7), (0x300, 0x36F), (0x387, 0x387), (0x483, 0x487)]

def alphabet : Alphabet where
  isLetter := letters.contains
  isMark := marks.contains
  solid_letter _ := CharClass.contains_of_apart (by decide +kernel)
  solid_mark _ := CharClass.contains_of_apart (by decide +kernel)

/-- Tokens and words both are cut by it. -/
scoped instance alphabets : Alphabets where
  token := alphabet
  word := alphabet
  known _ part := part

end PawnScope.Identifier.European
