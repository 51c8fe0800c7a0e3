import PawnScope.Text.CharClass
/-!
Text as a list of characters. All offsets and lengths of the library count characters; only
`Text.byteLength` and `Text.takeBytes?` speak of the UTF-8 form.
-/

namespace PawnScope

/-- Text is a list of Unicode scalar values. -/
abbrev Text := List Char

namespace Text

/-- Only the letters `A` to `Z` have another case here. -/
def lower (t : Text) : Text :=
  t.map Char.toLower

/-- Equality up to the case of ASCII letters. -/
def sameLetters (a b : Text) : Bool :=
  lower a == lower b

def trimStart (t : Text) : Text :=
  t.dropWhile isBlank

def trimEnd (t : Text) : Text :=
  (t.reverse.dropWhile isBlank).reverse

def trim (t : Text) : Text :=
  trimEnd (trimStart t)

/-- A text of blanks alone trims to nothing. -/
def allBlank (t : Text) : Bool :=
  t.all isBlank

/-- The characters from offset `start` up to offset `stop`. -/
def slice (t : Text) (start stop : Nat) : Text :=
  (t.drop start).take (stop - start)

/-- Cut at every `separator`; there is always one piece more than there are separators. -/
def split (separator : Char) : Text → List Text
  | [] => [[]]
  | c :: rest =>
    if c = separator then
      [] :: split separator rest
    else
      match split separator rest with
      | [] => [[c]]
      | piece :: pieces => (c :: piece) :: pieces

/-- The pieces with `separator` between neighbours. -/
def join (separator : Text) : List Text → Text
  | [] => []
  | [piece] => piece
  | piece :: pieces => piece ++ separator ++ join separator pieces

/-- What stands before and after the first `mark`. -/
def cut? (mark : Char) : Text → Option (Text × Text)
  | [] => none
  | c :: rest =>
    if c = mark then some ([], rest)
    else (cut? mark rest).map fun found => (c :: found.1, found.2)

/-- What follows the first occurrence of `phrase`. -/
def after? (phrase : Text) : Text → Option Text
  | [] => phrase.isPrefixOf? []
  | c :: rest => phrase.isPrefixOf? (c :: rest) <|> after? phrase rest

/-- The number of bytes of the UTF-8 form. -/
def byteLength : Text → Nat
  | [] => 0
  | c :: rest => c.utf8Size + byteLength rest

/-- The characters of the first `count` bytes of the UTF-8 form, if these end with a character. -/
def takeBytes? (count : Nat) : Text → Option Text
  | [] => if count = 0 then some [] else none
  | c :: rest =>
    if count = 0 then some []
    else if c.utf8Size ≤ count then (takeBytes? (count - c.utf8Size) rest).map (c :: ·)
    else none

theorem split_ne_nil (separator : Char) (t : Text) : split separator t ≠ [] := by
  cases t with
  | nil => simp [split]
  | cons c rest =>
    simp only [split]
    split
    · simp
    · split <;> simp

end Text

end PawnScope
