import PawnScope.Cursor.Word
/-!
Literals around the cursor: which characters belong to one, and the string that the cursor is in.
-/

namespace PawnScope.Literal

/--
For each character whether it belongs to a literal, quotes included; `quote` is open before, and
`escaped` says that the first character is. A literal ends at the end of its line.
-/
def maskFrom (quote : Option Char) (escaped : Bool) : Text → List Bool
  | [] => []
  | c :: rest =>
    if escaped then true :: maskFrom quote false rest
    else if c = '\n' then false :: maskFrom none false rest
    else
      match quote with
      | some mark =>
        if isEscape c && rest.head?.any (· != '\n') then true :: maskFrom quote true rest
        else true :: maskFrom (if c = mark then none else quote) false rest
      | none =>
        if isQuote c then true :: maskFrom (some c) false rest
        else false :: maskFrom none false rest

def mask (chars : Text) : List Bool :=
  maskFrom none false chars

/--
Where the string around `offset` opens and closes, reading on from `here`; `opened` is the quote
that is open there. The cursor is in a string after its opening quote and up to its closing one.
-/
def stringFrom (offset here : Nat) (opened : Option Nat) : Text → Option (Nat × Nat)
  | [] => none
  | c :: rest =>
    if c = '\n' then none
    else
      match opened with
      | none =>
        if offset ≤ here then none
        else stringFrom offset (here + 1) (if c = '"' then some here else none) rest
      | some quote =>
        if isEscape c then
          match rest with
          | [] => none
          | _ :: rest => stringFrom offset (here + 2) opened rest
        else if c = '"' then
          if offset ≤ here then some (quote, here) else stringFrom offset (here + 1) none rest
        else stringFrom offset (here + 1) opened rest

/-- The content of the string around the cursor, and the offset of its opening quote. -/
def stringAround? (chars : Text) (offset : Nat) : Option (Text × Nat) :=
  let offset := min offset chars.length
  let lineStart := offset - (lineBefore chars offset).length
  (stringFrom offset lineStart none (chars.drop lineStart)).map fun found =>
    (chars.slice (found.1 + 1) found.2, found.1)

end PawnScope.Literal
