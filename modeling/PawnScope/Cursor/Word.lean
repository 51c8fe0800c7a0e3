import PawnScope.Cursor.Basic
import PawnScope.Identifier.Basic
/-!
The words and parentheses around an offset of a text.
-/

namespace PawnScope

/-- An identifier around the cursor. -/
structure Word where
  name : Text
  start : Nat
  stop : Nat
  /-- A parenthesis follows, after blanks perhaps. -/
  isCall : Bool
deriving DecidableEq, Repr

namespace Word

variable [Alphabets]

/-- The identifier characters that a text ends with. -/
def lastRun (text : Text) : Text :=
  (text.reverse.takeWhile Identifier.isPart).reverse

/-- Where the identifier begins and ends whose character stands at `offset`. -/
def bounds? (chars : Text) (offset : Nat) : Option (Nat × Nat) :=
  match chars[offset]? with
  | none => none
  | some c =>
    if Identifier.isPart c then
      some (offset - (lastRun (chars.take offset)).length,
        offset + ((chars.drop offset).takeWhile Identifier.isPart).length)
    else none

/-- The identifier whose character stands at `offset`. -/
def around? (chars : Text) (offset : Nat) : Option Word :=
  (bounds? chars offset).map fun bounds => {
    name := chars.slice bounds.1 bounds.2
    start := bounds.1
    stop := bounds.2
    isCall := (Text.trimStart (chars.drop bounds.2)).head? == some '(' }

/-- The identifier characters directly before the cursor. -/
def behind (chars : Text) (offset : Nat) : Text :=
  lastRun (chars.take offset)

end Word

/-- The part of the cursor's line before the cursor. -/
def lineBefore (chars : Text) (offset : Nat) : Text :=
  ((chars.take offset).reverse.takeWhile (· != '\n')).reverse

/-- The cursor's line has more opening than closing parentheses before the cursor. -/
def insideParens (chars : Text) (offset : Nat) : Bool :=
  let line := lineBefore chars offset
  line.count ')' < line.count '('

end PawnScope
