import PawnScope.Cursor.Literal
/-!
The call that the cursor is in: the innermost parenthesis before it that is open in its statement.
-/

namespace PawnScope

/-- A call whose parenthesis is open at the cursor. -/
structure Call where
  /-- The identifier before the parenthesis, which may be empty. -/
  name : Text
  openParen : Nat
deriving DecidableEq, Repr

namespace Call

/--
The last open parenthesis of the characters before the cursor, which come last to first, each with
whether it belongs to a literal; `depth` groups have been closed behind them.
-/
def lastOpen? (depth : Nat) : List (Char × Bool) → Option Nat
  | [] => none
  | (c, inLiteral) :: before =>
    if inLiteral then lastOpen? depth before
    else if c = ';' then none
    else if c = ')' then lastOpen? (depth + 1) before
    else if c = '(' then
      if depth = 0 then some before.length else lastOpen? (depth - 1) before
    else lastOpen? depth before

/-- The innermost call around the cursor. -/
def around? [Alphabets] (chars : Text) (offset : Nat) : Option Call :=
  let before := chars.take offset
  (lastOpen? 0 (before.zip (Literal.mask before)).reverse).map fun openParen =>
    ⟨Word.lastRun (Text.trimEnd (chars.take openParen)), openParen⟩

end Call

end PawnScope
