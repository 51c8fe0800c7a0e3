import PawnScope.Text.Basic
/-!
What the characters of a source line belong to: code, a literal, a comment, or the body of a doc
comment. One character is read at a time; a literal ends with its line, a block comment does not.
-/

namespace PawnScope

/-- What a character of a source line belongs to. -/
inductive Region where
  | code
  | literal
  | comment
  | docBody
  /-- The last character of a doc comment. -/
  | docEnd
deriving DecidableEq, Repr

namespace Region

/-- Comments are blanked out; code and literals stay. -/
def isKept : Region → Bool
  | .code | .literal => true
  | .comment | .docBody | .docEnd => false

end Region

/-- What the reader of a source line is inside of. -/
inductive Mode where
  | code
  | literal (quote : Char)
  /-- The next character is escaped. -/
  | escaped (quote : Char)
  | lineComment
  /-- The opener of a block comment goes on for `left` more characters. -/
  | opening (left : Nat) (isDoc : Bool)
  | block (isDoc : Bool)
  /-- The next character ends the block comment. -/
  | closing (isDoc : Bool)
deriving DecidableEq, Repr

namespace Mode

/-- After `/*`, one more `*` that does not end the comment makes it a doc comment. -/
def opensDoc : Text → Bool
  | '*' :: rest => rest.head? != some '/'
  | _ => false

/-- What `c` belongs to, and what the reader is inside of after it; `rest` follows `c`. -/
def step (mode : Mode) (c : Char) (rest : Text) : Region × Mode :=
  match mode with
  | code =>
    if isQuote c then (.literal, literal c)
    else if c = '/' ∧ rest.head? = some '/' then (.comment, lineComment)
    else if c = '/' ∧ rest.head? = some '*' then
      if opensDoc rest.tail then (.comment, opening 2 true) else (.comment, opening 1 false)
    else (.code, code)
  | literal quote =>
    if isEscape c ∧ rest ≠ [] then (.literal, escaped quote)
    else if c = quote then (.literal, code)
    else (.literal, literal quote)
  | escaped quote => (.literal, literal quote)
  | lineComment => (.comment, lineComment)
  | opening left isDoc =>
    (.comment, if left ≤ 1 then block isDoc else opening (left - 1) isDoc)
  | block isDoc =>
    if c = '*' ∧ rest.head? = some '/' then (.comment, closing isDoc)
    else (if isDoc then .docBody else .comment, block isDoc)
  | closing isDoc => (if isDoc then .docEnd else .comment, code)

/-- The regions of the characters of a line that is entered in `mode`. -/
def regions (mode : Mode) : Text → List Region
  | [] => []
  | c :: rest => (mode.step c rest).1 :: regions (mode.step c rest).2 rest

/-- What the reader is inside of at the end of a line that is entered in `mode`. -/
def after (mode : Mode) : Text → Mode
  | [] => mode
  | c :: rest => after (mode.step c rest).2 rest

theorem length_regions (mode : Mode) (line : Text) :
    (mode.regions line).length = line.length := by
  induction line generalizing mode with
  | nil => rfl
  | cons c rest ih => simp [regions, ih]

end Mode

/-- The line with its comments blanked out, column by column. -/
def blankComments (line : Text) (regions : List Region) : Text :=
  List.zipWith (fun c region => if region.isKept then c else ' ') line regions

end PawnScope
