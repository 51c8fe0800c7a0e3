import PawnScope.Text.Basic
import PawnScope.Text.Position
/-!
Conversion between offsets and positions. A line feed ends a line and belongs to it; a position
past the end of a line means the end of that line, before its line feed.
-/

namespace PawnScope

/-- Where the lines of a text begin, and how long the text is. -/
structure LineTable where
  starts : List Nat
  length : Nat
deriving DecidableEq, Repr

namespace LineTable

/-- The offsets after each line feed of a text that begins at offset `base`. -/
def startsAfter (base : Nat) : Text → List Nat
  | [] => []
  | c :: rest =>
    if c = '\n' then (base + 1) :: startsAfter (base + 1) rest
    else startsAfter (base + 1) rest

def ofText (t : Text) : LineTable :=
  ⟨0 :: startsAfter 0 t, t.length⟩

def lineCount (table : LineTable) : Nat :=
  table.starts.length

def isEmpty (table : LineTable) : Bool :=
  table.length == 0

def lineStart? (table : LineTable) (line : Nat) : Option Nat :=
  table.starts[line]?

/-- The offset at which a line ends: before its line feed, or at the end of the text. -/
def lineEnd (table : LineTable) (line : Nat) : Nat :=
  match table.starts[line + 1]? with
  | some next => next - 1
  | none => table.length

/-- The offset of a position; a line past the last means the end of the text. -/
def offset (table : LineTable) (position : Position) : Nat :=
  match table.starts[position.line]? with
  | none => table.length
  | some start => start + min position.column (table.lineEnd position.line - start)

/-- The last line that begins at or before `offset`. -/
def lineOf (table : LineTable) (offset : Nat) : Nat :=
  table.starts.countP (· ≤ offset) - 1

/-- The position of an offset; an offset past the end means the end. -/
def position (table : LineTable) (offset : Nat) : Position :=
  let offset := min offset table.length
  let line := table.lineOf offset
  ⟨line, offset - table.starts.getD line 0⟩

/-- The span between two offsets. -/
def span (table : LineTable) (start stop : Nat) : Span :=
  ⟨table.position start, table.position stop⟩

end LineTable

end PawnScope
