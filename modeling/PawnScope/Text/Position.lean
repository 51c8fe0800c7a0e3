/-!
Zero-based places in a text, and spans between two of them.
-/

namespace PawnScope

/-- A place in a text: its line, and the number of characters before it on that line. -/
structure Position where
  line : Nat
  column : Nat
deriving DecidableEq, Repr

/-- The stretch from one position to another, both ends included. -/
structure Span where
  start : Position
  stop : Position
deriving DecidableEq, Repr

namespace Span

/-- The span of `length` characters of one line. -/
def onLine (line column length : Nat) : Span :=
  ⟨⟨line, column⟩, ⟨line, column + length⟩⟩

/-- A column counts only on the first and on the last line of the span. -/
def contains (span : Span) (position : Position) : Bool :=
  !(position.line < span.start.line || span.stop.line < position.line)
    && !(position.line == span.start.line && position.column < span.start.column)
    && !(position.line == span.stop.line && span.stop.column < position.column)

end Span

end PawnScope
