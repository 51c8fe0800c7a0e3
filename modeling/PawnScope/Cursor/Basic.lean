import PawnScope.Path.SourceId
import PawnScope.Text.LineTable
/-!
A cursor in the text of a document.
-/

namespace PawnScope

/-- The text of a document, with its line table. -/
structure Buffer where
  chars : Text
  lines : LineTable
deriving DecidableEq, Repr

namespace Buffer

def ofText (text : Text) : Buffer :=
  ⟨text, .ofText text⟩

end Buffer

/-- A cursor in a document. -/
structure Cursor where
  file : SourceId
  document : Buffer
  position : Position
deriving DecidableEq, Repr

namespace Cursor

def offset (cursor : Cursor) : Nat :=
  cursor.document.lines.offset cursor.position

def chars (cursor : Cursor) : Text :=
  cursor.document.chars

end Cursor

end PawnScope
