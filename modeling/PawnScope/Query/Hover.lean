import PawnScope.Query.Target
/-!
The text shown when the mouse rests on a symbol.
-/

namespace PawnScope.Query

/-- What is shown for a symbol, and for which text. -/
structure Hover where
  contents : Text
  name : Text
  file : SourceId
  span : Span
deriving DecidableEq, Repr

/-- The label in a code fence, then the documentation, unless it is blank, below a rule. -/
def hoverText (symbol : Symbol) : Text :=
  let fence := "```pawn\n".toList ++ symbol.label ++ "\n```".toList
  match symbol.documentation with
  | some doc => if doc.allBlank then fence else fence ++ "\n---\n\n".toList ++ doc
  | none => fence

/-- What is shown for what the cursor refers to. -/
def hover? [Alphabets] (scope : Scope) (cursor : Cursor) : Option Hover :=
  (reference? scope cursor).map fun reference => {
    contents := hoverText reference.symbol
    name := reference.symbol.name
    file := reference.symbol.file
    span := cursor.document.lines.span reference.start reference.stop }

end PawnScope.Query
