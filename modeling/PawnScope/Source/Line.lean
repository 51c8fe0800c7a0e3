import PawnScope.Source.Doc
import PawnScope.Token.Lexer
/-!
A source text line by line: the code of each line with comments blanked out, the doc comment that
ended on it, and how many braces were open where it began.
-/

namespace PawnScope

/-- The block comment that is open where a line begins, with the body of a doc comment so far. -/
inductive OpenComment where
  | none
  | plain
  | doc (body : Text)
deriving DecidableEq, Repr

namespace OpenComment

def mode : OpenComment → Mode
  | none => .code
  | plain => .block false
  | doc _ => .block true

def body : OpenComment → Text
  | doc body => body
  | _ => []

/-- What is open at the next line; a doc comment keeps the line break in its body. -/
def ofMode (mode : Mode) (body : Text) : OpenComment :=
  match mode with
  | .block true | .opening _ true => doc (body ++ ['\n'])
  | .block false | .opening _ false => plain
  | _ => none

end OpenComment

/-- One line of a source text. -/
structure Line where
  number : Nat
  /-- The line as written, without its line end. -/
  raw : Text
  /-- The line with its comments blanked out, column by column. -/
  code : Text
  /-- The last doc comment that ended on the line. -/
  doc : Option Doc
  /-- The number of braces open where the line begins. -/
  depth : Nat
deriving DecidableEq, Repr

namespace Line

/-- The line end is a line feed with or without a carriage return before it. -/
def withoutReturn (line : Text) : Text :=
  if line.getLast? = some '\r' then line.dropLast else line

/-- The number of open braces after the tokens; a brace that closes nothing does not count. -/
def braceDepth (depth : Nat) (tokens : List Token) : Nat :=
  tokens.foldl
    (fun depth token =>
      match token.kind with
      | .openBrace => depth + 1
      | .closeBrace => depth - 1
      | _ => depth)
    depth

/-- A written line as a source line, and the comment that is open after it. -/
def ofRaw (number depth : Nat) (comment : OpenComment) (raw : Text) : Line × OpenComment :=
  let regions := comment.mode.regions raw
  let reading := Doc.read comment.body raw regions
  (⟨number, raw, blankComments raw regions, reading.ended, depth⟩,
    .ofMode (comment.mode.after raw) reading.body)

/-- Read written lines one after the other. -/
def readAll [Alphabets] (number depth : Nat) (comment : OpenComment) : List Text → List Line
  | [] => []
  | raw :: rest =>
    let read := ofRaw number depth comment (withoutReturn raw)
    read.1 :: readAll (number + 1) (braceDepth depth (Token.ofLine read.1.code)) read.2 rest

/-- The lines of a text. A text that ends in a line feed has an empty last line. -/
def ofText [Alphabets] (text : Text) : List Line :=
  readAll 0 0 .none (Text.split '\n' text)

/-- The doc comment that speaks of the code of this line or of the lines after it. -/
def leadingDoc (line : Line) : Option Text :=
  (line.doc.filter (!·.trailsCode)).map Doc.text

/-- The doc comment that speaks of the lines after this one only. -/
def trailingDoc (line : Line) : Option Text :=
  (line.doc.filter (·.trailsCode)).map Doc.text

end Line

end PawnScope
