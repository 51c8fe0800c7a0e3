import PawnScope.Source.Region
/-!
Doc comments: their text without decoration, and which of them end on a line.
-/

namespace PawnScope

/-- A doc comment that ended on a line. -/
structure Doc where
  text : Text
  /-- It ended after code of its line, so it speaks of what follows that code. -/
  trailsCode : Bool
deriving DecidableEq, Repr

namespace Doc

/-- A line of a doc comment without its margin: blanks, one `*`, and one space after it. -/
def cleanLine (line : Text) : Text :=
  let line := line.trim
  let line := ((['*'] : Text).isPrefixOf? line).getD line
  let line := (([' '] : Text).isPrefixOf? line).getD line
  Text.trimEnd line

/-- The text of a doc comment whose body is `body`. -/
def clean (body : Text) : Text :=
  Text.trim (Text.join ['\n'] ((Text.split '\n' body).map cleanLine))

/-- What reading a line for doc comments has come to. -/
structure Reading where
  /-- The body of the doc comment read last, as far as it has been read. -/
  body : Text
  /-- Code other than blanks stands before. -/
  sawCode : Bool
  /-- The last doc comment that has ended. -/
  ended : Option Doc
deriving DecidableEq, Repr

namespace Reading

def step (reading : Reading) (c : Char) : Region → Reading
  | .docBody => { reading with body := reading.body ++ [c] }
  | .docEnd => { reading with body := [], ended := some ⟨clean reading.body, reading.sawCode⟩ }
  | .code | .literal => { reading with sawCode := reading.sawCode || !isBlank c }
  | .comment => reading

end Reading

/-- Read a line for doc comments; `body` is what an open doc comment holds so far. -/
def read (body : Text) (line : Text) (regions : List Region) : Reading :=
  (line.zip regions).foldl (fun reading pair => reading.step pair.1 pair.2) ⟨body, false, none⟩

end Doc

end PawnScope
