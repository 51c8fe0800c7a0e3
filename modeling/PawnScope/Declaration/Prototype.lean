import PawnScope.Text.Basic
/-!
Prototypes as they are written: on one line, or laid out over several lines.
-/

namespace PawnScope

/-- A line break instead of a blank, if the first of `breaks` says so. -/
def separator (breaks : List Bool) : Char :=
  if breaks.headD false then '\n' else ' '

/-- Words with a blank or a line break behind each. -/
def printWords (breaks : List Bool) : List Text → Text
  | [] => []
  | word :: rest => word ++ separator breaks :: printWords breaks.tail rest

/-- Parameters with a comma between neighbours, and a blank or a line break behind the comma. -/
def printList (breaks : List Bool) : List Text → Text
  | [] => []
  | [parameter] => parameter
  | parameter :: rest => parameter ++ ',' :: separator breaks :: printList breaks.tail rest

/-- A tag with its colon. -/
def printTag : Option Text → Text
  | some tag => tag ++ [':']
  | none => []

/-- Which blanks give way to a line break. Those of which nothing is said stay. -/
structure Layout where
  /-- The blanks behind the specifiers. -/
  words : List Bool
  /-- The blanks in the parameter list. -/
  list : List Bool
deriving DecidableEq, Repr

/-- The declaration of a function, without a body. -/
structure Prototype where
  specifiers : List Text
  tag : Option Text
  name : Text
  parameters : List Text
  /-- A semicolon follows the list. -/
  isEnded : Bool
deriving DecidableEq, Repr

namespace Prototype

variable (prototype : Prototype)

/-- What follows the parameters. -/
def closing : Text :=
  if prototype.isEnded then [')', ';'] else [')']

def print (layout : Layout) : Text :=
  printWords layout.words prototype.specifiers ++
    (printTag prototype.tag ++ (prototype.name ++ '(' ::
      (printList layout.list prototype.parameters ++ prototype.closing)))

/-- Where the name starts on one line. -/
def column : Nat :=
  (printWords [] prototype.specifiers).length + (printTag prototype.tag).length

/-- The prototype on one line, up to its closing parenthesis. -/
def label : Text :=
  printWords [] prototype.specifiers ++
    (printTag prototype.tag ++ (prototype.name ++ '(' :: (printList [] prototype.parameters ++ [')'])))

/-- The words behind the last line break, and before them those of `row`. -/
def lastRow (row : List Text) (breaks : List Bool) : List Text → List Text
  | [] => row
  | word :: rest => lastRow (if breaks.headD false then [] else row ++ [word]) breaks.tail rest

/-- What of the prototype stands on the line of its name or behind it. -/
def fromName (layout : Layout) : Prototype :=
  { prototype with specifiers := lastRow [] layout.words prototype.specifiers }

/-- The number of lines above that of the name. -/
def linesAbove (layout : Layout) : Nat :=
  (layout.words.take prototype.specifiers.length).count true

end Prototype

end PawnScope
