import PawnScope.Declaration.Prototype
/-!
Declarations of global variables as they are written on one line.
-/

namespace PawnScope

/-- The blanks of a declaration that may be left out, or be more than one. -/
structure Spacing where
  /-- Behind a comma. -/
  comma : Text
  /-- Before the `=` of an initializer. -/
  assign : Text
deriving DecidableEq, Repr

/-- One of the variables that are declared together. -/
structure Declarator where
  isConst : Bool
  tag : Option Text
  name : Text
  /-- What stands between the brackets of each dimension. -/
  dimensions : List Text
  /-- What follows the `=`. -/
  initializer : Option Text
deriving DecidableEq, Repr

namespace Declarator

def printDimension (size : Text) : Text :=
  '[' :: (size ++ [']'])

variable (declarator : Declarator)

/-- The words before the tag. -/
def words : List Text :=
  if declarator.isConst then ["const".toList] else []

/-- What is printed up to the end of the name. -/
def front : Text :=
  printWords [] declarator.words ++ (printTag declarator.tag ++ declarator.name)

/-- What is printed behind the name. -/
def tail (spacing : Spacing) : Text :=
  declarator.dimensions.flatMap printDimension ++
    match declarator.initializer with
    | some value => spacing.assign ++ '=' :: value
    | none => []

end Declarator

/-- Declarators with a comma between neighbours. -/
def printDeclarators (spacing : Spacing) : List Declarator → Text
  | [] => []
  | [declarator] => declarator.front ++ declarator.tail spacing
  | declarator :: rest =>
    declarator.front ++
      (declarator.tail spacing ++ ',' :: (spacing.comma ++ printDeclarators spacing rest))

/-- A declaration of global variables. -/
structure Globals where
  specifiers : List Text
  declarators : List Declarator
deriving DecidableEq, Repr

namespace Globals

def print (globals : Globals) (spacing : Spacing) : Text :=
  printWords [] globals.specifiers ++ (printDeclarators spacing globals.declarators ++ [';'])

end Globals

end PawnScope
