import PawnScope.Identifier.Basic
/-!
Parameter lists: cutting one at its top-level commas, and the name that a parameter declares.
-/

namespace PawnScope.Parameter

/-- Where a reader of a parameter list stands: how many groups are open, and in which literal. -/
structure Nesting where
  depth : Nat
  quote : Option Char
  escaped : Bool
deriving DecidableEq, Repr

namespace Nesting

/-- Outside all groups and literals. -/
def top : Nesting :=
  ⟨0, none, false⟩

/-- A closing bracket that closes nothing leaves the depth at zero. -/
def step (nesting : Nesting) (c : Char) : Nesting :=
  match nesting.quote with
  | some quote =>
    if nesting.escaped then { nesting with escaped := false }
    else if isEscape c then { nesting with escaped := true }
    else if c = quote then { nesting with quote := none }
    else nesting
  | none =>
    if isQuote c then { nesting with quote := some c }
    else if c = '(' ∨ c = '[' ∨ c = '{' then { nesting with depth := nesting.depth + 1 }
    else if c = ')' ∨ c = ']' ∨ c = '}' then { nesting with depth := nesting.depth - 1 }
    else nesting

/-- A comma here separates two parameters. -/
def separates (nesting : Nesting) (c : Char) : Bool :=
  c == ',' && nesting.quote.isNone && nesting.depth == 0

end Nesting

/-- The pieces between top-level commas, as they are written. -/
def pieces (nesting : Nesting) : Text → List Text
  | [] => [[]]
  | c :: rest =>
    if nesting.separates c then [] :: pieces nesting rest
    else
      match pieces (nesting.step c) rest with
      | [] => [[c]]
      | piece :: more => (c :: piece) :: more

/-- The parameters of a list: its pieces, trimmed, without the blank ones. -/
def split (list : Text) : List Text :=
  ((pieces .top list).map Text.trim).filter (!·.isEmpty)

/--
The name that a parameter declares: the identifier before its dimensions and its default value.
`const Float:origin[3] = {0.0, 0.0, 0.0}` declares `origin`; `any:...` declares no name.
-/
def name? [Alphabets] (parameter : Text) : Option Text :=
  let declared := (parameter.takeWhile (· != '=')).takeWhile (· != '[')
  let name := ((Text.trimEnd declared).reverse.takeWhile Identifier.isPart).reverse
  if name.isEmpty then none else some name

end PawnScope.Parameter
