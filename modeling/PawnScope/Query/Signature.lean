import PawnScope.Parameter
import PawnScope.Query.Target
/-!
The signature of the call around the cursor, and which of its parameters the cursor is at: the one
that the argument names, or else the one at the argument's place.
-/

namespace PawnScope.Query

variable [Alphabets]

/-- A signature with the parameter that the cursor is at. -/
structure Signature where
  label : Text
  parameters : List Text
  documentation : Option Text
  /-- Counted from zero; it may lie past the last parameter. -/
  active : Nat
deriving DecidableEq, Repr

/-- The place of an argument in a call. -/
structure ArgumentPlace where
  /-- How many arguments stand before it. -/
  index : Nat
  /-- Where it starts. -/
  start : Nat
deriving DecidableEq, Repr

/--
The last argument, reading on from offset `here` in the one at `place`; `depth` groups are open,
`quote` is the literal that is open, and `escaped` says that the next character is escaped.
-/
def lastArgumentFrom (place : ArgumentPlace) (here depth : Nat) (quote : Option Char)
    (escaped : Bool) : Text → ArgumentPlace
  | [] => place
  | c :: rest =>
    match quote with
    | some mark =>
      if escaped then lastArgumentFrom place (here + 1) depth quote false rest
      else if isEscape c then lastArgumentFrom place (here + 1) depth quote true rest
      else lastArgumentFrom place (here + 1) depth (if c = mark then none else quote) false rest
    | none =>
      if isQuote c then lastArgumentFrom place (here + 1) depth (some c) false rest
      else if c = '(' ∨ c = '[' ∨ c = '{' then
        lastArgumentFrom place (here + 1) (depth + 1) none false rest
      else if c = ')' ∨ c = ']' ∨ c = '}' then
        lastArgumentFrom place (here + 1) (depth - 1) none false rest
      else if c = ',' ∧ depth = 0 then
        lastArgumentFrom ⟨place.index + 1, here + 1⟩ (here + 1) depth none false rest
      else lastArgumentFrom place (here + 1) depth none false rest

/-- The last argument of a call; arguments are separated by commas outside groups and literals. -/
def lastArgument (arguments : Text) : ArgumentPlace :=
  lastArgumentFrom ⟨0, 0⟩ 0 0 none false arguments

/-- The name that an argument of the form `.name = value` gives. -/
def argumentName? (argument : Text) : Option Text :=
  match Text.trimStart argument with
  | '.' :: rest =>
    let name := rest.takeWhile Identifier.isPart
    if name.isEmpty then none else some name
  | _ => none

/-- The place of the parameter that declares a name. -/
def parameterNamed? (parameters : List Text) (name : Text) : Option Nat :=
  parameters.findIdx? fun parameter => (Parameter.name? parameter).any (Text.sameLetters · name)

/-- The place of the parameter that the last of `arguments` is for. -/
def activeParameter (parameters : List Text) (arguments : Text) : Nat :=
  let place := lastArgument arguments
  ((argumentName? (arguments.drop place.start)).bind (parameterNamed? parameters)).getD place.index

/-- The signature of the innermost call around the cursor. -/
def signature? (scope : Scope) (cursor : Cursor) : Option Signature :=
  match Call.around? cursor.chars cursor.offset with
  | none => none
  | some call =>
    if call.name.isEmpty then none
    else
      match scope.callable? call.name with
      | none => none
      | some callable =>
        if onDeclaration cursor callable.file callable.span then none
        else
          let arguments := cursor.chars.slice (call.openParen + 1) cursor.offset
          some ⟨callable.label, callable.parameters, callable.documentation,
            activeParameter callable.parameters arguments⟩

end PawnScope.Query
