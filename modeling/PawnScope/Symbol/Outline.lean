import PawnScope.Symbol.Basic
/-!
The outline of a source file: its include directives and the symbols it declares, with one entry
for each name. A later function takes the place of an earlier one, except that a body never takes
the place of a prototype; of variables and of constants the first one stays.
-/

namespace PawnScope

/-- What one source file says. -/
structure Outline where
  inclusions : List Inclusion
  callables : List Callable
  globals : List Global
  constants : List Constant
deriving DecidableEq, Repr

namespace Outline

def empty : Outline :=
  ⟨[], [], [], []⟩

/-- Put a callable in the place of the one with its key, or at the end. -/
def place (callable : Callable) : List Callable → List Callable
  | [] => [callable]
  | other :: rest =>
    if other.key = callable.key then callable :: rest else other :: place callable rest

/-- A prototype that stands under the same key. -/
def hasPrototype (callables : List Callable) (key : Text) : Bool :=
  callables.any fun other => other.key == key && other.isPrototype

def putInclusion (outline : Outline) (inclusion : Inclusion) : Outline :=
  { outline with inclusions := outline.inclusions ++ [inclusion] }

def putCallable (outline : Outline) (callable : Callable) : Outline :=
  if hasPrototype outline.callables callable.key && !callable.isPrototype then outline
  else { outline with callables := place callable outline.callables }

def putGlobal (outline : Outline) (global : Global) : Outline :=
  if outline.globals.any (·.key == global.key) then outline
  else { outline with globals := outline.globals ++ [global] }

def putConstant (outline : Outline) (constant : Constant) : Outline :=
  if outline.constants.any (·.key == constant.key) then outline
  else { outline with constants := outline.constants ++ [constant] }

def callable? (outline : Outline) (name : Text) : Option Callable :=
  outline.callables.find? (·.key == Identifier.key name)

def global? (outline : Outline) (name : Text) : Option Global :=
  outline.globals.find? (·.key == Identifier.key name)

def constant? (outline : Outline) (name : Text) : Option Constant :=
  outline.constants.find? (·.key == Identifier.key name)

end Outline

end PawnScope
