import PawnScope.Symbol.Outline
/-!
A scope: the symbols that one file sees, and finding one by its name. A name is tried as it is and
then in its alternate spelling.
-/

namespace PawnScope

/-- The symbols that a file sees. Callables have one entry for each key. -/
structure Scope where
  callables : List Callable
  globals : List Global
  constants : List Constant
deriving DecidableEq, Repr

/-- A symbol of a scope. -/
inductive Symbol where
  | constant (constant : Constant)
  | callable (callable : Callable)
  | global (global : Global)
deriving DecidableEq, Repr

namespace Symbol

def name : Symbol → Text
  | constant symbol => symbol.name
  | callable symbol => symbol.name
  | global symbol => symbol.name

def label : Symbol → Text
  | constant symbol => symbol.label
  | callable symbol => symbol.label
  | global symbol => symbol.label

def documentation : Symbol → Option Text
  | constant _ => none
  | callable symbol => symbol.documentation
  | global symbol => symbol.documentation

def file : Symbol → SourceId
  | constant symbol => symbol.file
  | callable symbol => symbol.file
  | global symbol => symbol.file

/-- The name at its declaration. -/
def span : Symbol → Span
  | constant symbol => symbol.span
  | callable symbol => symbol.span
  | global symbol => symbol.span

def kind : Symbol → SymbolKind
  | constant _ => .constant
  | callable symbol => symbol.kind
  | global _ => .global

end Symbol

namespace Scope

/-- Find by the name as it is, then by its alternate spelling. -/
def findSpelled? (find : Text → Option α) (name : Text) : Option α :=
  find (Identifier.key name) <|> find (Identifier.key (Identifier.alternate name))

def callable? (scope : Scope) (name : Text) : Option Callable :=
  findSpelled? (fun key => scope.callables.find? (·.key == key)) name

def global? (scope : Scope) (name : Text) : Option Global :=
  findSpelled? (fun key => scope.globals.find? (·.key == key)) name

def constant? (scope : Scope) (name : Text) : Option Constant :=
  findSpelled? (fun key => scope.constants.find? (·.key == key)) name

/-- What a name stands for: a constant first, then a callable, then a variable. -/
def lookup? (scope : Scope) (name : Text) : Option Symbol :=
  match scope.constant? name with
  | some constant => some (.constant constant)
  | none =>
    match scope.callable? name with
    | some callable => some (.callable callable)
    | none => (scope.global? name).map Symbol.global

end Scope

end PawnScope
