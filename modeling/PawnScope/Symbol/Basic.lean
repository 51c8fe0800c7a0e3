import PawnScope.Identifier.Basic
import PawnScope.Path.SourceId
import PawnScope.Text.Position
/-!
The symbols that a source file declares, and its include directives.
-/

namespace PawnScope

/-- What a symbol is. -/
inductive SymbolKind where
  | function
  /-- A `#define` with parameters. -/
  | template
  | global
  | constant
deriving DecidableEq, Repr

namespace SymbolKind

/-- The word for a kind of symbol. -/
def word : SymbolKind → Text
  | function => "function".toList
  | template => "macro".toList
  | global => "variable".toList
  | constant => "constant".toList

end SymbolKind

/-- An include directive. -/
structure Inclusion where
  /-- The file name between the delimiters. -/
  filename : Text
  /-- Written in quotes, so files beside the including one come first. -/
  isLocal : Bool
  /-- A missing file is no error. -/
  isOptional : Bool
  /-- The whole line of the directive. -/
  span : Span
deriving DecidableEq, Repr

/-- What can be called: a function, or a `#define` with parameters. -/
structure Callable where
  name : Text
  /-- The prototype as written. -/
  label : Text
  isTemplate : Bool
  file : SourceId
  /-- The name at its declaration. -/
  span : Span
  parameters : List Text
  documentation : Option Text
  /-- Declared by `forward` or `native`, so without a body. -/
  isPrototype : Bool
  /-- Visible only in its own file. -/
  isStatic : Bool
deriving DecidableEq, Repr

namespace Callable

def key (callable : Callable) : Text :=
  Identifier.key callable.name

def kind (callable : Callable) : SymbolKind :=
  if callable.isTemplate then .template else .function

end Callable

/-- A global variable. -/
structure Global where
  name : Text
  /-- The declaration as written, without the initializer. -/
  label : Text
  isConst : Bool
  file : SourceId
  /-- The name at its declaration. -/
  span : Span
  documentation : Option Text
  /-- Visible only in its own file. -/
  isStatic : Bool
deriving DecidableEq, Repr

namespace Global

def key (global : Global) : Text :=
  Identifier.key global.name

end Global

/-- A `#define` without parameters. -/
structure Constant where
  name : Text
  /-- The text that replaces the name. -/
  value : Text
  label : Text
  file : SourceId
  /-- The name at its declaration. -/
  span : Span
deriving DecidableEq, Repr

namespace Constant

def key (constant : Constant) : Text :=
  Identifier.key constant.name

end Constant

end PawnScope
