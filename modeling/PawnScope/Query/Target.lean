import PawnScope.Cursor.Call
import PawnScope.Scope.Basic
/-!
What the cursor refers to, and where that is declared. In a string that is passed to a function
which registers callbacks, the string names a callable; anywhere else the identifier at the cursor
counts. On the line of its own declaration a symbol refers to nothing.
-/

namespace PawnScope

namespace Query

variable [Alphabets]

/-- The functions whose string arguments name a callback. -/
def callbackRegistrars : List Text :=
  ["set_task", "set_task_ex", "register_clcmd", "register_concmd", "register_srvcmd",
    "register_event", "register_event_ex", "register_logevent", "register_forward",
    "register_message", "register_menucmd", "register_think", "register_touch",
    "register_impulse", "register_native", "RegisterHam", "RegisterHamPlayer",
    "RegisterHookChain", "menu_create", "menu_makecallback", "CreateMultiForward",
    "CreateOneForward", "callfunc_begin"].map String.toList

/-- The callback that the string around the cursor names, and where its name starts. -/
def callbackAt? (chars : Text) (offset : Nat) : Option (Text × Nat) :=
  match Literal.stringAround? chars offset with
  | none => none
  | some (content, openQuote) =>
    match Call.around? chars openQuote with
    | none => none
    | some call =>
      if callbackRegistrars.contains call.name && !content.allBlank then
        some (content.trim, openQuote + 1 + (content.takeWhile isBlank).length)
      else none

/-- A symbol that the cursor refers to, with the offsets of the text that does. -/
structure Reference where
  symbol : Symbol
  start : Nat
  stop : Nat
deriving DecidableEq, Repr

/-- What the text at the cursor refers to, wherever it stands. -/
def referenceAt? (scope : Scope) (chars : Text) (offset : Nat) : Option Reference :=
  match callbackAt? chars offset with
  | some (name, start) =>
    (scope.callable? name).map fun callable => ⟨.callable callable, start, start + name.length⟩
  | none =>
    match Word.around? chars offset with
    | none => none
    | some word => (scope.lookup? word.name).map fun symbol => ⟨symbol, word.start, word.stop⟩

/-- The cursor is on the line that declares the name at `span` of `file`. -/
def onDeclaration (cursor : Cursor) (file : SourceId) (span : Span) : Bool :=
  file == cursor.file && span.start.line == cursor.position.line

/-- What the cursor refers to. -/
def reference? (scope : Scope) (cursor : Cursor) : Option Reference :=
  (referenceAt? scope cursor.chars cursor.offset).filter fun reference =>
    !onDeclaration cursor reference.symbol.file reference.symbol.span

/-- Where a symbol is declared. -/
structure Target where
  file : SourceId
  span : Span
  kind : SymbolKind
  name : Text
deriving DecidableEq, Repr

/-- The declaration of what the cursor refers to. -/
def target? (scope : Scope) (cursor : Cursor) : Option Target :=
  (reference? scope cursor).map fun reference =>
    let symbol := reference.symbol
    ⟨symbol.file, symbol.span, symbol.kind, symbol.name⟩

end Query

end PawnScope
