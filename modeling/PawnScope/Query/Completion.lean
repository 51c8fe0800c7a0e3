import PawnScope.Cursor.Word
import PawnScope.Scope.Basic
/-!
Completions of the word behind the cursor: keywords, then constants, variables and callables. There
are none without a word, or where the line has opened more parentheses than it has closed.
-/

namespace PawnScope.Query

/-- The keywords that are offered. -/
def keywords : List Text :=
  ["break", "case", "const", "continue", "default", "do", "else", "enum", "false", "for",
    "forward", "if", "native", "new", "public", "return", "sizeof", "static", "stock", "switch",
    "tagof", "true", "while"].map String.toList

inductive CompletionKind where
  | keyword
  | constant
  | global
  | function
deriving DecidableEq, Repr

namespace CompletionKind

/-- The number that editors know a kind of completion by. -/
def number : CompletionKind → Nat
  | function => 3
  | global => 6
  | keyword => 14
  | constant => 21

end CompletionKind

/-- A completion that is offered. -/
structure Completion where
  label : Text
  kind : CompletionKind
  detail : Option Text
  documentation : Option Text
  /-- The text to insert, where the label does not say it. -/
  insertText : Option Text
deriving DecidableEq, Repr

namespace Completion

def ofKeyword (keyword : Text) : Completion :=
  ⟨keyword, .keyword, none, none, none⟩

def ofConstant (constant : Constant) : Completion :=
  ⟨constant.name, .constant, some constant.label, none, none⟩

/-- A variable that cannot be assigned to is offered as a constant. -/
def ofGlobal (global : Global) : Completion :=
  ⟨global.name, if global.isConst then .constant else .global, some global.label,
    global.documentation, some (Identifier.bare global.name)⟩

def ofCallable (callable : Callable) : Completion :=
  ⟨callable.name, .function, some callable.label, callable.documentation,
    some (Identifier.bare callable.name)⟩

/-- As many bytes of a name as the word has are the word up to the case of ASCII letters. -/
def begins (word name : Text) : Bool :=
  (name.takeBytes? word.byteLength).any (Text.sameLetters word)

/-- A name, with or without its `@`, begins with the word. -/
def fits (word name : Text) : Bool :=
  begins word name || begins word (Identifier.bare name)

/-- The first completion of each label and kind, of those whose label and kind are not in `seen`. -/
def distinct (seen : List (Text × CompletionKind)) : List Completion → List Completion
  | [] => []
  | item :: rest =>
    if seen.contains (item.label, item.kind) then distinct seen rest
    else item :: distinct ((item.label, item.kind) :: seen) rest

/-- All that completes a word in a scope. -/
def all (scope : Scope) (word : Text) : List Completion :=
  ((keywords.filter (fits word)).map ofKeyword)
    ++ ((scope.constants.filter fun constant => fits word constant.name).map ofConstant)
    ++ ((scope.globals.filter fun global => fits word global.name).map ofGlobal)
    ++ ((scope.callables.filter fun callable => fits word callable.name).map ofCallable)

end Completion

/-- The completions at the cursor. -/
def completions [Alphabets] (scope : Scope) (cursor : Cursor) : List Completion :=
  let word := Word.behind cursor.chars cursor.offset
  if word.isEmpty || insideParens cursor.chars cursor.offset then []
  else Completion.distinct [] (Completion.all scope word)

end PawnScope.Query
