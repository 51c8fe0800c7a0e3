import PawnScope.Path.Basic
/-!
References of the form `${name}` in configured paths. A reference whose variable is unknown or has
no value stays as it is written, and so does one that is never closed.
-/

namespace PawnScope

/-- The variables that a configured path may refer to. -/
inductive PathVariable where
  | root
  | rootName
  | file
  | relativeFile
  | fileName
  | fileStem
  | fileDirectory
  | fileExtension
deriving DecidableEq, Repr

/-- What the variables speak of: the workspace and the file at hand. -/
structure PathContext where
  root : Option Path
  file : Option Path
deriving DecidableEq, Repr

namespace PathVariable

/-- The names of the variables. -/
def names : List (Text × PathVariable) :=
  [("workspaceRoot".toList, root),
    ("workspaceRootFolderName".toList, rootName),
    ("file".toList, file),
    ("relativeFile".toList, relativeFile),
    ("fileBasename".toList, fileName),
    ("fileBasenameNoExtension".toList, fileStem),
    ("fileDirname".toList, fileDirectory),
    ("fileExtname".toList, fileExtension)]

def ofName? (name : Text) : Option PathVariable :=
  names.lookup name

/-- The value of a variable; the extension of a file comes with its dot. -/
def value? (context : PathContext) : PathVariable → Option Text
  | root => context.root.map Path.text
  | rootName => context.root.bind Path.fileName?
  | file => context.file.map Path.text
  | relativeFile =>
    context.file.bind fun file => context.root.bind fun root => (file.below? root).map Path.text
  | fileName => context.file.bind Path.fileName?
  | fileStem => context.file.bind Path.stem?
  | fileDirectory => (context.file.bind Path.parent?).map Path.text
  | fileExtension =>
    context.file.map fun file =>
      match file.extension? with
      | some extension => '.' :: extension
      | none => []

end PathVariable

namespace PathContext

/-- What a reference with `name` between its braces is replaced by. -/
def reference (context : PathContext) (name : Text) : Text :=
  match (PathVariable.ofName? name.trim).bind (·.value? context) with
  | some value => value
  | none => '$' :: '{' :: name ++ ['}']

/-- Expand a text; `name` is what stands so far of an open reference. -/
def expandFrom (context : PathContext) : Option Text → Text → Text
  | none, [] => []
  | some name, [] => '$' :: '{' :: name
  | some name, c :: rest =>
    if c = '}' then context.reference name ++ expandFrom context none rest
    else expandFrom context (some (name ++ [c])) rest
  | none, '$' :: '{' :: rest => expandFrom context (some []) rest
  | none, c :: rest => c :: expandFrom context none rest

/-- Replace all references; a value is not looked at again. -/
def expand (context : PathContext) (text : Text) : Text :=
  expandFrom context none text

/-- A path with its references replaced. -/
def expandPath (context : PathContext) (path : Path) : Path :=
  ⟨context.expand path.text⟩

end PathContext

end PawnScope
