import PawnScope.Config.Basic
/-!
The configuration as a tree of settings, the form in which an editor keeps it. A key that is
missing means the default, a key that is unknown means nothing, and a value of the wrong kind, or a
known key that is written twice, makes the whole tree invalid.
-/

namespace PawnScope

/-- A tree of settings. -/
inductive Setting where
  | null
  | flag (value : Bool)
  | number (value : Int)
  | text (value : Text)
  | list (items : List Setting)
  | object (fields : List (Text × Setting))
deriving Repr, Inhabited

namespace Setting

def text? : Setting → Option Text
  | text value => some value
  | _ => none

def path? (setting : Setting) : Option Path :=
  setting.text?.map Path.mk

def listOf? (read : Setting → Option α) : Setting → Option (List α)
  | list items => items.mapM read
  | _ => none

/-- A setting that may be null. -/
def optional? (read : Setting → Option α) : Setting → Option (Option α)
  | null => some none
  | setting => (read setting).map some

/-- The setting under a key, or the default if there is none. -/
def fieldOr (fields : List (Text × Setting)) (key : String) (read : Setting → Option α)
    (default : α) : Option α :=
  match fields.filter fun field => field.1 == key.toList with
  | [] => some default
  | [field] => read field.2
  | _ => none

/-- The fields of a record with these keys. A list gives the values of the first keys in their order. -/
def fields? (keys : List String) : Setting → Option (List (Text × Setting))
  | object fields => some fields
  | list items =>
    if items.length ≤ keys.length then some ((keys.map String.toList).zip items) else none
  | _ => none

def ofText (value : Text) : Setting :=
  text value

def ofPath (path : Path) : Setting :=
  text path.text

def ofList (write : α → Setting) (items : List α) : Setting :=
  list (items.map write)

def ofOption (write : α → Setting) : Option α → Setting
  | some value => write value
  | none => null

end Setting

namespace OutputPlace

def word : OutputPlace → Text
  | directory => "path".toList
  | besideSource => "source".toList

def ofWord? (word : Text) : Option OutputPlace :=
  if word = directory.word then some directory
  else if word = besideSource.word then some besideSource
  else none

/-- A word; an object with the word as its only key, and null under it, reads the same. -/
def ofSetting? : Setting → Option OutputPlace
  | .text word => ofWord? word
  | .object [(word, .null)] => ofWord? word
  | _ => none

def toSetting (place : OutputPlace) : Setting :=
  .text place.word

end OutputPlace

namespace CompilerConfig

def keys : List String :=
  ["executablePath", "options", "includePaths", "outputType", "outputPath"]

def ofFields? (fields : List (Text × Setting)) : Option CompilerConfig := do
  let executable ← Setting.fieldOr fields "executablePath" Setting.path? empty.executable
  let options ← Setting.fieldOr fields "options" (Setting.listOf? Setting.text?) empty.options
  let includePaths ←
    Setting.fieldOr fields "includePaths" (Setting.listOf? Setting.path?) empty.includePaths
  let outputPlace ← Setting.fieldOr fields "outputType" OutputPlace.ofSetting? empty.outputPlace
  let outputPath ← Setting.fieldOr fields "outputPath" Setting.path? empty.outputPath
  return ⟨executable, options, includePaths, outputPlace, outputPath⟩

def ofSetting? (setting : Setting) : Option CompilerConfig :=
  (setting.fields? keys).bind ofFields?

def toSetting (config : CompilerConfig) : Setting :=
  .object
    [("executablePath".toList, .ofPath config.executable),
      ("options".toList, .ofList .ofText config.options),
      ("includePaths".toList, .ofList .ofPath config.includePaths),
      ("outputType".toList, config.outputPlace.toSetting),
      ("outputPath".toList, .ofPath config.outputPath)]

end CompilerConfig

namespace Config

def keys : List String :=
  ["includePaths", "workspaceRoot", "includeExtensions", "compiler"]

def ofFields? (fields : List (Text × Setting)) : Option Config := do
  let includePaths ←
    Setting.fieldOr fields "includePaths" (Setting.listOf? Setting.path?) default.includePaths
  let workspaceRoot ←
    Setting.fieldOr fields "workspaceRoot" (Setting.optional? Setting.path?) default.workspaceRoot
  let extensions ←
    Setting.fieldOr fields "includeExtensions" (Setting.listOf? Setting.text?) default.extensions
  let compiler ← Setting.fieldOr fields "compiler" CompilerConfig.ofSetting? default.compiler
  return ⟨includePaths, workspaceRoot, extensions, compiler⟩

def ofSetting? (setting : Setting) : Option Config :=
  (setting.fields? keys).bind ofFields?

def toSetting (config : Config) : Setting :=
  .object
    [("includePaths".toList, .ofList .ofPath config.includePaths),
      ("workspaceRoot".toList, .ofOption .ofPath config.workspaceRoot),
      ("includeExtensions".toList, .ofList .ofText config.extensions),
      ("compiler".toList, config.compiler.toSetting)]

end Config

end PawnScope
