import PawnScope.Text.Basic
/-!
Slash-separated file paths. A path prints as it is written, but what it means is its sequence of
components: empty segments and `.` segments say nothing, except a `.` that a relative path begins
with.
-/

namespace PawnScope

/-- A path as written. -/
structure Path where
  text : Text
deriving DecidableEq, Repr

namespace Path

inductive Component where
  | root
  /-- The `.` that a relative path begins with. -/
  | current
  | parent
  | name (text : Text)
deriving DecidableEq, Repr

/-- The segment that leads to the parent directory. -/
def up : Text :=
  ['.', '.']

/-- A segment that says nothing: an empty one, or `.`. -/
def isInert (segment : Text) : Bool :=
  segment == [] || segment == ['.']

/-- The component that a segment stands for. -/
def ofSegment (segment : Text) : Component :=
  if segment = up then .parent else .name segment

/-- How a path begins: at the root, in the current directory by name, or neither. -/
inductive Lead where
  | root
  | current
  | nothing
deriving DecidableEq, Repr

namespace Lead

def text : Lead → Text
  | root => ['/']
  | current => ['.']
  | nothing => []

def components : Lead → List Component
  | root => [.root]
  | current => [.current]
  | nothing => []

end Lead

/-- The lead of a path, and the segments after it. -/
def parts (path : Path) : Lead × List Text :=
  match path.text with
  | '/' :: rest => (.root, Text.split '/' rest)
  | ['.'] => (.current, [])
  | '.' :: '/' :: rest => (.current, [] :: Text.split '/' rest)
  | text => (.nothing, Text.split '/' text)

/-- The segments that say something. -/
def segments (path : Path) : List Text :=
  path.parts.2.filter (!isInert ·)

/-- What a path means. -/
def components (path : Path) : List Component :=
  path.parts.1.components ++ path.segments.map ofSegment

/-- Two spellings of the same path. -/
def sameAs (a b : Path) : Bool :=
  a.components == b.components

def isRooted (path : Path) : Bool :=
  path.parts.1 == .root

/-- A path from a lead and the segments after it. -/
def ofParts (lead : Lead) (segments : List Text) : Path :=
  ⟨lead.text ++ Text.join ['/'] segments⟩

/-- Segments without the inert ones at their end. -/
def dropInertEnd (segments : List Text) : List Text :=
  (segments.reverse.dropWhile isInert).reverse

/--
The path without its last component. The root and the empty path have no parent; the spelling of
what stays is kept.
-/
def parent? (path : Path) : Option Path :=
  match dropInertEnd path.parts.2 with
  | [] => if path.parts.1 = .current then some ⟨[]⟩ else none
  | kept => some (ofParts path.parts.1 (dropInertEnd kept.dropLast))

/-- The last component, if it is a name. -/
def fileName? (path : Path) : Option Text :=
  match path.segments.getLast? with
  | some segment => if segment = up then none else some segment
  | none => none

/--
A file name cut at its last dot. A name without a dot, or with none but the one it begins with, has
no extension.
-/
def cutName (name : Text) : Text × Option Text :=
  match Text.cut? '.' name.reverse with
  | none => (name, none)
  | some (_, []) => (name, none)
  | some (extension, stem) => (stem.reverse, some extension.reverse)

/-- The file name without its extension. -/
def stem? (path : Path) : Option Text :=
  path.fileName?.map fun name => (cutName name).1

def extension? (path : Path) : Option Text :=
  path.fileName?.bind fun name => (cutName name).2

/-- A path read from the directory `base`; a rooted one stays what it is. -/
def join (base path : Path) : Path :=
  if path.isRooted then path
  else if base.text = [] ∨ base.text.getLast? = some '/' then ⟨base.text ++ path.text⟩
  else ⟨base.text ++ '/' :: path.text⟩

/--
What is left of a path below the directory `base`, in its own spelling; none if the path is not
below `base`.
-/
def below? (path base : Path) : Option Path :=
  if base.components.isPrefixOf path.components then
    if base.components = [] then some (ofParts path.parts.1 (dropInertEnd path.parts.2))
    else some (ofParts .nothing (dropInertEnd (dropNames base.segments.length path.parts.2)))
  else none
where
  /-- Segments after the first `count` that say something, without the inert ones before. -/
  dropNames : Nat → List Text → List Text
    | _, [] => []
    | 0, segment :: rest => if isInert segment then dropNames 0 rest else segment :: rest
    | count + 1, segment :: rest =>
      if isInert segment then dropNames (count + 1) rest else dropNames count rest

end Path

end PawnScope
