import PawnScope.Path.Basic
/-!
Identities of source files. The id of a path folds its `.` and `..` segments away, so that all
spellings of a path have one id; an id that is given as it stands is compared as it stands.
-/

namespace PawnScope

/-- The identity of a source file: a URI or a path. -/
structure SourceId where
  text : Text
deriving DecidableEq, Repr

namespace SourceId

/-- The scheme that an id may carry before its path. -/
def scheme : Text :=
  "file://".toList

/--
One more segment in the folded segments: `..` takes the last one away, also if that is a `..`, and
stays where there is nothing to take away.
-/
def foldSegment (folded : List Text) (segment : Text) : List Text :=
  if segment = Path.up then
    if folded.isEmpty then [Path.up] else folded.dropLast
  else folded ++ [segment]

/-- The id of the file at a path. -/
def ofPath (path : Path) : SourceId :=
  let lead : Path.Lead := if path.isRooted then .root else .nothing
  ⟨(Path.ofParts lead (path.segments.foldl foldSegment [])).text⟩

/-- The path that an id stands for; one scheme before it is dropped. -/
def toPath (id : SourceId) : Path :=
  ⟨(scheme.isPrefixOf? id.text).getD id.text⟩

/-- The id in the form that paths have. -/
def normal (id : SourceId) : SourceId :=
  ofPath id.toPath

end SourceId

end PawnScope
