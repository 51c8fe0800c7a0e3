import PawnScope.Config.Basic
import PawnScope.Include.FileStore
import PawnScope.Path.Variables
import PawnScope.Symbol.Basic
/-!
Finding the file that an inclusion names: the directory of the including file first, for a name in
quotes, then the configured directories in order. In each directory a name without an extension is
tried with every configured extension before it is tried as it is.
-/

namespace PawnScope

/-- An inclusion with the file that was found for it. -/
structure FoundInclusion where
  inclusion : Inclusion
  target : SourceId
deriving DecidableEq, Repr

/-- Where include files are searched. -/
structure SearchPath where
  directories : List Path
  workspaceRoot : Option Path
  extensions : List Text
deriving DecidableEq, Repr

namespace SearchPath

def ofConfig (config : Config) : SearchPath :=
  ⟨config.includePaths, config.workspaceRoot, config.extensions⟩

/-- The directories searched for an inclusion of the file at `includer`. -/
def directoriesFor (search : SearchPath) (inclusion : Inclusion) (includer : Path) : List Path :=
  let beside := if inclusion.isLocal then includer.parent?.toList else []
  beside ++ search.directories.map (PathContext.expandPath ⟨search.workspaceRoot, some includer⟩)

/-- The names tried in each directory. -/
def names (search : SearchPath) (filename : Text) : List Text :=
  match (Path.mk filename).extension? with
  | some _ => [filename]
  | none => search.extensions.map (fun extension => filename ++ '.' :: extension) ++ [filename]

/-- The paths at which an inclusion is looked for, in order. -/
def candidates (search : SearchPath) (inclusion : Inclusion) (includer : SourceId) : List Path :=
  (search.directoriesFor inclusion includer.toPath).flatMap fun directory =>
    (search.names inclusion.filename).map fun name => directory.join ⟨name⟩

/-- The first candidate that exists. -/
def resolve (search : SearchPath) (store : FileStore) (inclusion : Inclusion)
    (includer : SourceId) : Except Failure FoundInclusion :=
  match (search.candidates inclusion includer).find? store.contains with
  | some found => .ok ⟨inclusion, .ofPath found⟩
  | none => .error (.unresolved inclusion.filename includer)

/-- The inclusions of a file for which a file is found; the others are passed over. -/
def resolveAll (search : SearchPath) (store : FileStore) (inclusions : List Inclusion)
    (includer : SourceId) : List FoundInclusion :=
  inclusions.filterMap fun inclusion => (search.resolve store inclusion includer).toOption

end SearchPath

end PawnScope
