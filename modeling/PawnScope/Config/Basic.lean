import PawnScope.Path.Basic
/-!
Configuration: where include files are searched for, and how the compiler is called.
-/

namespace PawnScope

/-- Where the compiler writes its output. -/
inductive OutputPlace where
  /-- In the configured directory. -/
  | directory
  /-- Beside the source file. -/
  | besideSource
deriving DecidableEq, Repr

/-- How the compiler is called. -/
structure CompilerConfig where
  executable : Path
  /-- Options that are passed on as they stand. -/
  options : List Text
  /-- Include directories; they may refer to path variables. -/
  includePaths : List Path
  outputPlace : OutputPlace
  /-- The output directory; it may refer to path variables. -/
  outputPath : Path
deriving DecidableEq, Repr

/-- The configuration of a workspace. -/
structure Config where
  /-- Directories that include files are searched in; they may refer to path variables. -/
  includePaths : List Path
  workspaceRoot : Option Path
  /-- The extensions tried, in order, for an include file written without one. -/
  extensions : List Text
  compiler : CompilerConfig
deriving DecidableEq, Repr

namespace CompilerConfig

def empty : CompilerConfig :=
  ⟨⟨[]⟩, [], [], .directory, ⟨[]⟩⟩

end CompilerConfig

namespace Config

/-- Without any setting, only the extension of include files is known. -/
def default : Config :=
  ⟨[], none, ["inc".toList], .empty⟩

end Config

end PawnScope
