import PawnScope.Config.Basic
import PawnScope.Failure
import PawnScope.Path.Variables
/-!
The command that compiles a source file.
-/

namespace PawnScope

/-- A compiler call, ready to run. -/
structure CompilerCommand where
  executable : Path
  arguments : List Text
  /-- The file that the compiler will write. -/
  output : Path
  /-- The directory of the executable. -/
  directory : Path
deriving DecidableEq, Repr

namespace CompilerCommand

def quoted (path : Path) : Text :=
  '"' :: path.text ++ ['"']

/-- The extension of compiled files. -/
def outputExtension : Text :=
  ".amxx".toList

/-- The path of the parent directory, empty where there is none. -/
def directoryOf (path : Path) : Path :=
  path.parent?.getD ⟨[]⟩

/-- The directory that the output is written to. -/
def outputDirectory (config : CompilerConfig) (input : Path) (context : PathContext) :
    Except Failure Path :=
  match config.outputPlace with
  | .besideSource => .ok (directoryOf input)
  | .directory =>
    if config.outputPath.text.isEmpty then .error .noOutputPath
    else .ok (context.expandPath config.outputPath)

/--
The command for `input`: the input, the options, one `-i` for each include directory and one `-o`.
Include and output directories have their path variables replaced.
-/
def build (config : CompilerConfig) (input : Path) (root : Option Path) :
    Except Failure CompilerCommand := do
  if config.executable.text.isEmpty then throw .noExecutable
  let context : PathContext := ⟨root, some input⟩
  match input.stem? with
  | none => throw (.noInputName input)
  | some stem =>
    let directory ← outputDirectory config input context
    let output := directory.join ⟨stem ++ outputExtension⟩
    let includes := config.includePaths.map fun path =>
      '-' :: 'i' :: quoted (context.expandPath path)
    return {
      executable := config.executable
      arguments := [quoted input] ++ config.options ++ includes ++ ['-' :: 'o' :: quoted output]
      output
      directory := directoryOf config.executable }

end CompilerCommand

end PawnScope
