import PawnScope.Path.SourceId
/-!
What can go wrong, and the message that says so.
-/

namespace PawnScope

inductive Failure where
  /-- No file was found for an inclusion. -/
  | unresolved (filename : Text) (includer : SourceId)
  /-- A file does not exist where it is read. -/
  | unreadable (path : Path)
  /-- A document is not open that has to be. -/
  | notOpen (file : SourceId)
  /-- The compiler to call is not configured. -/
  | noExecutable
  /-- The compiler's input is no file. -/
  | noInputName (input : Path)
  /-- The output directory is not configured. -/
  | noOutputPath
deriving DecidableEq, Repr

namespace Failure

/-- What all messages about the compiler's configuration begin with. -/
def invalidCompiler : Text :=
  "invalid compiler settings: ".toList

def message : Failure → Text
  | unresolved filename includer =>
    "cannot resolve include '".toList ++ filename ++ "' from ".toList ++ includer.text
  | unreadable path => "cannot read ".toList ++ path.text ++ ": entity not found".toList
  | notOpen file => "document is not open: ".toList ++ file.text
  | noExecutable => invalidCompiler ++ "compiler executable path is empty".toList
  | noInputName input => invalidCompiler ++ "input has no file name: ".toList ++ input.text
  | noOutputPath => invalidCompiler ++ "output type is 'path' but no output path is set".toList

end Failure

end PawnScope
