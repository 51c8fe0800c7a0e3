import PawnScope.Path.SourceId
import PawnScope.Text.Position
/-!
What a compiler run printed: its diagnostics, the sizes of the compiled program, and whether it
came to its end. A diagnostic is a line of the form

`file(line) : warning code: message`, or `file(line -- line) : error code: message`,

where every blank stands for exactly one blank character.
-/

namespace PawnScope

inductive Severity where
  | warning
  | error
deriving DecidableEq, Repr

namespace Severity

def word : Severity → Text
  | warning => "warning".toList
  | error => "error".toList

end Severity

structure Diagnostic where
  /-- The path as printed. -/
  file : Text
  /-- The first line, counted from one. -/
  line : Nat
  lastLine : Option Nat
  severity : Severity
  code : Nat
  message : Text
deriving DecidableEq, Repr

/-- Sizes of the compiled program, in bytes. -/
structure ProgramSizes where
  header : Option Nat
  code : Option Nat
  data : Option Nat
  total : Option Nat
deriving DecidableEq, Repr

structure BuildLog where
  /-- The diagnostics in the order in which they were printed. -/
  printed : List Diagnostic
  sizes : ProgramSizes
  /-- The compiler came to its end. -/
  done : Bool
deriving DecidableEq, Repr

namespace Diagnostic

def sourceId (diagnostic : Diagnostic) : SourceId :=
  .ofPath ⟨diagnostic.file⟩

/-- The column that stands for the end of a line. -/
def lineEndColumn : Nat :=
  UInt64.size - 1

/-- The whole reported lines. -/
def span (diagnostic : Diagnostic) : Span :=
  ⟨⟨diagnostic.line - 1, 0⟩,
    ⟨diagnostic.lastLine.getD diagnostic.line - 1, lineEndColumn⟩⟩

/-- A number in decimal digits below `limit`, and the text after it. -/
def readNumber? (limit : Nat) (text : Text) : Option (Nat × Text) :=
  let digits := text.takeWhile Char.isDigit
  let value := digits.foldl (fun value digit => value * 10 + (digit.toNat - '0'.toNat)) 0
  if digits.isEmpty || limit ≤ value then none else some (value, text.drop digits.length)

/-- Line numbers and sizes are below this bound. -/
def numberLimit : Nat :=
  UInt64.size

/-- Diagnostic codes are below this bound. -/
def codeLimit : Nat :=
  UInt32.size

/-- The text after one blank. -/
def readBlank? : Text → Option Text
  | [] => none
  | c :: rest => if isBlank c then some rest else none

/-- The text after `phrase`. -/
def readPhrase? (phrase : String) (text : Text) : Option Text :=
  phrase.toList.isPrefixOf? text

/-- The second line number, if one is printed. -/
def readLastLine? (text : Text) : Option (Option Nat × Text) :=
  match (readBlank? text).bind (readPhrase? "--") with
  | none => some (none, text)
  | some rest => do
    let (line, rest) ← readNumber? numberLimit (← readBlank? rest)
    return (some line, rest)

def readSeverity? (text : Text) : Option (Severity × Text) :=
  match Severity.warning.word.isPrefixOf? text with
  | some rest => some (.warning, rest)
  | none => (Severity.error.word.isPrefixOf? text).map (Severity.error, ·)

/-- What follows the parenthesis after the file. -/
def afterFile? (file rest : Text) : Option Diagnostic := do
  let (line, rest) ← readNumber? numberLimit rest
  let (lastLine, rest) ← readLastLine? rest
  let rest ← readPhrase? ")" rest
  let rest ← readPhrase? ":" (← readBlank? rest)
  let (severity, rest) ← readSeverity? (← readBlank? rest)
  let (code, rest) ← readNumber? codeLimit (← readBlank? rest)
  let message ← readBlank? (← readPhrase? ":" rest)
  return ⟨file, line, lastLine, severity, code, message⟩

/-- The diagnostic with the shortest file that is `file` and more of `rest`. -/
def search? (file : Text) : Text → Option Diagnostic
  | [] => none
  | c :: rest =>
    (if c = '(' ∧ file ≠ [] then afterFile? file rest else none) <|> search? (file ++ [c]) rest

/-- The diagnostic that a line prints. -/
def ofLine? (line : Text) : Option Diagnostic :=
  search? [] line

end Diagnostic

namespace BuildLog

/-- The size printed after the first `label`. -/
def size? (output : Text) (label : String) : Option Nat := do
  let after ← Text.after? label.toList output
  let (value, rest) ← Diagnostic.readNumber? Diagnostic.numberLimit (Text.trimStart after)
  if ("bytes".toList).isPrefixOf (Text.trimStart rest) then some value else none

/-- A line without the carriage returns at its end. -/
def withoutReturns (line : Text) : Text :=
  (line.reverse.dropWhile (· == '\r')).reverse

/-- The word that a compiler run ends with. -/
def doneWord : Text :=
  "Done.".toList

/-- Read what a compiler run printed. -/
def ofOutput (output : Text) : BuildLog :=
  let lines := (Text.split '\n' output).map withoutReturns
  { printed := lines.filterMap Diagnostic.ofLine?
    sizes :=
      { header := size? output "Header size:"
        code := size? output "Code size:"
        data := size? output "Data size:"
        total := size? output "Total requirements:" }
    done := lines.any fun line => (Text.after? doneWord line).isSome }

/-- The files with diagnostics, in the order in which they were first printed. -/
def files (log : BuildLog) : List Text :=
  (log.printed.map Diagnostic.file).eraseDups

def diagnosticsOf (log : BuildLog) (file : Text) : List Diagnostic :=
  log.printed.filter (·.file == file)

/-- All diagnostics, file by file. -/
def diagnostics (log : BuildLog) : List Diagnostic :=
  log.files.flatMap log.diagnosticsOf

def hasErrors (log : BuildLog) : Bool :=
  log.printed.any (·.severity == .error)

def hasWarnings (log : BuildLog) : Bool :=
  log.printed.any (·.severity == .warning)

/-- The run came to its end without an error. -/
def succeeded (log : BuildLog) : Bool :=
  log.done && !log.hasErrors

end BuildLog

end PawnScope
