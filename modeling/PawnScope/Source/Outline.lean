import PawnScope.Declaration.Directive
import PawnScope.Declaration.Head
import PawnScope.Source.Line
import PawnScope.Symbol.Outline
/-!
The outline of a source text. Only lines that begin outside all braces declare something, a
parameter list or a directive may go on over several lines, and a doc comment speaks of the
statement that directly follows it. Nothing fails: a line that declares nothing is passed over.
-/

namespace PawnScope

/-- What a statement is read for: its file, the line it begins on, and the doc comment before it. -/
structure Site where
  file : SourceId
  /-- Leave out what is visible only in its own file. -/
  skipStatic : Bool
  line : Line
  documentation : Option Text
deriving DecidableEq, Repr

namespace Site

/-- The span of a name that starts at an offset of the statement's code. -/
def nameSpan (site : Site) (nameStart : Nat) (name : Text) : Span :=
  .onLine site.line.number nameStart name.length

/-- The documentation of a template: the doc comment, and the definition itself. -/
def templateDoc (site : Site) (definition : Text) : Text :=
  let written := "Macro: ".toList ++ definition
  match site.documentation with
  | some doc => doc ++ '\n' :: '\n' :: written
  | none => written

def callable (site : Site) (head : FunctionHead) : Callable where
  name := head.name
  label := head.label
  isTemplate := false
  file := site.file
  span := site.nameSpan head.nameStart head.name
  parameters := head.parameters
  documentation := site.documentation
  isPrototype := head.isPrototype
  isStatic := head.isStatic

def global (site : Site) (head : GlobalHead) : Global where
  name := head.name
  label := head.label
  isConst := head.isConst
  file := site.file
  span := site.nameSpan head.nameStart head.name
  documentation := site.documentation
  isStatic := head.isStatic

end Site

namespace Outline

variable [Alphabets]

def applyDirective (outline : Outline) (site : Site) : Directive → Outline
  | .inclusion filename isLocal isOptional =>
    outline.putInclusion
      ⟨filename, isLocal, isOptional, .onLine site.line.number 0 site.line.raw.length⟩
  | .template name nameStart label parameters definition =>
    outline.putCallable {
      name, label, parameters
      isTemplate := true
      file := site.file
      span := site.nameSpan nameStart name
      documentation := some (site.templateDoc definition)
      isPrototype := false
      isStatic := false }
  | .constant name nameStart value label =>
    outline.putConstant ⟨name, value, label, site.file, site.nameSpan nameStart name⟩

def applyDeclaration (outline : Outline) (site : Site) : Declaration → Outline
  | .function head =>
    if head.isStatic && site.skipStatic then outline else outline.putCallable (site.callable head)
  | .globals heads =>
    ((heads.filter fun head => !(head.isStatic && site.skipStatic)).map site.global).foldl
      putGlobal outline

/-- How many lines an open parameter list may go on for. -/
def maxListLines : Nat :=
  8

/--
Recognize a declaration, joining lines to it while its parameter list is open. The answer is how
many lines were joined, and what the joined code declares.
-/
def joinList (joined : Text) (count : Nat) : List Line → Nat × Option Declaration
  | [] =>
    match Declaration.recognize joined true with
    | .found declaration => (count, some declaration)
    | _ => (0, none)
  | next :: rest =>
    match Declaration.recognize joined (maxListLines ≤ count) with
    | .found declaration => (count, some declaration)
    | .nothing => (0, none)
    | .unfinished =>
      if next.depth = 0 ∧ Declaration.continuesList next.code then
        joinList (joined ++ ' ' :: next.code) (count + 1) rest
      else
        match Declaration.recognize joined true with
        | .found declaration => (count, some declaration)
        | _ => (count, none)

/--
A directive with the lines that it goes on over: a backslash at the end of a line gives way to a
blank and the next line. The answer is how many lines were joined, and the joined code.
-/
def joinDirective (joined : Text) : List Line → Nat × Text
  | [] => (0, joined)
  | next :: rest =>
    if joined.getLast? = some '\\' then
      let more := joinDirective (joined.dropLast ++ ' ' :: Text.trim next.code) rest
      (more.1 + 1, more.2)
    else (0, joined)

/-- Read the statement at `site`; the answer is how many of the lines after it belong to it. -/
def readStatement (outline : Outline) (site : Site) (following : List Line) : Nat × Outline :=
  if site.line.depth ≠ 0 then (0, outline)
  else if (Text.trimStart site.line.code).head? = some '#' then
    let joined := joinDirective (Text.trimEnd site.line.code) following
    match Directive.recognize? joined.2 with
    | some directive => (joined.1, outline.applyDirective site directive)
    | none => (joined.1, outline)
  else
    let joined := joinList site.line.code 0 following
    match joined.2 with
    | some declaration => (joined.1, outline.applyDeclaration site declaration)
    | none => (joined.1, outline)

/-- Read lines, of which the first `skip` belong to a statement before; `doc` waits for its code. -/
def readLines (file : SourceId) (skipStatic : Bool) (skip : Nat) (doc : Option Text)
    (outline : Outline) : List Line → Outline
  | [] => outline
  | line :: rest =>
    match skip with
    | skip + 1 => readLines file skipStatic skip doc outline rest
    | 0 =>
      let doc := line.leadingDoc <|> doc
      if line.code.allBlank then readLines file skipStatic 0 doc outline rest
      else
        let read := outline.readStatement ⟨file, skipStatic, line, doc⟩ rest
        readLines file skipStatic read.1 line.trailingDoc read.2 rest

/-- The outline of a text; with `skipStatic` without what is visible only in the file itself. -/
def ofText (file : SourceId) (text : Text) (skipStatic : Bool) : Outline :=
  readLines file skipStatic 0 none empty (Line.ofText text)

end Outline

end PawnScope
