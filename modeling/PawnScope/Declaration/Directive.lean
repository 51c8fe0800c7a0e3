import PawnScope.Declaration.Word
import PawnScope.Declaration.Head
/-!
Recognizing a directive: an inclusion, or a `#define` with or without parameters.
-/

namespace PawnScope

inductive Directive where
  | inclusion (filename : Text) (isLocal isOptional : Bool)
  /-- `definition` is the name with the parameters and the body. -/
  | template (name : Text) (nameStart : Nat) (label : Text) (parameters : List Text)
      (definition : Text)
  | constant (name : Text) (nameStart : Nat) (value label : Text)
deriving DecidableEq, Repr

namespace Directive

/-- The file name of an inclusion, and whether it stands in quotes. -/
def target? (rest : Text) : Option (Text × Bool) :=
  match rest with
  | '"' :: quoted => (Text.cut? '"' quoted).map fun found => (found.1, true)
  | '<' :: angled => (Text.cut? '>' angled).map fun found => (found.1, false)
  | _ => some (rest.takeWhile (!isBlank ·), false)

/-- An inclusion of what `rest` names; a blank name makes none. -/
def inclusion? (rest : Text) (isOptional : Bool) : Option Directive :=
  match target? rest.trim with
  | none => none
  | some (filename, isLocal) =>
    if filename.trim.isEmpty then none else some (.inclusion filename.trim isLocal isOptional)

/-- The word that begins a definition. -/
def defineWord : Text :=
  "#define ".toList

/--
A definition. It has parameters only if a parenthesis stands directly after the name.
-/
def define? (code : Text) : List Token → Option Directive
  | name :: rest =>
    if name.kind ≠ .identifier then none
    else
      match rest with
      | opener :: rest =>
        if opener.kind = .openParen ∧ opener.start = name.stop then
          let list := Declaration.parameterList code opener (Declaration.closing? 1 rest)
          some (.template name.text name.start (Declaration.labelBetween code name.start list.2)
            (Parameter.split list.1) (Text.trim (code.drop name.start)))
        else some (plain name)
      | [] => some (plain name)
  | [] => none
where
  /-- A definition without parameters. -/
  plain (name : Token) : Directive :=
    let value := Text.trim (code.drop name.stop)
    let label := defineWord ++ name.text
    .constant name.text name.start value (if value.isEmpty then label else label ++ ' ' :: value)

/-- The word of a directive token. -/
def word (token : Token) : Text :=
  Text.trimStart (token.text.drop 1)

/-- Recognize a directive of one of the known kinds. -/
def recognize? [Alphabets] (code : Text) : Option Directive :=
  match Token.ofLine code with
  | [] => none
  | first :: rest =>
    if first.kind ≠ .directive then none
    else if word first = "include".toList then inclusion? (code.drop first.stop) false
    else if word first = "tryinclude".toList then inclusion? (code.drop first.stop) true
    else if word first = "define".toList then define? code rest
    else none

end Directive

end PawnScope
