import PawnScope.Declaration.Word
import PawnScope.Parameter
import PawnScope.Token.Lexer
/-!
Recognizing a declaration of a function or of global variables in a line of code. The line may be
several written lines joined by blanks; nothing here knows of files or of documentation.
-/

namespace PawnScope

/-- The head of a function as a line of code declares it. -/
structure FunctionHead where
  name : Text
  /-- Where the name starts in the code. -/
  nameStart : Nat
  label : Text
  parameters : List Text
  isPrototype : Bool
  isStatic : Bool
deriving DecidableEq, Repr

/-- A global variable as a line of code declares it. -/
structure GlobalHead where
  name : Text
  /-- Where the name starts in the code. -/
  nameStart : Nat
  label : Text
  isConst : Bool
  isStatic : Bool
deriving DecidableEq, Repr

/-- What a line of code declares. -/
inductive Declaration where
  | function (head : FunctionHead)
  | globals (heads : List GlobalHead)
deriving DecidableEq, Repr

/-- What a line of code has been recognized as. -/
inductive Recognition where
  | found (declaration : Declaration)
  /-- The parameter list is still open, so the next line may belong to it. -/
  | unfinished
  | nothing
deriving DecidableEq, Repr

namespace Declaration

/-- The label of a declaration: a stretch of the code, trimmed. -/
def labelBetween (code : Text) (start stop : Nat) : Text :=
  Text.trim (code.slice start stop)

/--
The parameter list after the parenthesis `opener`: its text, and where it ends with its closing
parenthesis. A list that is not closed takes the rest of the code.
-/
def parameterList (code : Text) (opener : Token) (closer : Option Token) : Text × Nat :=
  match closer with
  | some closer => (code.slice opener.stop closer.start, closer.stop)
  | none => (code.drop opener.stop, code.length)

/-- A function whose name is followed by the parenthesis `opener` and the tokens `rest`. -/
def ofPrototype (code : Text) (start : Nat) (specifiers : List Text) (name opener : Token)
    (rest : List Token) (complete : Bool) : Recognition :=
  let closer := closing? 1 rest
  if closer.isNone && !complete then .unfinished
  else
    let list := parameterList code opener closer
    .found <| .function {
      name := name.text
      nameStart := name.start
      label := labelBetween code start list.2
      parameters := Parameter.split list.1
      isPrototype := marksPrototype specifiers
      isStatic := marksStatic specifiers }

/-- How many groups are open after a token; a closer that closes nothing does not count. -/
def groupDepth (depth : Nat) (token : Token) : Nat :=
  match token.kind with
  | .openParen | .openBracket | .openBrace => depth + 1
  | .closeParen | .closeBracket | .closeBrace => depth - 1
  | _ => depth

/-- The tokens between top-level commas, up to a top-level semicolon. -/
def declarators (depth : Nat) : List Token → List (List Token)
  | [] => [[]]
  | token :: rest =>
    if depth = 0 ∧ token.kind = .comma then [] :: declarators 0 rest
    else if depth = 0 ∧ token.kind = .semicolon then [[]]
    else
      match declarators (groupDepth depth token) rest with
      | [] => [[token]]
      | first :: more => (token :: first) :: more

/-- The tokens of a declarator before its initializer. -/
def beforeInitializer (depth : Nat) : List Token → List Token
  | [] => []
  | token :: rest =>
    if depth = 0 ∧ token.isAssign then []
    else token :: beforeInitializer (groupDepth depth token) rest

/-- The variable that a declarator declares, if it begins like one. -/
def ofDeclarator? (code : Text) (specifiers : List Text) (tokens : List Token) :
    Option GlobalHead :=
  match tokens with
  | [] => none
  | first :: more =>
    let ownConst := first.isWord constWord
    match dropTag (if ownConst then more else tokens) with
    | [] => none
    | name :: _ =>
      if canName name then
        let labelEnd := ((beforeInitializer 0 tokens).getLast?.map Token.stop).getD name.stop
        some {
          name := name.text
          nameStart := name.start
          label := Text.join [' '] specifiers ++ ' ' :: labelBetween code first.start labelEnd
          isConst := ownConst || marksConst specifiers
          isStatic := marksStatic specifiers }
      else none

/-- The variables of declarators, up to the first that declares none. -/
def takeGlobals (code : Text) (specifiers : List Text) : List (List Token) → List GlobalHead
  | [] => []
  | tokens :: rest =>
    match ofDeclarator? code specifiers tokens with
    | none => []
    | some head => head :: takeGlobals code specifiers rest

/-- Recognize the tokens after the specifiers as variables. -/
def ofDeclarators (code : Text) (specifiers : List Text) (declared : List Token) : Recognition :=
  if marksGlobal specifiers then
    match takeGlobals code specifiers (declarators 0 declared) with
    | [] => .nothing
    | heads => .found (.globals heads)
  else .nothing

/--
Recognize a line of code. With `complete` no line can follow, so a parameter list that is not
closed takes the rest of the code.
-/
def recognize [Alphabets] (code : Text) (complete : Bool) : Recognition :=
  let tokens := Token.ofLine code
  let specifiers := (tokens.takeWhile isSpecifier).map Token.text
  let declared := tokens.dropWhile isSpecifier
  match dropTag declared with
  | [] => .nothing
  | name :: rest =>
    if !canName name then .nothing
    else
      match rest with
      | [] => ofDeclarators code specifiers declared
      | opener :: rest =>
        if opener.kind ≠ .openParen then ofDeclarators code specifiers declared
        else if marksNew specifiers then .nothing
        else
          let start := (tokens.head?.map Token.start).getD name.start
          ofPrototype code start specifiers name opener rest complete

/-- How far a line that may continue a parameter list has been read. -/
structure Continuation where
  parens : Nat
  /-- Braces open in a default value. -/
  braces : Nat
  afterAssign : Bool
deriving DecidableEq, Repr

namespace Continuation

/--
Read on. The list goes on until it is closed or the line ends; a semicolon, or a brace that belongs
to no default value, means that it was never closed.
-/
def goesOn (state : Continuation) : List Token → Bool
  | [] => true
  | token :: rest =>
    let next : Continuation := { state with afterAssign := token.isAssign }
    match token.kind with
    | .openParen => goesOn { next with parens := state.parens + 1 } rest
    | .closeParen =>
      if state.parens = 0 then true else goesOn { next with parens := state.parens - 1 } rest
    | .semicolon => false
    | .openBrace =>
      if state.afterAssign || state.braces != 0 then
        goesOn { next with braces := state.braces + 1 } rest
      else false
    | .closeBrace =>
      if state.braces = 0 then false else goesOn { next with braces := state.braces - 1 } rest
    | _ => goesOn next rest

end Continuation

/--
A line can be the next one of an open parameter list if it does not begin a directive or another
declaration, and does not end the list's statement before the list.
-/
def continuesList [Alphabets] (code : Text) : Bool :=
  match Token.ofLine code with
  | [] => true
  | first :: rest =>
    if first.kind = .directive then false
    else if isSpecifier first && !first.isWord constWord then false
    else Continuation.goesOn ⟨0, 0, false⟩ (first :: rest)

end Declaration

end PawnScope
