import PawnScope.Token.Basic
/-!
The words that a declaration begins with, and the words that never name anything.
-/

namespace PawnScope.Declaration

/-- The words that may stand before a declaration. -/
def specifierWords : List Text :=
  ["forward", "native", "public", "static", "stock", "new", "const"].map String.toList

/-- The words that no declaration can take for its name. -/
def reservedWords : List Text :=
  ["if", "else", "while", "for", "do", "switch", "case", "default", "return", "sizeof", "tagof",
    "charsof", "enum", "goto", "break", "continue", "operator", "assert", "defined", "state",
    "sleep", "exit"].map String.toList ++ specifierWords

def constWord : Text :=
  "const".toList

def isSpecifier (token : Token) : Bool :=
  token.kind == .identifier && specifierWords.contains token.text

/-- A token that can name a declaration. -/
def canName (token : Token) : Bool :=
  token.kind == .identifier && !reservedWords.contains token.text

/-- One of `words` is among the specifiers. -/
def hasOneOf (words : List String) (specifiers : List Text) : Bool :=
  specifiers.any fun specifier => (words.map String.toList).contains specifier

def marksPrototype (specifiers : List Text) : Bool :=
  hasOneOf ["forward", "native"] specifiers

def marksStatic (specifiers : List Text) : Bool :=
  hasOneOf ["static"] specifiers

def marksConst (specifiers : List Text) : Bool :=
  hasOneOf ["const"] specifiers

/-- A call after `new` is no function. -/
def marksNew (specifiers : List Text) : Bool :=
  hasOneOf ["new"] specifiers

/-- The specifiers that a declaration of variables may begin with. -/
def marksGlobal (specifiers : List Text) : Bool :=
  hasOneOf ["new", "static", "const", "public", "stock"] (specifiers.take 1)
    && !marksPrototype specifiers

/-- The tokens without a tag and its colon before them. -/
def dropTag : List Token → List Token
  | first :: second :: rest =>
    if first.kind = .identifier ∧ second.kind = .colon then rest else first :: second :: rest
  | tokens => tokens

/-- The first token that closes the group which is open to `depth` parentheses. -/
def closing? (depth : Nat) : List Token → Option Token
  | [] => none
  | token :: rest =>
    match token.kind with
    | .openParen => closing? (depth + 1) rest
    | .closeParen => if depth ≤ 1 then some token else closing? (depth - 1) rest
    | _ => closing? depth rest

end PawnScope.Declaration
