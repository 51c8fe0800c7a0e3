import PawnScope.Text.Basic
/-!
Tokens of one line of code.
-/

namespace PawnScope

inductive TokenKind where
  | directive
  | identifier
  | number
  | string
  | character
  | openParen
  | closeParen
  | openBrace
  | closeBrace
  | openBracket
  | closeBracket
  | comma
  | semicolon
  | colon
  | dot
  | ellipsis
  | backslash
  | operator
  | unknown
deriving DecidableEq, Repr

/-- A token: its kind, its text, and the offset in the line at which it starts. -/
structure Token where
  kind : TokenKind
  text : Text
  start : Nat
deriving DecidableEq, Repr

namespace Token

/-- The offset just after the token. -/
def stop (token : Token) : Nat :=
  token.start + token.text.length

/-- The first and the last byte offset of the token in the UTF-8 form of its line. -/
def byteRange (line : Text) (token : Token) : Nat × Nat :=
  let first := Text.byteLength (line.take token.start)
  (first, first + token.text.byteLength)

/-- The word `name`, as an identifier. -/
def isWord (token : Token) (name : Text) : Bool :=
  token.kind == .identifier && token.text == name

/-- The operator that begins a default value or an initializer. -/
def isAssign (token : Token) : Bool :=
  token.kind == .operator && token.text == ['=']

end Token

end PawnScope
