import PawnScope.Identifier.Basic
import PawnScope.Token.Basic
/-!
Cutting a line of code into tokens. The longest token wins, gaps between tokens are spaces, tabs,
carriage returns and form feeds, and a character that begins no token is an unknown one by itself.
-/

namespace PawnScope.Token

variable [Alphabets]

/-- The blanks that stand between tokens. -/
def isGap (c : Char) : Bool :=
  c == ' ' || c == '\t' || c == '\r' || c == '\x0c'

/-- The blanks that may stand between `#` and the word of a directive. -/
def isSpacing (c : Char) : Bool :=
  c == ' ' || c == '\t'

def isDirectiveLetter (c : Char) : Bool :=
  c.isAlpha || c == '_'

/-- A number goes on over digits, letters, `_` and `.`. -/
def isNumberPart (c : Char) : Bool :=
  c.isAlphanum || c == '_' || c == '.'

def isOperator (c : Char) : Bool :=
  "-+*/%<>!|^~?=&".toList.contains c

/--
The rest of a literal after its opening quote, up to and with the closing one. A literal that is
not closed takes all there is, but never a lone escape at the end or an escaped line feed.
-/
def literalTail (quote : Char) : Text → Text
  | [] => []
  | c :: rest =>
    if isEscape c then
      match rest with
      | [] => []
      | escaped :: rest =>
        if escaped = '\n' then [] else c :: escaped :: literalTail quote rest
    else if c = quote then [c]
    else c :: literalTail quote rest

/-- A `#` with the spaces and tabs after it is a directive only with a word behind. -/
def afterHash (rest : Text) : TokenKind × Text :=
  let spacing := rest.takeWhile isSpacing
  let word := (rest.drop spacing.length).takeWhile isDirectiveLetter
  (if word.isEmpty then .unknown else .directive, spacing ++ word)

/-- The tokens of a single character. -/
def punctuation? (c : Char) : Option TokenKind :=
  match c with
  | '(' => some .openParen
  | ')' => some .closeParen
  | '{' => some .openBrace
  | '}' => some .closeBrace
  | '[' => some .openBracket
  | ']' => some .closeBracket
  | ',' => some .comma
  | ';' => some .semicolon
  | ':' => some .colon
  | '\\' => some .backslash
  | _ => none

/-- The kind of the longest token that begins with `c`, and its text after `c`. -/
def longest (c : Char) (rest : Text) : TokenKind × Text :=
  if c = '#' then afterHash rest
  else if c = '"' then (.string, literalTail c rest)
  else if c = '\'' then (.character, literalTail c rest)
  else if c = '.' then
    if rest.take 2 = ['.', '.'] then (.ellipsis, ['.', '.']) else (.dot, [])
  else if c.isDigit then (.number, rest.takeWhile isNumberPart)
  else if Identifier.isTokenStart c then (.identifier, rest.takeWhile Identifier.isTokenPart)
  else if isOperator c then (.operator, rest.takeWhile isOperator)
  else ((punctuation? c).getD .unknown, [])

/-- The tokens of a text at offset `base`, whose first `skip` characters are already taken. -/
def scan (base skip : Nat) : Text → List Token
  | [] => []
  | c :: rest =>
    match skip with
    | skip + 1 => scan (base + 1) skip rest
    | 0 =>
      if isGap c then scan (base + 1) 0 rest
      else
        let token := longest c rest
        ⟨token.1, c :: token.2, base⟩ :: scan (base + 1) token.2.length rest

/-- All tokens of a line, in order. -/
def ofLine (line : Text) : List Token :=
  scan 0 0 line

end PawnScope.Token
