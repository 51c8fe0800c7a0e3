import PawnScope.Identifier.Alphabet
import PawnScope.Text.Basic
/-!
Identifiers: which characters they are made of, and when two spellings name the same thing.
Case of ASCII letters never matters, and a leading `@` makes an alternate spelling.
-/

namespace PawnScope.Identifier

section Characters

variable [Alphabets]

/-- The character begins the identifier of a token. -/
def isTokenStart (c : Char) : Bool :=
  Alphabets.token.starts c

/-- The character is in the identifier of a token. -/
def isTokenPart (c : Char) : Bool :=
  Alphabets.token.continues c

/-- The character begins a word. -/
def isStart (c : Char) : Bool :=
  Alphabets.word.starts c

/-- The character is in a word. -/
def isPart (c : Char) : Bool :=
  Alphabets.word.continues c

variable {c : Char}

theorem isTokenPart_of_isTokenStart (start : isTokenStart c = true) : isTokenPart c = true :=
  Alphabet.continues_of_starts start

theorem isPart_of_isTokenPart (part : isTokenPart c = true) : isPart c = true :=
  Alphabets.known c part

/-- No blank is a part of a word. -/
theorem isBlank_of_isPart (part : isPart c = true) : isBlank c = false :=
  Alphabet.isBlank_of_continues part

/-- No blank is a part of an identifier. -/
theorem isBlank_of_isTokenPart (part : isTokenPart c = true) : isBlank c = false :=
  Alphabet.isBlank_of_continues part

end Characters

/-- The name without one leading `@`. -/
def bare : Text → Text
  | '@' :: rest => rest
  | name => name

/-- The alternate spelling: without the leading `@` if there is one, with it otherwise. -/
def alternate : Text → Text
  | '@' :: rest => rest
  | name => '@' :: name

/-- Names with the same key are the same name. -/
def key (name : Text) : Text :=
  name.lower

end PawnScope.Identifier
