import PawnScope.Declaration.Directive
import PawnScope.Proofs.Token.Joining
/-!
The beginning of a directive: its `#` with the word, and the name behind it. Both are the same tokens
whatever the line goes on with behind the name (`Token.ofLine_opening`), and they decide what a definition
defines (`Directive.recognize?_define`, `Directive.opening_of_defines`).
-/

namespace PawnScope

namespace Token

open Identifier (isTokenPart)

variable {c d : Char} {text rest front behind other code : Text} {kind : TokenKind} {base index : Nat}
  {first name token : Token} {tokens : List Token}

theorem stands_of_mem [Alphabets] (member : token ∈ ofLine code) :
    ∃ above rest, code = above ++ (token.text ++ rest) ∧ token.start = above.length := by
  obtain ⟨before, after, tokens⟩ := List.append_of_mem member
  obtain ⟨above, d, text, rest, whole, same, -, -⟩ := (tokens ▸ lexed_ofLine code).at
  refine ⟨above, rest, ?_, by rw [same, Nat.zero_add]⟩
  rw [whole, congrArg Token.text same, List.cons_append]

theorem parts_of_identifier [Alphabets] (member : token ∈ ofLine code) (named : token.kind = .identifier) :
    ∀ c ∈ token.text, isTokenPart c = true := by
  obtain ⟨before, after, tokens⟩ := List.append_of_mem member
  obtain ⟨above, d, text, rest, -, same, found, -⟩ := (tokens ▸ lexed_ofLine code).at
  rw [named] at found
  rw [congrArg Token.text same]
  exact (around_of_longest found).parts

/-- The characters of an identifier go on with a token. -/
theorem letter_of_identifier [Alphabets] (member : token ∈ ofLine code) (named : token.kind = .identifier)
    (after : token.start ≤ index) (before : index < token.stop) :
    ∃ c, code[index]? = some c ∧ isTokenPart c = true := by
  obtain ⟨above, rest, whole, start⟩ := stands_of_mem member
  rw [start] at after
  rw [stop, start] at before
  obtain ⟨offset, rfl⟩ := Nat.exists_eq_add_of_le after
  have short : offset < token.text.length := by omega
  refine ⟨token.text[offset], ?_, parts_of_identifier member named _ (List.getElem_mem short)⟩
  rw [whole, List.getElem?_append_right (Nat.le_add_right _ _), Nat.add_sub_cancel_left,
    List.getElem?_append_left short, List.getElem?_eq_getElem short]

theorem start_lt_stop_of_mem [Alphabets] (member : token ∈ ofLine code) : token.start < token.stop := by
  obtain ⟨above, behind, tokens⟩ := List.append_of_mem member
  exact (tokens ▸ lexed_ofLine code).start_lt_stop List.mem_cons_self

/-- No identifier ends among characters that it does not go on with. -/
theorem stop_le_of_identifier [Alphabets] (member : token ∈ ofLine (front ++ behind))
    (named : token.kind = .identifier) (apart : ∀ c ∈ behind, isTokenPart c = false) :
    token.stop ≤ front.length := by
  have filled := start_lt_stop_of_mem member
  refine Nat.le_of_not_lt fun past => ?_
  obtain ⟨c, found, part⟩ := letter_of_identifier member named
    (Nat.le_sub_one_of_lt filled) (Nat.sub_one_lt_of_lt filled)
  rw [List.getElem?_append_right (Nat.le_sub_one_of_lt past)] at found
  rw [apart c (List.mem_of_getElem? found)] at part
  contradiction

/-- An identifier ends before a character that it does not go on with, or begins behind it. -/
theorem apart_of_identifier [Alphabets] (member : token ∈ ofLine (front ++ behind))
    (named : token.kind = .identifier) (stops : ∀ c ∈ behind.head?, isTokenPart c = false) :
    token.stop ≤ front.length ∨ front.length < token.start := by
  refine or_iff_not_imp_left.mpr fun past => Nat.lt_of_not_le fun before => ?_
  obtain ⟨c, found, part⟩ := letter_of_identifier member named before (Nat.lt_of_not_le past)
  rw [List.getElem?_append_right (Nat.le_refl _), Nat.sub_self, ← List.head?_eq_getElem?] at found
  rw [stops c found] at part
  contradiction

theorem hash_of_directive [Alphabets] (found : longest c rest = (.directive, text)) : c = '#' := by
  unfold longest afterHash punctuation? at found
  grind

/-- The same run before another text that begins in the same way. -/
theorem takeWhile_cons_congr {p : Char → Bool} {run : Text}
    (found : (run ++ d :: rest).takeWhile p = run) (other : Text) :
    (run ++ d :: other).takeWhile p = run := by
  obtain ⟨inside, stop⟩ := Text.stop_of_takeWhile found
  exact Text.takeWhile_run inside stop

/-- The word of a directive ends at the first character that it does not go on with. -/
theorem afterHash_cons (found : afterHash (text ++ d :: rest) = (kind, text)) (other : Text) :
    afterHash (text ++ d :: other) = (kind, text) := by
  obtain ⟨spacing, blank⟩ : ∃ spacing, (text ++ d :: rest).takeWhile isSpacing = spacing := ⟨_, rfl⟩
  obtain ⟨word, letters⟩ : ∃ word, ((text ++ d :: rest).drop spacing.length).takeWhile
      isDirectiveLetter = word := ⟨_, rfl⟩
  obtain rfl : spacing ++ word = text := by
    rw [← letters, ← blank]
    exact (Prod.mk.inj found).2
  rw [List.append_assoc] at blank letters found ⊢
  rw [List.drop_left] at letters
  have blank' : (spacing ++ (word ++ d :: other)).takeWhile isSpacing = spacing := by
    cases word with
    | nil => exact takeWhile_cons_congr blank other
    | cons e word => exact takeWhile_cons_congr blank _
  have letters' := takeWhile_cons_congr letters other
  rw [← found]
  simp only [afterHash, blank, blank', List.drop_left, letters, letters']

theorem longest_directive [Alphabets]
    (found : longest c (text ++ (front ++ d :: rest)) = (.directive, text))
    (other : Text) :
    isGap c = false ∧ longest c (text ++ (front ++ d :: other)) = (.directive, text) := by
  obtain rfl := hash_of_directive found
  refine ⟨by decide, ?_⟩
  cases front with
  | nil => exact afterHash_cons found other
  | cons e front => exact afterHash_cons found _

theorem longest_name [Alphabets] (found : longest c (text ++ (front ++ behind)) = (.identifier, text))
    (stop : ∀ d ∈ other.head?, isTokenPart d = false) :
    isGap c = false ∧ longest c (text ++ (front ++ other)) = (.identifier, text) := by
  obtain ⟨start, always⟩ := longest_identifier found
  obtain ⟨inside, stop'⟩ := Text.stop_of_takeWhile (run_of_identifier found).symm
  constructor
  · refine Bool.eq_false_iff.mpr fun gap => ?_
    have part := Identifier.isPart_of_isTokenPart (Identifier.isTokenPart_of_isTokenStart start)
    rw [isPart_of_isGap gap] at part
    contradiction
  · rw [always, Text.takeWhile_run inside]
    cases front with
    | nil => exact stop
    | cons e front => exact stop'

/--
A directive and the name behind it are the same tokens before anything that does not go on with the name.
-/
theorem ofLine_opening [Alphabets] (opening : ofLine (front ++ behind) = first :: name :: tokens)
    (directive : first.kind = .directive) (named : name.kind = .identifier)
    (inside : name.stop ≤ front.length) (stop : ∀ c ∈ other.head?, isTokenPart c = false) :
    ∃ tokens', ofLine (front ++ other) = first :: name :: tokens' := by
  obtain ⟨gap, c, word, line, whole, gaps, same, found, later⟩ := (opening ▸ lexed_ofLine _).head
  obtain ⟨gap', d, letters, line', rfl, gaps', same', found', -⟩ := later.head
  rw [directive] at found same
  rw [named] at found' same'
  have start : 0 + gap.length + (c :: word).length = first.stop := (congrArg Token.stop same).symm
  have ends : first.stop + gap'.length + (d :: letters).length = name.stop :=
    (congrArg Token.stop same').symm
  -- The front is the text up to the end of the name, and what it goes on with.
  obtain ⟨front, rfl⟩ : gap ++ c :: (word ++ (gap' ++ d :: letters)) <+: front := by
    refine List.prefix_of_prefix_length_le ⟨line', ?_⟩ (List.prefix_append front behind) ?_
    · rw [whole]
      simp
    · simp only [List.length_append, List.length_cons] at start ends ⊢
      omega
  obtain rfl : line' = front ++ behind := by simpa using whole.symm
  obtain ⟨solid, found⟩ := longest_directive found (letters ++ (front ++ other))
  obtain ⟨solid', found'⟩ := longest_name found' stop
  have again : gap ++ c :: (word ++ (gap' ++ d :: letters)) ++ front ++ other =
      gap ++ c :: (word ++ (gap' ++ d :: (letters ++ (front ++ other)))) := by simp
  refine ⟨scan name.stop 0 (front ++ other), ?_⟩
  rw [ofLine, again, scan_gaps gaps, scan_token solid found, start, scan_gaps gaps',
    scan_token solid' found', ends, ← same, ← same']

end Token

namespace Directive

variable {code name : Text} {first token : Token} {tokens : List Token} {directive : Directive}
  {start : Nat}

/-- The name that a definition defines, and where it starts. -/
def defined? : Directive → Option (Text × Nat)
  | .inclusion .. => none
  | .template name start .. | .constant name start .. => some (name, start)

theorem defined?_of_inclusion? {rest : Text} {isOptional : Bool}
    (found : inclusion? rest isOptional = some directive) : directive.defined? = none := by
  rw [inclusion?] at found
  split at found
  · contradiction
  · split at found
    · contradiction
    · obtain rfl := Option.some.inj found
      rfl

/-- Behind `#define` an identifier is defined, with or without parameters. -/
theorem define?_cons (code : Text) (token : Token) (tokens : List Token) :
    (define? code (token :: tokens)).bind defined? =
      if token.kind = .identifier then some (token.text, token.start) else none := by
  by_cases named : token.kind = .identifier
  · cases tokens with
    | nil => simp [define?, named, define?.plain, defined?]
    | cons opener tokens =>
      simp only [define?, named, ne_eq, not_true_eq_false, if_false, if_true]
      split <;> rfl
  · cases tokens <;> simp [define?, named]

/-- The beginning of a directive that defines a name. -/
structure Opens (first name : Token) : Prop where
  directive : first.kind = .directive
  word : word first = "define".toList
  named : name.kind = .identifier

theorem recognize?_of_opens [Alphabets] (opens : Opens first token)
    (opening : Token.ofLine code = first :: token :: tokens) :
    ∃ directive, recognize? code = some directive ∧
      directive.defined? = some (token.text, token.start) := by
  have define : recognize? code = define? code (token :: tokens) := by
    rw [recognize?, opening]
    simp [opens.directive, opens.word]
  have defines := define?_cons code token tokens
  rw [if_pos opens.named] at defines
  rw [define]
  exact Option.bind_eq_some_iff.mp defines

/-- A name is defined behind `#define`. -/
theorem exists_opening [Alphabets] (found : recognize? code = some directive)
    (defines : directive.defined? = some (name, start)) :
    ∃ first token tokens, Token.ofLine code = first :: token :: tokens ∧ Opens first token ∧
      token.text = name ∧ token.start = start := by
  have inclusion {rest : Text} {isOptional : Bool} :
      inclusion? rest isOptional ≠ some directive := fun found => by
    rw [defined?_of_inclusion? found] at defines
    contradiction
  rw [recognize?] at found
  split at found
  case h_1 => contradiction
  case h_2 first rest opening =>
    split at found
    case isTrue => contradiction
    case isFalse kind =>
      split at found
      case isTrue => exact absurd found inclusion
      case isFalse =>
        split at found
        case isTrue => exact absurd found inclusion
        case isFalse =>
          split at found
          case isFalse => contradiction
          case isTrue word =>
            cases rest with
            | nil => contradiction
            | cons token tokens =>
              have defined := define?_cons code token tokens
              rw [found, Option.bind_some, defines] at defined
              split at defined
              case isFalse => contradiction
              case isTrue named =>
                obtain ⟨rfl, rfl⟩ := Prod.mk.inj (Option.some.inj defined)
                exact ⟨first, token, tokens, opening, ⟨not_not.mp kind, word, named⟩, rfl, rfl⟩

end Directive

end PawnScope
