import Mathlib.Computability.Language
import PawnScope.Identifier.European
import PawnScope.Proofs.Token.Joining
/-!
The patterns of the tokens as languages, apart from how a line is cut, and what cutting a line has to do
with them. A token is the longest text that any pattern matches where the token stands: `longest_of_mem`
says that no match is longer, `mem_pattern_longest` that the token is one. Main result: `ofLine_tiles`.
-/

namespace PawnScope

namespace Text

theorem byteLength_append (front rest : Text) :
    byteLength (front ++ rest) = byteLength front + byteLength rest := by
  induction front with
  | nil => rw [List.nil_append, byteLength, Nat.zero_add]
  | cons c front ih => rw [List.cons_append, byteLength, byteLength, ih, Nat.add_assoc]

theorem byteLength_le {front text : Text} (prior : front <+: text) :
    byteLength front ≤ byteLength text := by
  obtain ⟨rest, rfl⟩ := prior
  rw [byteLength_append]
  exact Nat.le_add_right _ _

/-- What ends behind a character ends behind all the bytes before it. -/
theorem byteLength_lt_take {before after : Text} {c : Char} {count : Nat} (short : before.length < count) :
    byteLength before < byteLength ((before ++ c :: after).take count) := by
  obtain ⟨more, rfl⟩ := Nat.exists_eq_add_of_lt short
  rw [Nat.add_assoc, List.take_length_add_append, List.take_succ_cons, byteLength_append, byteLength]
  have some := Char.utf8Size_pos c
  omega

end Text

namespace Token

open Identifier (isTokenStart isTokenPart)
open scoped Computability

variable {c quote : Char} {text rest body front line : Text} {kind : TokenKind} {base : Nat}
  {tokens : List Token} {first part : Char → Bool}

/-! ## Patterns -/

/-- One character of a class. -/
def one (part : Char → Bool) : Language Char :=
  {text | ∃ c, part c = true ∧ text = [c]}

/-- One character of a class, and any number of those it goes on with. -/
def run (first part : Char → Bool) : Language Char :=
  one first * (one part)∗

/-- A literal: escapes with what they escape, but never with a line feed, and the closing quote if any. -/
def literal (quote : Char) : Language Char :=
  one (· == quote) *
    ((one fun c => !isEscape c && c != quote) + one isEscape * one (· != '\n'))∗ *
    (1 + one (· == quote))

/-- The texts that are a token of the kind. No text is an unknown one. -/
def pattern [Alphabets] : TokenKind → Language Char
  | .directive => one (· == '#') * (one isSpacing)∗ * run isDirectiveLetter isDirectiveLetter
  | .identifier => run isTokenStart isTokenPart
  | .number => run Char.isDigit isNumberPart
  | .string => literal '"'
  | .character => literal '\''
  | .openParen => one (· == '(')
  | .closeParen => one (· == ')')
  | .openBrace => one (· == '{')
  | .closeBrace => one (· == '}')
  | .openBracket => one (· == '[')
  | .closeBracket => one (· == ']')
  | .comma => one (· == ',')
  | .semicolon => one (· == ';')
  | .colon => one (· == ':')
  | .dot => one (· == '.')
  | .ellipsis => one (· == '.') * one (· == '.') * one (· == '.')
  | .backslash => one (· == '\\')
  | .operator => run isOperator isOperator
  | .unknown => 0

theorem mem_one : text ∈ one part ↔ ∃ c, part c = true ∧ text = [c] :=
  Iff.rfl

theorem mem_one_beq {mark : Char} : text ∈ one (· == mark) ↔ text = [mark] := by
  rw [mem_one]
  constructor
  · rintro ⟨c, same, rfl⟩
    rw [beq_iff_eq.mp same]
  · rintro rfl
    exact ⟨mark, beq_self_eq_true mark, rfl⟩

theorem mem_star_one : text ∈ (one part)∗ ↔ ∀ c ∈ text, part c = true := by
  rw [Language.mem_kstar]
  constructor
  · rintro ⟨pieces, rfl, each⟩ c member
    obtain ⟨piece, inside, member⟩ := List.mem_flatten.mp member
    obtain ⟨d, holds, rfl⟩ := each piece inside
    rwa [List.mem_singleton.mp member]
  · intro each
    refine ⟨text.map fun c => [c], ?_, fun piece member => ?_⟩
    · rw [← List.flatMap_def, List.flatMap_singleton']
    · obtain ⟨c, inside, rfl⟩ := List.mem_map.mp member
      exact ⟨c, each c inside, rfl⟩

theorem mem_run :
    text ∈ run first part ↔
      ∃ c more, first c = true ∧ (∀ d ∈ more, part d = true) ∧ text = c :: more := by
  rw [run, Language.mem_mul]
  constructor
  · rintro ⟨_, ⟨c, begins, rfl⟩, more, goes, rfl⟩
    exact ⟨c, more, begins, mem_star_one.mp goes, rfl⟩
  · rintro ⟨c, more, begins, goes, rfl⟩
    exact ⟨[c], ⟨c, begins, rfl⟩, more, mem_star_one.mpr goes, rfl⟩

theorem mem_directive [Alphabets] :
    text ∈ pattern .directive ↔ ∃ spacing word, (∀ c ∈ spacing, isSpacing c = true) ∧
      (∀ c ∈ word, isDirectiveLetter c = true) ∧ word ≠ [] ∧ text = '#' :: (spacing ++ word) := by
  simp only [pattern, Language.mem_mul, mem_one_beq, mem_star_one, mem_run]
  constructor
  · rintro ⟨_, ⟨_, rfl, spacing, spaces, rfl⟩, _, ⟨c, more, begins, goes, rfl⟩, rfl⟩
    exact ⟨spacing, c :: more, spaces, List.forall_mem_cons.mpr ⟨begins, goes⟩, List.cons_ne_nil _ _, rfl⟩
  · rintro ⟨spacing, word, spaces, letters, filled, rfl⟩
    obtain ⟨c, more, rfl⟩ := List.exists_cons_of_ne_nil filled
    obtain ⟨begins, goes⟩ := List.forall_mem_cons.mp letters
    exact ⟨_, ⟨_, rfl, spacing, spaces, rfl⟩, _, ⟨c, more, begins, goes, rfl⟩, rfl⟩

theorem mem_ellipsis [Alphabets] : text ∈ pattern .ellipsis ↔ text = ['.', '.', '.'] := by
  simp only [pattern, Language.mem_mul, mem_one_beq]
  constructor
  · rintro ⟨_, ⟨_, rfl, _, rfl, rfl⟩, _, rfl, rfl⟩
    rfl
  · rintro rfl
    exact ⟨_, ⟨_, rfl, _, rfl, rfl⟩, _, rfl, rfl⟩

theorem LiteralBody.append {more : Text} (inside : LiteralBody quote body)
    (behind : LiteralBody quote more) : LiteralBody quote (body ++ more) := by
  induction inside with
  | nil => exact behind
  | plain other plain _ ih => exact .plain other plain ih
  | escaped escapes inside _ ih => exact .escaped escapes inside ih

theorem mem_star_literalBody :
    body ∈ ((one fun c => !isEscape c && c != quote) + one isEscape * one (· != '\n'))∗ ↔
      LiteralBody quote body := by
  constructor
  · rw [Language.mem_kstar]
    rintro ⟨pieces, rfl, each⟩
    induction pieces with
    | nil => exact .nil
    | cons piece pieces ih =>
      obtain ⟨here, below⟩ := List.forall_mem_cons.mp each
      refine LiteralBody.append ?_ (ih below)
      rw [Language.mem_add, Language.mem_mul] at here
      rcases here with ⟨c, holds, rfl⟩ | ⟨_, ⟨c, escapes, rfl⟩, _, ⟨d, other, rfl⟩, rfl⟩
      · rw [Bool.and_eq_true, Bool.not_eq_true', bne_iff_ne] at holds
        exact .plain holds.2 holds.1 .nil
      · exact .escaped escapes (bne_iff_ne.mp other) .nil
  · intro inside
    induction inside with
    | nil => exact Language.nil_mem_kstar _
    | @plain c rest other plain _ ih =>
      rw [← Language.one_add_self_mul_kstar_eq_kstar]
      refine .inr (Language.mem_mul.mpr ⟨[c], .inl ⟨c, ?_, rfl⟩, rest, ih, rfl⟩)
      rw [Bool.and_eq_true, Bool.not_eq_true', bne_iff_ne]
      exact ⟨plain, other⟩
    | @escaped c d rest escapes inside _ ih =>
      rw [← Language.one_add_self_mul_kstar_eq_kstar]
      refine .inr (Language.mem_mul.mpr ⟨[c, d], .inr ?_, rest, ih, rfl⟩)
      exact Language.mem_mul.mpr ⟨[c], ⟨c, escapes, rfl⟩, [d], ⟨d, bne_iff_ne.mpr inside, rfl⟩, rfl⟩

theorem mem_literal :
    text ∈ literal quote ↔ ∃ body, LiteralBody quote body ∧
      (text = quote :: body ∨ text = quote :: (body ++ [quote])) := by
  rw [literal, Language.mem_mul]
  simp only [Language.mem_mul, mem_one_beq, mem_star_literalBody, Language.mem_add, Language.mem_one]
  constructor
  · rintro ⟨_, ⟨_, rfl, body, inside, rfl⟩, _, rfl | rfl, rfl⟩
    · exact ⟨body, inside, .inl (List.append_nil _)⟩
    · exact ⟨body, inside, .inr rfl⟩
  · rintro ⟨body, inside, rfl | rfl⟩
    · exact ⟨_, ⟨_, rfl, body, inside, rfl⟩, [], .inl rfl, List.append_nil _⟩
    · exact ⟨_, ⟨_, rfl, body, inside, rfl⟩, [quote], .inr rfl, rfl⟩

theorem pattern_of_mark [Alphabets] {mark : Char} (marks : mark? kind = some mark) :
    pattern kind = one (· == mark) := by
  cases kind <;> cases marks <;> rfl

/-- No pattern matches the empty text. -/
theorem nil_notMem_pattern [Alphabets] (kind : TokenKind) : [] ∉ pattern kind := by
  intro matched
  cases marks : mark? kind with
  | some mark =>
    rw [pattern_of_mark marks, mem_one_beq] at matched
    cases matched
  | none =>
    cases kind with
    | directive => obtain ⟨_, _, -, -, -, empty⟩ := mem_directive.mp matched; cases empty
    | identifier => obtain ⟨_, _, -, -, empty⟩ := mem_run.mp matched; cases empty
    | number => obtain ⟨_, _, -, -, empty⟩ := mem_run.mp matched; cases empty
    | operator => obtain ⟨_, _, -, -, empty⟩ := mem_run.mp matched; cases empty
    | string => obtain ⟨_, -, empty | empty⟩ := mem_literal.mp matched <;> cases empty
    | character => obtain ⟨_, -, empty | empty⟩ := mem_literal.mp matched <;> cases empty
    | dot => cases mem_one_beq.mp matched
    | ellipsis => cases mem_ellipsis.mp matched
    | unknown => exact Language.notMem_zero _ matched
    | _ => cases marks

/-! ## The longest match -/

theorem isSpacing_of_isDirectiveLetter (letter : isDirectiveLetter c = true) : isSpacing c = false := by
  refine Bool.eq_false_iff.mpr fun spacing => ?_
  rw [isSpacing, Bool.or_eq_true, beq_iff_eq, beq_iff_eq] at spacing
  rcases spacing with rfl | rfl <;> cases letter

theorem afterHash_of_word {spacing word : Text} (spaces : ∀ c ∈ spacing, isSpacing c = true)
    (letters : ∀ c ∈ word, isDirectiveLetter c = true) (filled : word ≠ []) (behind : Text) :
    afterHash (spacing ++ (word ++ behind)) =
      (.directive, spacing ++ (word ++ behind.takeWhile isDirectiveLetter)) := by
  obtain ⟨c, more, rfl⟩ := List.exists_cons_of_ne_nil filled
  have run : (spacing ++ (c :: more ++ behind)).takeWhile isSpacing = spacing :=
    Text.takeWhile_run spaces fun d first => by
      obtain rfl := Option.some.inj first
      exact isSpacing_of_isDirectiveLetter (letters _ List.mem_cons_self)
  rw [afterHash, run, List.drop_left, List.takeWhile_append_of_pos letters]
  rfl

theorem prefix_run {more : Text} (matched : c :: more ∈ run first part) (prior : more <+: rest) :
    first c = true ∧ more <+: rest.takeWhile part := by
  obtain ⟨behind, rfl⟩ := prior
  obtain ⟨d, more', begins, goes, same⟩ := mem_run.mp matched
  obtain ⟨rfl, rfl⟩ := List.cons.inj same
  rw [List.takeWhile_append_of_pos goes]
  exact ⟨begins, List.prefix_append _ _⟩

theorem prefix_literalTail {more : Text} (free : isEscape quote = false)
    (matched : c :: more ∈ literal quote) (prior : more <+: rest) :
    c = quote ∧ more <+: literalTail quote rest := by
  obtain ⟨behind, rfl⟩ := prior
  obtain ⟨body, inside, same | same⟩ := mem_literal.mp matched
  · obtain ⟨rfl, rfl⟩ := List.cons.inj same
    rw [literalTail_body inside]
    exact ⟨rfl, List.prefix_append _ _⟩
  · obtain ⟨rfl, rfl⟩ := List.cons.inj same
    rw [List.append_assoc, List.singleton_append, literalTail_closed free inside]
    exact ⟨rfl, List.prefix_refl _⟩

/-- What a pattern matches is no longer than the token there, and of another kind only if it is shorter. -/
theorem longest_of_mem [Alphabets] {more : Text} (matched : c :: more ∈ pattern kind)
    (prior : more <+: rest) :
    more <+: (longest c rest).2 ∧ ((longest c rest).1 = kind ∨
      kind = .dot ∧ (longest c rest).1 = .ellipsis ∧ more.length < (longest c rest).2.length) := by
  cases marks : mark? kind with
  | some mark =>
    rw [pattern_of_mark marks, mem_one_beq] at matched
    obtain ⟨rfl, rfl⟩ := List.cons.inj matched
    rw [longest_of_mark marks]
    exact ⟨List.prefix_refl _, .inl rfl⟩
  | none =>
    cases kind with
    | directive =>
      obtain ⟨spacing, word, spaces, letters, filled, same⟩ := mem_directive.mp matched
      obtain ⟨rfl, rfl⟩ := List.cons.inj same
      obtain ⟨behind, rfl⟩ := prior
      rw [longest, if_pos rfl, List.append_assoc, afterHash_of_word spaces letters filled]
      exact ⟨⟨_, List.append_assoc _ _ _⟩, .inl rfl⟩
    | identifier =>
      obtain ⟨begins, inside⟩ := prefix_run matched prior
      rw [longest_of_isTokenStart begins]
      exact ⟨inside, .inl rfl⟩
    | number =>
      obtain ⟨begins, inside⟩ := prefix_run matched prior
      rw [longest_of_isDigit begins]
      exact ⟨inside, .inl rfl⟩
    | operator =>
      obtain ⟨begins, inside⟩ := prefix_run matched prior
      rw [longest_of_isOperator begins]
      exact ⟨inside, .inl rfl⟩
    | string =>
      obtain ⟨rfl, inside⟩ := prefix_literalTail (by decide) matched prior
      exact ⟨inside, .inl rfl⟩
    | character =>
      obtain ⟨rfl, inside⟩ := prefix_literalTail (by decide) matched prior
      exact ⟨inside, .inl rfl⟩
    | dot =>
      obtain ⟨rfl, rfl⟩ := List.cons.inj (mem_one_beq.mp matched)
      refine ⟨List.nil_prefix, ?_⟩
      rw [longest, if_neg (by decide), if_neg (by decide), if_neg (by decide), if_pos rfl]
      split
      · exact .inr ⟨rfl, rfl, by decide⟩
      · exact .inl rfl
    | ellipsis =>
      obtain ⟨rfl, rfl⟩ := List.cons.inj (mem_ellipsis.mp matched)
      obtain ⟨behind, rfl⟩ := prior
      exact ⟨List.prefix_refl _, .inl rfl⟩
    | unknown => exact absurd matched (Language.notMem_zero _)
    | _ => cases marks

/-- What a literal takes is a body, and its closing quote if there is one. -/
theorem exists_literalTail (quote : Char) (text : Text) :
    ∃ body, LiteralBody quote body ∧
      (literalTail quote text = body ∨ literalTail quote text = body ++ [quote]) := by
  fun_induction literalTail quote text with
  | case1 => exact ⟨[], .nil, .inl rfl⟩
  | case2 => exact ⟨[], .nil, .inl rfl⟩
  | case3 => exact ⟨[], .nil, .inl rfl⟩
  | case4 c escapes escaped rest inside ih =>
    obtain ⟨body, literal, same | same⟩ := ih
    · exact ⟨c :: escaped :: body, .escaped escapes inside literal, .inl (by rw [same])⟩
    · exact ⟨c :: escaped :: body, .escaped escapes inside literal, .inr (by rw [same]; rfl)⟩
  | case5 => exact ⟨[], .nil, .inr rfl⟩
  | case6 c rest plain other ih =>
    obtain ⟨body, literal, same | same⟩ := ih
    · exact ⟨c :: body, .plain other (Bool.eq_false_iff.mpr plain) literal, .inl (by rw [same])⟩
    · exact ⟨c :: body, .plain other (Bool.eq_false_iff.mpr plain) literal, .inr (by rw [same]; rfl)⟩

theorem literalTail_mem (quote : Char) (rest : Text) :
    quote :: literalTail quote rest ∈ literal quote := by
  obtain ⟨body, inside, same⟩ := exists_literalTail quote rest
  exact mem_literal.mpr ⟨body, inside, same.imp (congrArg _) (congrArg _)⟩

theorem afterHash_mem [Alphabets] (word : (afterHash rest).1 = .directive) :
    '#' :: (afterHash rest).2 ∈ pattern .directive := by
  refine mem_directive.mpr ⟨_, _, List.all_eq_true.mp List.all_takeWhile,
    List.all_eq_true.mp List.all_takeWhile, fun empty => ?_, rfl⟩
  rw [afterHash, empty] at word
  cases word

theorem mark_of_punctuation (single : punctuation? c = some kind) : mark? kind = some c := by
  unfold punctuation? at single
  split at single <;> cases single <;> rfl

/-- A run begins with the first class of its pattern. -/
theorem run_mem [Alphabets] (isRun : (kind, part) ∈ runs)
    (always : ∀ other, longest c other = (kind, other.takeWhile part)) (rest : Text) :
    c :: rest.takeWhile part ∈ pattern kind := by
  have goes : ∀ d ∈ rest.takeWhile part, part d = true := List.all_eq_true.mp List.all_takeWhile
  have found := always []
  simp only [runs, List.mem_cons, List.not_mem_nil, or_false, Prod.mk.injEq] at isRun
  rcases isRun with ⟨rfl, rfl⟩ | ⟨rfl, rfl⟩ | ⟨rfl, rfl⟩
  · exact mem_run.mpr ⟨c, _, by unfold longest afterHash punctuation? at found; grind, goes, rfl⟩
  · exact mem_run.mpr ⟨c, _, (longest_identifier found).1, goes, rfl⟩
  · exact mem_run.mpr ⟨c, _, by unfold longest afterHash punctuation? at found; grind, goes, rfl⟩

/-- A token that is not unknown matches the pattern of its kind. -/
theorem mem_pattern_longest [Alphabets] (known : (longest c rest).1 ≠ .unknown) :
    c :: (longest c rest).2 ∈ pattern (longest c rest).1 := by
  have rule := rule_longest c rest
  revert known rule
  generalize (longest c rest).1 = kind
  generalize (longest c rest).2 = text
  intro known rule
  cases rule with
  | hash same other always =>
    subst same
    obtain rfl := other.resolve_left known
    exact afterHash_mem always
  | literal quotes literal always =>
    have found := always []
    rw [isQuote, Bool.or_eq_true, beq_iff_eq, beq_iff_eq] at quotes
    rcases quotes with rfl | rfl <;> cases found <;> exact literalTail_mem _ rest
  | ellipsis same => exact mem_ellipsis.mpr (by rw [same])
  | dot same => exact mem_one_beq.mpr (by rw [same])
  | run isRun first always => exact run_mem isRun always rest
  | single plain same always =>
    cases single : punctuation? c with
    | none =>
      rw [single] at same
      exact absurd same.symm known
    | some kind' =>
      rw [single] at same
      obtain rfl : kind' = kind := same
      rw [pattern_of_mark (mark_of_punctuation single), mem_one_beq]

theorem afterHash_unknown (wordless : (afterHash rest).1 = .unknown) :
    ∀ d ∈ (afterHash rest).2, isSpacing d = true := by
  unfold afterHash at wordless ⊢
  dsimp only at wordless ⊢
  split at wordless
  case isTrue empty =>
    rw [List.isEmpty_iff.mp empty, List.append_nil]
    exact List.all_eq_true.mp List.all_takeWhile
  case isFalse => cases wordless

theorem afterHash_spacing (spaces : ∀ d ∈ text, isSpacing d = true) :
    afterHash text = (.unknown, text) := by
  have run : text.takeWhile isSpacing = text := List.takeWhile_eq_self_iff.mpr spaces
  rw [afterHash, run, List.drop_length]
  exact congrArg _ (List.append_nil text)

/-- An unknown token is a `#` without a word, or a character that begins no token. -/
theorem longest_unknown [Alphabets] (found : longest c rest = (.unknown, text)) :
    c = '#' ∧ (∀ d ∈ text, isSpacing d = true) ∨ ∀ other, longest c other = (.unknown, text) := by
  have rule := rule_longest c rest
  rw [found] at rule
  generalize unknown : TokenKind.unknown = kind at *
  cases rule with
  | hash same other always =>
    exact .inl ⟨same, afterHash_unknown (always.trans unknown.symm)⟩
  | single plain same always => exact .inr always
  | literal quotes literal => rcases literal with rfl | rfl <;> cases unknown
  | ellipsis => cases unknown
  | dot => cases unknown
  | run isRun =>
    have others : ∀ entry ∈ runs, entry.1 ≠ .unknown := by simp [runs]
    exact absurd unknown.symm (others _ isRun)

/-- A token by itself is the same token. -/
theorem longest_self [Alphabets] (found : longest c (text ++ rest) = (kind, text)) :
    longest c text = (kind, text) := by
  by_cases known : kind = .unknown
  · subst known
    rcases longest_unknown found with ⟨rfl, spaces⟩ | always
    · rw [longest, if_pos rfl, afterHash_spacing spaces]
    · exact always text
  · have matched : c :: text ∈ pattern kind := by
      have matched : c :: (longest c (text ++ rest)).2 ∈ pattern (longest c (text ++ rest)).1 :=
        mem_pattern_longest (by rwa [found])
      rwa [found] at matched
    have inside := longest_prefix c text
    obtain ⟨longer, same | ⟨rfl, same, shorter⟩⟩ := longest_of_mem matched (List.prefix_refl text)
    · exact Prod.ext same (longer.eq_of_length_le inside.length_le).symm
    · exact absurd shorter (Nat.not_lt.mpr inside.length_le)

/-- What the patterns say about a text: its longest match, which is of one kind only, or that none matches. -/
inductive LongestMatch [Alphabets] (text : Text) : TokenKind → Text → Prop where
  | matched {kind : TokenKind} {front : Text} (prior : front <+: text) (member : front ∈ pattern kind)
      (most : ∀ kind' front', front' <+: text → front' ∈ pattern kind' →
        front'.length < front.length ∨ front' = front ∧ kind' = kind) : LongestMatch text kind front
  | unmatched {front : Text} (none : ∀ kind' front', front' <+: text → front' ∉ pattern kind') :
      LongestMatch text .unknown front

/-- The longest token is the longest match. -/
theorem longest_matches [Alphabets] (found : longest c rest = (kind, text)) :
    LongestMatch (c :: rest) kind (c :: text) := by
  have inside {kind' : TokenKind} {front : Text} (prior : front <+: c :: rest)
      (member : front ∈ pattern kind') : ∃ more, front = c :: more ∧ more <+: rest := by
    cases front with
    | nil => exact absurd member (nil_notMem_pattern kind')
    | cons d more =>
      obtain ⟨rfl, behind⟩ := List.cons_prefix_cons.mp prior
      exact ⟨more, rfl, behind⟩
  by_cases known : kind = .unknown
  · subst known
    refine .unmatched fun kind' front prior member => ?_
    obtain ⟨more, rfl, behind⟩ := inside prior member
    obtain ⟨-, same | ⟨-, same, -⟩⟩ := longest_of_mem member behind
    · rw [found] at same
      exact Language.notMem_zero _ (same ▸ member)
    · rw [found] at same
      cases same
  · have member : c :: (longest c rest).2 ∈ pattern (longest c rest).1 :=
      mem_pattern_longest (by rwa [found])
    have prior := longest_prefix c rest
    rw [found] at member prior
    refine .matched (List.cons_prefix_cons.mpr ⟨rfl, prior⟩) member fun kind' front prior' member' => ?_
    obtain ⟨more, rfl, behind⟩ := inside prior' member'
    have longer := longest_of_mem member' behind
    rw [found] at longer
    obtain ⟨longer, same | ⟨-, -, shorter⟩⟩ := longer
    · rcases Nat.lt_or_ge more.length text.length with shorter | long
      · exact .inl (Nat.succ_lt_succ shorter)
      · exact .inr ⟨by rw [longer.eq_of_length_le long], same.symm⟩
    · exact .inl (Nat.succ_lt_succ shorter)

/-! ## Tiles -/

/-- Each token stands in its line where it says, behind no gap of its own. -/
theorem Lexed.mem [Alphabets] {token : Token} (lexed : Lexed base line tokens) (member : token ∈ tokens) :
    ∃ before c text after, line = before ++ (c :: (text ++ after)) ∧
      token = ⟨token.kind, c :: text, base + before.length⟩ ∧ isGap c = false ∧
      longest c (text ++ after) = (token.kind, text) := by
  induction lexed with
  | nil => cases member
  | @gap base c rest tokens blank later ih =>
    obtain ⟨before, d, text, after, rfl, same, solid, found⟩ := ih member
    refine ⟨c :: before, d, text, after, rfl, ?_, solid, found⟩
    rw [same, List.length_cons, Nat.add_right_comm, Nat.add_assoc]
  | @token base c kind text rest tokens solid found later ih =>
    rcases List.mem_cons.mp member with rfl | member
    · exact ⟨[], c, text, rest, rfl, rfl, solid, found⟩
    · obtain ⟨before, d, text', after, rfl, same, solid', found'⟩ := ih member
      refine ⟨c :: (text ++ before), d, text', after, by simp, ?_, solid', found'⟩
      rw [same, List.length_cons, List.length_append]
      congr 1
      omega

theorem Lexed.ordered [Alphabets] (lexed : Lexed base line tokens) :
    tokens.Pairwise fun token next => token.stop ≤ next.start := by
  induction lexed with
  | nil => exact .nil
  | gap _ _ ih => exact ih
  | token _ _ later ih =>
    refine List.pairwise_cons.mpr ⟨fun next member => ?_, ih⟩
    have start := later.le_start next member
    simp only [stop, List.length_cons]
    omega

/-- A character of the line stands in a token, or is a gap. -/
theorem Lexed.gap_or_mem [Alphabets] {before after : Text} (lexed : Lexed base line tokens)
    (whole : line = before ++ c :: after) :
    isGap c = true ∨ ∃ token ∈ tokens, token.start ≤ base + before.length ∧
      base + before.length < token.stop := by
  induction lexed generalizing before with
  | nil => simp at whole
  | @gap base d rest tokens blank later ih =>
    cases before with
    | nil =>
      obtain ⟨rfl, -⟩ := List.cons.inj whole
      exact .inl blank
    | cons e before =>
      obtain ⟨-, behind⟩ := List.cons.inj whole
      rw [List.length_cons, ← Nat.add_assoc, Nat.add_right_comm]
      exact ih behind
  | @token base d kind text rest tokens solid found later ih =>
    by_cases inside : before.length < (d :: text).length
    · exact .inr ⟨_, List.mem_cons_self, Nat.le_add_right _ _, Nat.add_lt_add_left inside base⟩
    · have begins : d :: text <+: before ++ c :: after := ⟨rest, whole⟩
      have front : d :: text <+: before :=
        List.prefix_of_prefix_length_le begins (List.prefix_append _ _) (Nat.not_lt.mp inside)
      obtain ⟨before', rfl⟩ := front
      rw [← List.cons_append, List.append_assoc, List.append_cancel_left_eq] at whole
      refine (ih whole).imp_right ?_
      rintro ⟨token, member, bounds⟩
      refine ⟨token, List.mem_cons_of_mem _ member, ?_⟩
      have place : base + 1 + text.length + before'.length = base + (d :: text ++ before').length := by
        rw [List.length_append, List.length_cons]
        omega
      rwa [place] at bounds

/-- The bytes of a token are those of the line between its ends. -/
theorem byteRange_ofLine [Alphabets] {token : Token} (member : token ∈ ofLine line) :
    token.byteRange line =
      (Text.byteLength (line.take token.start), Text.byteLength (line.take token.stop)) := by
  obtain ⟨before, c, text, after, rfl, same, -, -⟩ := (lexed_ofLine line).mem member
  rw [same, byteRange, stop, Nat.zero_add, ← Text.byteLength_append, List.take_left,
    ← List.length_append, ← List.cons_append, ← List.append_assoc, List.take_left]

/--
The tokens of a line stand one behind the other. Each is the text of its bytes, is not empty, is what the
patterns say about the rest of the line from there on, and is the only token of its own text; and what
stands in no token is a space, a tab, a carriage return or a form feed.
-/
theorem ofLine_tiles [Alphabets] (line : Text) :
    (ofLine line).Pairwise (fun token next => (token.byteRange line).2 ≤ (next.byteRange line).1) ∧
    (∀ token ∈ ofLine line, ∃ before after, line = before ++ (token.text ++ after) ∧
      token.start = before.length ∧
      token.byteRange line = (Text.byteLength before, Text.byteLength (before ++ token.text)) ∧
      token.text ≠ [] ∧ LongestMatch (token.text ++ after) token.kind token.text ∧
      ofLine token.text = [⟨token.kind, token.text, 0⟩]) ∧
    ∀ before c after, line = before ++ c :: after →
      c ∈ [' ', '\t', '\r', '\x0c'] ∨ ∃ token ∈ ofLine line,
        (token.byteRange line).1 ≤ Text.byteLength before ∧
          Text.byteLength before < (token.byteRange line).2 := by
  have lexed := lexed_ofLine line
  refine ⟨?_, fun token member => ?_, fun before c after whole => ?_⟩
  · refine lexed.ordered.imp_of_mem fun {token next} member member' ordered => ?_
    rw [byteRange_ofLine member, byteRange_ofLine member']
    exact Text.byteLength_le (List.take_prefix_take_left ordered)
  · obtain ⟨before, c, text, after, rfl, same, solid, found⟩ := lexed.mem member
    obtain ⟨kind, text', start⟩ := token
    obtain ⟨-, rfl, rfl⟩ := Token.mk.inj same
    have closed : longest c (text ++ []) = (kind, text) := by rw [List.append_nil, longest_self found]
    have alone : scan 0 0 (c :: (text ++ [])) = [⟨kind, c :: text, 0⟩] := scan_token solid closed
    rw [List.append_nil] at alone
    refine ⟨before, after, rfl, Nat.zero_add _, ?_, List.cons_ne_nil _ _, longest_matches found, alone⟩
    rw [byteRange, Nat.zero_add, List.take_left, Text.byteLength_append]
  · refine (lexed.gap_or_mem whole).imp (fun blank => ?_) ?_
    · simpa [isGap, or_assoc] using blank
    · rintro ⟨token, member, start, stop⟩
      rw [Nat.zero_add] at start stop
      refine ⟨token, member, ?_⟩
      rw [byteRange_ofLine member, whole]
      refine ⟨?_, Text.byteLength_lt_take stop⟩
      rw [List.take_append_of_le_length start]
      exact Text.byteLength_le (List.take_prefix _ _)

open scoped Identifier.European

/-- A `#` without a word, a number that goes on over a dot, and a literal before a lone escape. -/
theorem ofLine_tiles_lone_escape :
    ofLine ['#', ' ', '1', '.', '\t', '"', '^'] =
      [⟨.unknown, ['#', ' '], 0⟩, ⟨.number, ['1', '.'], 2⟩, ⟨.string, ['"'], 5⟩,
        ⟨.operator, ['^'], 6⟩] ∧
    ofLine ['"'] = [⟨.string, ['"'], 0⟩] ∧
    ('\t' ∈ [' ', '\t', '\r', '\x0c'] ∨ ∃ token ∈ ofLine ['#', ' ', '1', '.', '\t', '"', '^'],
      (token.byteRange ['#', ' ', '1', '.', '\t', '"', '^']).1 ≤
          Text.byteLength ['#', ' ', '1', '.'] ∧
        Text.byteLength ['#', ' ', '1', '.'] <
          (token.byteRange ['#', ' ', '1', '.', '\t', '"', '^']).2) := by
  have cut : ofLine ['#', ' ', '1', '.', '\t', '"', '^'] =
      [⟨.unknown, ['#', ' '], 0⟩, ⟨.number, ['1', '.'], 2⟩, ⟨.string, ['"'], 5⟩,
        ⟨.operator, ['^'], 6⟩] := by decide +kernel
  obtain ⟨-, each, gaps⟩ := ofLine_tiles ['#', ' ', '1', '.', '\t', '"', '^']
  have member : ⟨.string, ['"'], 5⟩ ∈ ofLine ['#', ' ', '1', '.', '\t', '"', '^'] := by
    rw [cut]
    simp
  obtain ⟨_, _, -, -, -, -, -, alone⟩ := each _ member
  exact ⟨cut, alone, gaps ['#', ' ', '1', '.'] '\t' ['"', '^'] rfl⟩

end Token

end PawnScope
