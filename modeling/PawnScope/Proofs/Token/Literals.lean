import Mathlib.Data.List.TakeWhile
import PawnScope.Cursor.Literal
import PawnScope.Proofs.Token.Tiling
/-!
The literals of a line, as its tokens and as the mask of its characters: `getElem?_mask`. Where the two
differ is at the end of the line, where an escape without a character to escape is no part of the token
before it (`LoneEscape`).
-/

namespace PawnScope.Token

open Identifier (isTokenStart isTokenPart)

variable {c d quote : Char} {text rest body line : Text} {kind : TokenKind}

/-! ## The rest of a literal -/

/-- What stands between the quotes of a literal. -/
inductive LiteralBody (quote : Char) : Text → Prop where
  | nil : LiteralBody quote []
  | plain {c : Char} {rest : Text} (other : c ≠ quote) (plain : isEscape c = false)
      (more : LiteralBody quote rest) : LiteralBody quote (c :: rest)
  | escaped {c escaped : Char} {rest : Text} (escapes : isEscape c = true)
      (inside : escaped ≠ '\n') (more : LiteralBody quote rest) :
      LiteralBody quote (c :: escaped :: rest)

/-- The ways in which a text goes on behind an opening quote, and what of it belongs to the literal. -/
inductive LiteralRest (quote : Char) : Text → Text → Prop where
  | closed {body rest : Text} (inside : LiteralBody quote body) :
      LiteralRest quote (body ++ quote :: rest) (body ++ [quote])
  | unclosed {body : Text} (inside : LiteralBody quote body) : LiteralRest quote body body
  | lone {body : Text} {c : Char} (inside : LiteralBody quote body) (escapes : isEscape c = true) :
      LiteralRest quote (body ++ [c]) body

/-- A character or an escaped one before the rest. -/
theorem LiteralRest.prepend {tail : Text} (front : Text) (found : LiteralRest quote rest tail)
    (more : ∀ body, LiteralBody quote body → LiteralBody quote (front ++ body)) :
    LiteralRest quote (front ++ rest) (front ++ tail) := by
  cases found with
  | closed inside =>
    rw [← List.append_assoc, ← List.append_assoc]
    exact .closed (more _ inside)
  | unclosed inside => exact .unclosed (more _ inside)
  | lone inside escapes =>
    rw [← List.append_assoc]
    exact .lone (more _ inside) escapes

theorem literalRest_literalTail (quote : Char) (text : Text) (single : '\n' ∉ text) :
    LiteralRest quote text (literalTail quote text) := by
  fun_induction literalTail quote text with
  | case1 => exact .unclosed .nil
  | case2 c escapes => exact .lone .nil escapes
  | case3 c _ rest => simp at single
  | case4 c escapes escaped rest inside ih =>
    exact (ih fun member => single (by simp [member])).prepend [c, escaped]
      fun _ => .escaped escapes inside
  | case5 rest => exact .closed .nil
  | case6 c rest plain other ih =>
    exact (ih fun member => single (by simp [member])).prepend [c]
      fun _ => .plain other (Bool.eq_false_iff.mpr plain)

theorem literalBody_plain (free : isEscape c = false) :
    LiteralBody quote (c :: rest) ↔ c ≠ quote ∧ LiteralBody quote rest := by
  constructor
  · rintro (_ | ⟨other, -, more⟩ | ⟨escapes, -, -⟩)
    · exact ⟨other, more⟩
    · simp [free] at escapes
  · rintro ⟨other, more⟩
    exact .plain other free more

theorem literalBody_escaped (escapes : isEscape c = true) :
    LiteralBody quote (c :: d :: rest) ↔ d ≠ '\n' ∧ LiteralBody quote rest := by
  constructor
  · rintro (_ | ⟨-, free, -⟩ | ⟨-, inside, more⟩)
    · simp [free] at escapes
    · exact ⟨inside, more⟩
  · rintro ⟨inside, more⟩
    exact .escaped escapes inside more

/-- A literal that has been closed goes no further. -/
theorem not_literalBody_closed (free : isEscape quote = false) (inside : LiteralBody quote body) :
    ¬LiteralBody quote (body ++ [quote]) := by
  induction inside with
  | nil => exact fun closed => ((literalBody_plain free).mp closed).1 rfl
  | plain _ plain _ ih => exact fun closed => ih ((literalBody_plain plain).mp closed).2
  | escaped escapes _ _ ih => exact fun closed => ih ((literalBody_escaped escapes).mp closed).2

theorem isEscape_of_isQuote (quotes : isQuote c = true) : isEscape c = false := by
  rw [isQuote, Bool.or_eq_true, beq_iff_eq, beq_iff_eq] at quotes
  rcases quotes with rfl | rfl <;> decide

/-! ## Literals among the tokens -/

def isLiteral (token : Token) : Bool :=
  token.kind == .string || token.kind == .character

/-- A literal that ends with its line. -/
def Unclosed (token : Token) : Prop :=
  ∃ quote body, isQuote quote = true ∧ token.text = quote :: body ∧ LiteralBody quote body

/-- The offset lies in a literal token. -/
def InLiteral (tokens : List Token) (offset : Nat) : Prop :=
  ∃ token ∈ tokens, token.isLiteral = true ∧ token.start ≤ offset ∧ offset < token.stop

/-- An unclosed literal token ends at the offset. -/
def EndsUnclosed (tokens : List Token) (offset : Nat) : Prop :=
  ∃ token ∈ tokens, token.isLiteral = true ∧ token.Unclosed ∧ token.stop = offset

/-! ## How a token comes about -/

/-- The kinds of tokens that are runs of characters of one class, and these classes. -/
def runs [Alphabets] : List (TokenKind × (Char → Bool)) :=
  [(.number, isNumberPart), (.identifier, isTokenPart), (.operator, isOperator)]

/-- What the longest token at `c` is, by what begins with `c`. -/
inductive Rule [Alphabets] (c : Char) (rest : Text) : TokenKind → Text → Prop where
  | hash {kind : TokenKind} (same : c = '#') (other : kind = .unknown ∨ kind = .directive)
      (always : (afterHash rest).1 = kind) : Rule c rest kind (afterHash rest).2
  | literal {kind : TokenKind} (quotes : isQuote c = true)
      (literal : kind = .string ∨ kind = .character)
      (always : ∀ other, longest c other = (kind, literalTail c other)) :
      Rule c rest kind (literalTail c rest)
  | ellipsis (same : c = '.') (more : rest.take 2 = ['.', '.']) : Rule c rest .ellipsis ['.', '.']
  | dot (same : c = '.') (alone : rest.take 2 ≠ ['.', '.']) : Rule c rest .dot []
  | run {kind : TokenKind} {part : Char → Bool} (isRun : (kind, part) ∈ runs)
      (first : part c = true) (always : ∀ other, longest c other = (kind, other.takeWhile part)) :
      Rule c rest kind (rest.takeWhile part)
  | single {kind : TokenKind} (plain : isQuote c = false)
      (same : (punctuation? c).getD .unknown = kind)
      (always : ∀ other, longest c other = (kind, [])) : Rule c rest kind []

theorem rule_longest [Alphabets] (c : Char) (rest : Text) :
    Rule c rest (longest c rest).1 (longest c rest).2 := by
  by_cases hash : c = '#'
  · rw [longest, if_pos hash]
    refine .hash hash ?_ rfl
    unfold afterHash
    dsimp only
    split
    · exact .inl rfl
    · exact .inr rfl
  by_cases string : c = '"'
  · have always (other : Text) : longest c other = (.string, literalTail c other) := by
      rw [longest, if_neg hash, if_pos string]
    rw [always]
    exact .literal (by rw [string]; rfl) (.inl rfl) always
  by_cases character : c = '\''
  · have always (other : Text) : longest c other = (.character, literalTail c other) := by
      rw [longest, if_neg hash, if_neg string, if_pos character]
    rw [always]
    exact .literal (by rw [character]; rfl) (.inr rfl) always
  by_cases dot : c = '.'
  · rw [longest, if_neg hash, if_neg string, if_neg character, if_pos dot]
    split
    case isTrue dots => exact .ellipsis dot dots
    case isFalse alone => exact .dot dot alone
  by_cases digit : c.isDigit = true
  · have always (other : Text) : longest c other = (.number, other.takeWhile isNumberPart) := by
      rw [longest, if_neg hash, if_neg string, if_neg character, if_neg dot, if_pos digit]
    rw [always]
    refine .run (by simp [runs]) ?_ always
    simp [isNumberPart, Char.isAlphanum, digit]
  by_cases name : isTokenStart c = true
  · have always (other : Text) : longest c other = (.identifier, other.takeWhile isTokenPart) := by
      rw [longest, if_neg hash, if_neg string, if_neg character, if_neg dot, if_neg digit,
        if_pos name]
    rw [always]
    exact .run (by simp [runs]) (Identifier.isTokenPart_of_isTokenStart name) always
  by_cases operator : isOperator c = true
  · have always (other : Text) : longest c other = (.operator, other.takeWhile isOperator) := by
      rw [longest, if_neg hash, if_neg string, if_neg character, if_neg dot, if_neg digit,
        if_neg name, if_pos operator]
    rw [always]
    exact .run (by simp [runs]) operator always
  · have always (other : Text) : longest c other = ((punctuation? c).getD .unknown, []) := by
      rw [longest, if_neg hash, if_neg string, if_neg character, if_neg dot, if_neg digit,
        if_neg name, if_neg operator]
    rw [always]
    exact .single (by simp [isQuote, string, character]) rfl always

/-- Quotes, brackets, the comma and the semicolon: what the cutting of a list depends on. -/
def structural : Text :=
  "\"'()[]{},;".toList

def isStructural (c : Char) : Bool :=
  structural.contains c

theorem isStructural_of_apart {part : Char → Bool} (apart : structural.all (fun d => !part d) = true)
    (inside : part c = true) : isStructural c = false := by
  rw [isStructural, List.contains_eq_mem, decide_eq_false_iff_not]
  intro member
  have outside := List.all_eq_true.mp apart c member
  simp [inside] at outside

theorem isStructural_of_part [Alphabets] {part : Char → Bool} (isRun : (kind, part) ∈ runs)
    (inside : part c = true) : isStructural c = false := by
  have apart : runs.all (fun entry => structural.all fun d => !entry.2 d) = true := rfl
  exact isStructural_of_apart (List.all_eq_true.mp apart _ isRun) inside

theorem isStructural_of_isQuote (quotes : isQuote c = true) : isStructural c = true := by
  rw [isQuote, Bool.or_eq_true, beq_iff_eq, beq_iff_eq] at quotes
  rcases quotes with rfl | rfl <;> decide

theorem isStructural_of_class {run : Text} {part : Char → Bool}
    (apart : ∀ c, part c = true → isStructural c = false) :
    ∀ d ∈ run.takeWhile part, isStructural d = false :=
  fun _ member => apart _ (List.mem_takeWhile_imp member)

theorem isStructural_of_isSpacing (spacing : isSpacing c = true) : isStructural c = false := by
  rw [isSpacing, Bool.or_eq_true, beq_iff_eq, beq_iff_eq] at spacing
  rcases spacing with rfl | rfl <;> decide

theorem isStructural_of_isDirectiveLetter [Alphabets] (letter : isDirectiveLetter c = true) :
    isStructural c = false := by
  have isRun : (TokenKind.number, isNumberPart) ∈ runs := by simp [runs]
  refine isStructural_of_part isRun ?_
  rw [isDirectiveLetter, Bool.or_eq_true] at letter
  rcases letter with letter | line
  · simp [isNumberPart, Char.isAlphanum, letter]
  · simp [isNumberPart, line]

theorem isStructural_of_isGap (blank : isGap c = true) : isStructural c = false := by
  simp only [isGap, Bool.or_eq_true, beq_iff_eq] at blank
  rcases blank with ((rfl | rfl) | rfl) | rfl <;> decide

theorem isQuote_of_isStructural (plain : isStructural c = false) : isQuote c = false :=
  Bool.eq_false_iff.mpr fun quotes =>
    Bool.false_ne_true (plain.symm.trans (isStructural_of_isQuote quotes))

/-- What follows `#` in a token. -/
theorem isStructural_afterHash [Alphabets] : ∀ d ∈ (afterHash rest).2, isStructural d = false := by
  intro d member
  rcases List.mem_append.mp member with spacing | word
  · exact isStructural_of_class (fun _ => isStructural_of_isSpacing) d spacing
  · exact isStructural_of_class (fun _ => isStructural_of_isDirectiveLetter) d word

theorem plain_of_longest [Alphabets] {base : Nat} (found : longest c rest = (kind, text))
    (other : isLiteral ⟨kind, c :: text, base⟩ = false) (unmarked : mark? kind = none) :
    ∀ d ∈ c :: text, isStructural d = false := by
  have rule := rule_longest c rest
  rw [found] at rule
  cases rule with
  | hash same =>
    subst same
    exact List.forall_mem_cons.mpr ⟨by decide, isStructural_afterHash⟩
  | literal quotes literal => rcases literal with rfl | rfl <;> contradiction
  | ellipsis same =>
    have dot : isStructural '.' = false := by decide
    rw [same]
    simp [dot]
  | dot same =>
    have dot : isStructural '.' = false := by decide
    rw [same]
    simp [dot]
  | run isRun first =>
    exact List.forall_mem_cons.mpr ⟨isStructural_of_part isRun first,
      isStructural_of_class fun _ => isStructural_of_part isRun⟩
  | single plain same =>
    subst same
    have marks : structural.all (fun d =>
        isQuote d || (mark? ((punctuation? d).getD .unknown)).isSome) = true := by decide
    refine List.forall_mem_singleton.mpr (Bool.eq_false_iff.mpr fun isStructural => ?_)
    have marked := List.all_eq_true.mp marks c (List.contains_iff_mem.mp isStructural)
    simp [plain, unmarked] at marked

/-- A token that is no literal is a mark, or contains nothing structural. -/
structure IsFlat (token : Token) : Prop where
  marked : ∀ mark, mark? token.kind = some mark → token.text = [mark]
  plain : mark? token.kind = none → ∀ c ∈ token.text, isStructural c = false

theorem isFlat_of_longest [Alphabets] {base : Nat} (found : longest c rest = (kind, text))
    (other : isLiteral ⟨kind, c :: text, base⟩ = false) : IsFlat ⟨kind, c :: text, base⟩ where
  marked mark marks := by rw [nil_of_mark found marks, (longest_mark found marks).1]
  plain unmarked := plain_of_longest found other unmarked

theorem isQuote_of_mark {mark : Char} (marks : mark? kind = some mark) : isQuote mark = false := by
  cases kind <;> first | cases marks; decide | cases marks

theorem literal_of_longest [Alphabets] {base : Nat} (found : longest c rest = (kind, text))
    (literal : isLiteral ⟨kind, c :: text, base⟩ = true) :
    isQuote c = true ∧ text = literalTail c rest := by
  have rule := rule_longest c rest
  rw [found] at rule
  cases rule with
  | literal quotes => exact ⟨quotes, rfl⟩
  | hash _ other => rcases other with rfl | rfl <;> contradiction
  | ellipsis => contradiction
  | dot => contradiction
  | run isRun =>
    have others : ∀ entry ∈ runs, entry.1 ≠ .string ∧ entry.1 ≠ .character := by simp [runs]
    simp [isLiteral, others _ isRun] at literal
  | single _ same =>
    subst same
    have other : (punctuation? c).getD .unknown ≠ .string ∧
        (punctuation? c).getD .unknown ≠ .character := by
      unfold punctuation?
      split <;> decide
    simp only [isLiteral, Bool.or_eq_true, beq_iff_eq] at literal
    exact absurd literal (not_or.mpr other)

/-! ## Lines with literals -/

/-- A line that is made up of gaps, of tokens that are no literals, and of literals. -/
inductive Cut : Nat → Text → List Token → Prop where
  | nil {base : Nat} : Cut base [] []
  | gap {base : Nat} {c : Char} {rest : Text} {tokens : List Token} (blank : isGap c = true)
      (later : Cut (base + 1) rest tokens) : Cut base (c :: rest) tokens
  | plain {base : Nat} {token : Token} {rest : Text} {tokens : List Token}
      (start : token.start = base) (other : token.isLiteral = false) (filled : token.text ≠ [])
      (flat : token.IsFlat)
      (later : Cut token.stop rest tokens) : Cut base (token.text ++ rest) (token :: tokens)
  | closed {base : Nat} {token : Token} {quote : Char} {body rest : Text} {tokens : List Token}
      (start : token.start = base) (literal : token.isLiteral = true)
      (quotes : isQuote quote = true) (inside : LiteralBody quote body)
      (text : token.text = quote :: (body ++ [quote]))
      (later : Cut token.stop rest tokens) : Cut base (token.text ++ rest) (token :: tokens)
  | unclosed {base : Nat} {token : Token} {quote : Char} {body : Text}
      (start : token.start = base) (literal : token.isLiteral = true)
      (quotes : isQuote quote = true) (inside : LiteralBody quote body)
      (text : token.text = quote :: body) : Cut base token.text [token]
  | lone {base : Nat} {token last : Token} {quote c : Char} {body : Text}
      (start : token.start = base) (literal : token.isLiteral = true)
      (quotes : isQuote quote = true) (inside : LiteralBody quote body)
      (text : token.text = quote :: body) (escapes : isEscape c = true)
      (kind : last.kind = .operator ∨ last.kind = .backslash) (next : last.start = token.stop)
      (written : last.text = [c]) : Cut base (token.text ++ [c]) [token, last]

theorem longest_escape [Alphabets] (escapes : isEscape c = true) :
    isGap c = false ∧ ∃ kind, (kind = .operator ∨ kind = .backslash) ∧ longest c [] = (kind, []) := by
  rw [isEscape, Bool.or_eq_true, beq_iff_eq, beq_iff_eq] at escapes
  rcases escapes with rfl | rfl
  · exact ⟨by decide, .operator, .inl rfl, rfl⟩
  · exact ⟨by decide, .backslash, .inr rfl, rfl⟩

theorem Lexed.eq_of_escape [Alphabets] {base : Nat} {tokens : List Token} (lexed : Lexed base [c] tokens)
    (escapes : isEscape c = true) :
    ∃ last : Token, (last.kind = .operator ∨ last.kind = .backslash) ∧ last.start = base ∧
      last.text = [c] ∧ tokens = [last] := by
  obtain ⟨solid, kind, kinds, found⟩ := longest_escape escapes
  generalize whole : [c] = line at lexed
  cases lexed with
  | nil => contradiction
  | gap blank =>
    obtain ⟨rfl, rfl⟩ := List.cons.inj whole
    rw [solid] at blank
    contradiction
  | @token _ _ kind' text rest tokens _ found' later =>
    obtain ⟨rfl, nothing⟩ := List.cons.inj whole
    obtain ⟨rfl, rfl⟩ := List.append_eq_nil_iff.mp nothing.symm
    obtain ⟨rfl, -⟩ := Prod.mk.inj (found.symm.trans found')
    cases later
    exact ⟨_, kinds, rfl, rfl, rfl⟩

theorem Lexed.cut [Alphabets] {base : Nat} {tokens : List Token} (lexed : Lexed base line tokens)
    (single : '\n' ∉ line) : Cut base line tokens := by
  induction lexed with
  | nil => exact .nil
  | gap blank later ih =>
    exact .gap blank (ih fun member => single (List.mem_cons_of_mem _ member))
  | @token base c kind text rest tokens solid found later ih =>
    have stop : stop ⟨kind, c :: text, base⟩ = base + 1 + text.length :=
      Nat.add_right_comm base text.length 1
    rw [← stop] at later ih
    have later' := ih fun member => single (by simp [member])
    cases literal : isLiteral ⟨kind, c :: text, base⟩ with
    | false =>
      exact .plain rfl literal (List.cons_ne_nil _ _) (isFlat_of_longest found literal) later'
    | true =>
      obtain ⟨quotes, same⟩ := literal_of_longest found literal
      have way := literalRest_literalTail c (text ++ rest) fun member => single (by simp [member])
      rw [← same] at way
      generalize whole : text ++ rest = behind at way
      cases way with
      | @closed body rest' inside =>
        obtain rfl : rest = rest' := by simpa using whole
        rw [← whole]
        exact .closed rfl literal quotes inside rfl later'
      | unclosed inside =>
        obtain rfl : rest = [] := List.append_right_eq_self.mp whole
        cases later
        exact .unclosed rfl literal quotes inside rfl
      | @lone body e inside escapes =>
        obtain rfl : rest = [e] := by simpa using whole
        obtain ⟨last, kinds, start, written, rfl⟩ := later.eq_of_escape escapes
        exact .lone rfl literal quotes inside rfl escapes kinds start written

/-- Quotes stand in literals only. -/
theorem IsFlat.isQuote {token : Token} (flat : token.IsFlat) :
    ∀ d ∈ token.text, isQuote d = false := by
  cases marks : mark? token.kind with
  | none =>
    exact fun d member => isQuote_of_isStructural (flat.plain marks d member)
  | some mark =>
    rw [flat.marked mark marks, List.forall_mem_singleton]
    exact isQuote_of_mark marks

/-! ## The mask of a literal -/

theorem maskFrom_plain (plain : ∀ c ∈ text, isQuote c = false) (rest : Text) :
    Literal.maskFrom none false (text ++ rest) =
      List.replicate text.length false ++ Literal.maskFrom none false rest := by
  induction text with
  | nil => rfl
  | cons c text ih =>
    have step : Literal.maskFrom none false (c :: (text ++ rest)) =
        false :: Literal.maskFrom none false (text ++ rest) := by
      rw [Literal.maskFrom]
      simp [plain c List.mem_cons_self]
    rw [List.cons_append, step, ih fun d member => plain d (List.mem_cons_of_mem _ member)]
    rfl

theorem maskFrom_body (inside : LiteralBody quote body) (single : '\n' ∉ body) (rest : Text) :
    Literal.maskFrom (some quote) false (body ++ rest) =
      List.replicate body.length true ++ Literal.maskFrom (some quote) false rest := by
  induction inside with
  | nil => rfl
  | @plain c body other free more ih =>
    obtain ⟨here, behind⟩ := not_or.mp (List.mem_cons.not.mp single)
    rw [List.cons_append, Literal.maskFrom, if_neg Bool.false_ne_true, if_neg (Ne.symm here)]
    simp only [free, Bool.false_and, Bool.false_eq_true, if_false, if_neg other]
    rw [ih behind]
    rfl
  | @escaped c escaped body escapes inside more ih =>
    obtain ⟨here, behind⟩ := not_or.mp (List.mem_cons.not.mp single)
    have later : '\n' ∉ body := fun member => behind (List.mem_cons_of_mem _ member)
    rw [List.cons_append, List.cons_append, Literal.maskFrom, if_neg Bool.false_ne_true,
      if_neg (Ne.symm here)]
    simp only [escapes, List.head?_cons, Option.any_some, Bool.true_and, bne_iff_ne, ne_eq, inside,
      not_false_eq_true, if_true]
    rw [Literal.maskFrom, if_pos rfl, ih later]
    rfl

theorem maskFrom_open (quotes : isQuote quote = true) (rest : Text) :
    Literal.maskFrom none false (quote :: rest) =
      true :: Literal.maskFrom (some quote) false rest := by
  have same : quote ≠ '\n' := by
    rintro rfl
    contradiction
  simp [Literal.maskFrom, same, quotes]

theorem maskFrom_close (quotes : isQuote quote = true) (rest : Text) :
    Literal.maskFrom (some quote) false (quote :: rest) =
      true :: Literal.maskFrom none false rest := by
  have same : quote ≠ '\n' := by
    rintro rfl
    contradiction
  simp [Literal.maskFrom, same, isEscape_of_isQuote quotes]

theorem maskFrom_literal (quotes : isQuote quote = true) (inside : LiteralBody quote body)
    (single : '\n' ∉ body) (rest : Text) :
    Literal.maskFrom none false (quote :: (body ++ rest)) =
      List.replicate (quote :: body).length true ++ Literal.maskFrom (some quote) false rest := by
  rw [maskFrom_open quotes, maskFrom_body inside single, List.length_cons, List.replicate_succ,
    List.cons_append]

theorem maskFrom_closed (quotes : isQuote quote = true) (inside : LiteralBody quote body)
    (single : '\n' ∉ body) (rest : Text) :
    Literal.maskFrom none false (quote :: (body ++ [quote]) ++ rest) =
      List.replicate (quote :: (body ++ [quote])).length true ++
        Literal.maskFrom none false rest := by
  rw [List.cons_append, List.append_assoc, maskFrom_literal quotes inside single,
    List.singleton_append, maskFrom_close quotes, ← List.cons_append, List.length_append,
    List.length_singleton, List.replicate_succ', List.append_assoc, List.singleton_append]

theorem maskFrom_unclosed (quotes : isQuote quote = true) (inside : LiteralBody quote body)
    (single : '\n' ∉ body) :
    Literal.maskFrom none false (quote :: body) = List.replicate (quote :: body).length true := by
  simpa [Literal.maskFrom] using maskFrom_literal quotes inside single []

theorem maskFrom_lone (quotes : isQuote quote = true) (inside : LiteralBody quote body)
    (single : '\n' ∉ body) (escapes : isEscape c = true) :
    Literal.maskFrom none false (quote :: body ++ [c]) =
      List.replicate (quote :: body ++ [c]).length true := by
  have last : Literal.maskFrom (some quote) false [c] = [true] := by
    have same : c ≠ '\n' := by
      rintro rfl
      contradiction
    simp [Literal.maskFrom, same]
  rw [List.cons_append, maskFrom_literal quotes inside single, last, ← List.cons_append,
    List.length_append, List.length_singleton, List.replicate_succ']

/-! ## The mask of a line -/

/-- The character lies in a literal token, or is an escape behind an unclosed one at the end. -/
def Marked (base : Nat) (text : Text) (tokens : List Token) (index : Nat) : Prop :=
  InLiteral tokens (base + index) ∨
    index + 1 = text.length ∧ (∃ c ∈ text[index]?, isEscape c = true) ∧
      EndsUnclosed tokens (base + index)

variable {base index : Nat} {token : Token} {tokens : List Token}

theorem Cut.bounds (cut : Cut base line tokens) :
    ∀ token ∈ tokens, base ≤ token.start ∧ token.start < token.stop ∧
      token.stop ≤ base + line.length := by
  induction cut with
  | nil => simp
  | gap blank later ih =>
    intro token member
    have inside := ih token member
    rw [List.length_cons]
    omega
  | @plain _ token _ _ start _ filled _ later ih =>
    have size := List.length_pos_iff.mpr filled
    rw [List.length_append]
    refine List.forall_mem_cons.mpr ⟨?_, fun other member => ?_⟩
    · rw [stop]
      omega
    · have inside := ih other member
      rw [stop] at inside
      omega
  | @closed _ token _ _ _ _ start _ _ _ text later ih =>
    have size : 0 < token.text.length := by simp [text]
    rw [List.length_append]
    refine List.forall_mem_cons.mpr ⟨?_, fun other member => ?_⟩
    · rw [stop]
      omega
    · have inside := ih other member
      rw [stop] at inside
      omega
  | @unclosed _ token _ _ start _ _ _ text =>
    have size : 0 < token.text.length := by simp [text]
    rw [List.forall_mem_singleton, stop]
    omega
  | @lone _ token last _ _ _ start _ _ _ text _ _ next written =>
    have size : 0 < token.text.length := by simp [text]
    have single : last.text.length = 1 := by rw [written, List.length_singleton]
    rw [List.length_append, List.length_singleton]
    refine List.forall_mem_cons.mpr ⟨?_, List.forall_mem_singleton.mpr ?_⟩
    · rw [stop]
      omega
    · rw [stop, next, stop]
      omega

/-- Only what is in the line is marked. -/
theorem Cut.marked_lt (cut : Cut base line tokens) (marked : Marked base line tokens index) :
    index < line.length := by
  rcases marked with ⟨token, member, -, -, inside⟩ | ⟨last, -, -⟩
  · have bounds := cut.bounds token member
    omega
  · omega

/-- What is marked does not depend on what is before it. -/
theorem marked_append (front : Text) :
    Marked base (front ++ rest) tokens (front.length + index) ↔
      Marked (base + front.length) rest tokens index := by
  rw [Marked, Marked, ← Nat.add_assoc, List.length_append, List.getElem?_append_right (by omega),
    Nat.add_sub_cancel_left, Nat.add_assoc front.length, Nat.add_left_cancel_iff]

/-- Before the first token nothing is marked. -/
theorem Cut.not_marked {front : Text} (cut : Cut (base + front.length) rest tokens)
    (inside : index < front.length) : ¬Marked base (front ++ rest) tokens index := by
  rintro (⟨token, member, -, start, -⟩ | ⟨-, -, token, member, -, -, stop⟩)
  · have bounds := cut.bounds token member
    omega
  · have bounds := cut.bounds token member
    omega

/-- A stretch without quotes, and tokens that are no literals, add nothing to the mask. -/
theorem Cut.masked_skip {front : Text} (cut : Cut (base + front.length) rest tokens)
    (plain : ∀ c ∈ front, isQuote c = false)
    (later : ∀ index, (Literal.maskFrom none false rest)[index]? = some true ↔
      Marked (base + front.length) rest tokens index) (index : Nat) :
    (Literal.maskFrom none false (front ++ rest))[index]? = some true ↔
      Marked base (front ++ rest) tokens index := by
  rw [maskFrom_plain plain]
  by_cases inside : index < front.length
  · rw [List.getElem?_append_left (by simpa using inside)]
    simp [inside, cut.not_marked inside]
  · obtain ⟨behind, rfl⟩ := Nat.exists_eq_add_of_le (Nat.le_of_not_lt inside)
    rw [marked_append, List.getElem?_append_right (by simp), List.length_replicate,
      Nat.add_sub_cancel_left]
    exact later behind

theorem marked_cons_of_other (other : token.isLiteral = false) :
    Marked base line (token :: tokens) index ↔ Marked base line tokens index := by
  simp [Marked, InLiteral, EndsUnclosed, other]

/-- Behind a literal that has been closed. -/
theorem marked_cons_of_closed (closed : ¬token.Unclosed) (behind : token.stop ≤ base + index) :
    Marked base line (token :: tokens) index ↔ Marked base line tokens index := by
  simp [Marked, InLiteral, EndsUnclosed, closed, Nat.not_lt.mpr behind]

theorem marked_cons (literal : token.isLiteral = true) (start : token.start ≤ base + index)
    (inside : base + index < token.stop) : Marked base line (token :: tokens) index :=
  .inl ⟨token, List.mem_cons_self, literal, start, inside⟩

/-- A literal that is closed, before the rest of its line. -/
theorem masked_closed {front : Text} (literal : token.isLiteral = true) (start : token.start = base)
    (stop : token.stop = base + front.length) (closed : ¬token.Unclosed)
    (masked : Literal.maskFrom none false (front ++ rest) =
      List.replicate front.length true ++ Literal.maskFrom none false rest)
    (later : ∀ index, (Literal.maskFrom none false rest)[index]? = some true ↔
      Marked (base + front.length) rest tokens index) (index : Nat) :
    (Literal.maskFrom none false (front ++ rest))[index]? = some true ↔
      Marked base (front ++ rest) (token :: tokens) index := by
  rw [masked]
  by_cases inside : index < front.length
  · rw [List.getElem?_append_left (by simpa using inside), List.getElem?_replicate, if_pos inside]
    exact iff_of_true rfl (marked_cons literal (by omega) (by omega))
  · obtain ⟨behind, rfl⟩ := Nat.exists_eq_add_of_le (Nat.le_of_not_lt inside)
    rw [marked_cons_of_closed closed (by omega), marked_append,
      List.getElem?_append_right (by simp), List.length_replicate, Nat.add_sub_cancel_left]
    exact later behind

/-- A line that is all masked, and all marked. -/
theorem Cut.masked_all (cut : Cut base line tokens)
    (masked : Literal.maskFrom none false line = List.replicate line.length true)
    (marked : ∀ index < line.length, Marked base line tokens index) (index : Nat) :
    (Literal.maskFrom none false line)[index]? = some true ↔ Marked base line tokens index := by
  rw [masked, List.getElem?_replicate]
  split
  case isTrue inside => exact iff_of_true rfl (marked index inside)
  case isFalse outside => exact iff_of_false (by simp) fun other => outside (cut.marked_lt other)


/-- The mask of a line marks what lies in its literal tokens. -/
theorem Cut.getElem?_maskFrom (cut : Cut base line tokens) (single : '\n' ∉ line) (index : Nat) :
    (Literal.maskFrom none false line)[index]? = some true ↔ Marked base line tokens index := by
  induction cut generalizing index with
  | nil => simp [Literal.maskFrom, Marked, InLiteral]
  | @gap base c rest tokens blank later ih =>
    have plain : ∀ d ∈ [c], isQuote d = false :=
      List.forall_mem_singleton.mpr (isQuote_of_isStructural (isStructural_of_isGap blank))
    exact Cut.masked_skip later plain
      (ih fun member => single (List.mem_cons_of_mem _ member)) index
  | @plain base token rest tokens start other filled flat later ih =>
    subst start
    rw [marked_cons_of_other other]
    exact later.masked_skip flat.isQuote
      (ih fun member => single (List.mem_append_right _ member)) index
  | @closed base token quote body rest tokens start literal quotes inside text later ih =>
    subst start
    have single' : '\n' ∉ body := fun member => single (by simp [text, member])
    refine masked_closed literal rfl rfl ?_ ?_
      (ih fun member => single (List.mem_append_right _ member)) index
    · rintro ⟨quote', body', quotes', letters, inside'⟩
      obtain ⟨rfl, rfl⟩ := List.cons.inj (text.symm.trans letters)
      exact not_literalBody_closed (isEscape_of_isQuote quotes) inside inside'
    · rw [text]
      exact maskFrom_closed quotes inside single' rest
  | @unclosed base token quote body start literal quotes inside text =>
    have single' : '\n' ∉ body := fun member => single (by simp [text, member])
    refine (Cut.unclosed start literal quotes inside text).masked_all ?_
      (fun index within => marked_cons literal ?_ ?_) index
    · rw [text]
      exact maskFrom_unclosed quotes inside single'
    · omega
    · rw [stop]
      omega
  | @lone base token last quote c body start literal quotes inside text escapes kind next written =>
    have single' : '\n' ∉ body := fun member => single (by simp [text, member])
    refine (Cut.lone start literal quotes inside text escapes kind next written).masked_all ?_
      (fun index within => ?_) index
    · rw [text]
      exact maskFrom_lone quotes inside single' escapes
    · rw [List.length_append, List.length_singleton] at within
      by_cases end' : index = token.text.length
      · refine .inr ⟨?_, ⟨c, ?_, escapes⟩, token, List.mem_cons_self, literal,
          ⟨quote, body, quotes, text, inside⟩, ?_⟩
        · simp [end']
        · simp [end']
        · rw [stop, start, end']
      · refine marked_cons literal ?_ ?_
        · omega
        · rw [stop]
          omega

/-- The mask of a line marks what lies in its literal tokens. -/
theorem getElem?_mask [Alphabets] {line : Text} (single : '\n' ∉ line) (index : Nat) :
    (Literal.mask line)[index]? = some true ↔ Marked 0 line (ofLine line) index :=
  ((lexed_ofLine line).cut single).getElem?_maskFrom single index

end PawnScope.Token
