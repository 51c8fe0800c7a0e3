import Mathlib.Data.List.Infix
import PawnScope.Proofs.Cursor.Nested
import PawnScope.Proofs.Declaration.Enclosed
import PawnScope.Proofs.Source.Names
/-!
A parameter list that is closed on the line of its function's name. Whatever the list holds, if its groups
are nested and no comment opens in it, the function's parameters are those of the list:
`Outline.parameters_of_written`.
-/

namespace PawnScope

open Token (isStructural LiteralBody)
open Call (masked)

/-! ## Comments -/

/-- No comment opens in the text outside of its literals. -/
structure Uncommented (text : Text) : Prop where
  line : ¬[('/', false), ('/', false)] <:+: masked text
  block : ¬[('/', false), ('*', false)] <:+: masked text

instance (text : Text) : Decidable (Uncommented text) :=
  decidable_of_iff (¬[('/', false), ('/', false)] <:+: masked text ∧
      ¬[('/', false), ('*', false)] <:+: masked text)
    ⟨fun ⟨line, block⟩ => ⟨line, block⟩, fun ⟨line, block⟩ => ⟨line, block⟩⟩

variable {marks text part front body rest : Text} {quote : Char}

theorem Uncommented.of_infix (uncommented : Uncommented text) (inside : masked part <:+: masked text) :
    Uncommented part :=
  ⟨fun line => uncommented.line (line.trans inside), fun block => uncommented.block (block.trans inside)⟩

theorem quiet_plain (plain : ∀ c ∈ front, isStructural c = false) (uncommented : Uncommented front) :
    Quiet front := by
  induction front with
  | nil => exact ⟨by simp [Mode.regions], rfl⟩
  | cons c front ih =>
    obtain ⟨here, below⟩ := List.forall_mem_cons.mp plain
    have unquoted := Token.isQuote_of_isStructural here
    have cut := Call.masked_cons unquoted front
    obtain ⟨uncommented', closed⟩ := ih below
      (uncommented.of_infix (cut ▸ (List.suffix_cons _ _).isInfix))
    -- The character after a slash begins no comment with it.
    have opens (d : Char) (bare : isQuote d = false) (slash : c = '/')
        (next : front.head? = some d) : [('/', false), (d, false)] <:+: masked (c :: front) := by
      obtain ⟨more, rfl⟩ : ∃ more, front = d :: more := by
        cases front with
        | nil => cases next
        | cons e more => exact ⟨more, by rw [Option.some.inj next]⟩
      rw [cut, slash, Call.masked_cons bare]
      exact (List.prefix_append [('/', false), (d, false)] _).isInfix
    have step : Mode.code.step c front = (.code, .code) := by
      rw [Mode.step, unquoted, if_neg Bool.false_ne_true,
        if_neg fun both => uncommented.line (opens '/' rfl both.1 both.2),
        if_neg fun both => uncommented.block (opens '*' rfl both.1 both.2)]
    refine ⟨?_, ?_⟩
    · rw [Mode.regions_cons, step]
      exact List.forall_mem_cons.mpr ⟨rfl, uncommented'⟩
    · rwa [Mode.after, step]

theorem quiet_literal (quotes : isQuote quote = true) (inside : LiteralBody quote body) :
    Quiet (quote :: (body ++ [quote])) := by
  have read : (∀ region ∈ (Mode.literal quote).regions (body ++ [quote]), region.isKept = true) ∧
      (Mode.literal quote).after (body ++ [quote]) = .code := by
    have closing : (Mode.literal quote).step quote [] = (.literal, .code) := by
      simp [Mode.step, Token.isEscape_of_isQuote quotes]
    induction inside with
    | nil =>
      rw [List.nil_append, Mode.regions_cons, Mode.after, closing]
      exact ⟨by simp [Mode.regions, Region.isKept], rfl⟩
    | @plain c body other plain _ ih =>
      have step : (Mode.literal quote).step c (body ++ [quote]) = (.literal, .literal quote) := by
        simp [Mode.step, plain, other]
      rw [List.cons_append, Mode.regions_cons, Mode.after, step]
      exact ⟨List.forall_mem_cons.mpr ⟨rfl, ih.1⟩, ih.2⟩
    | @escaped c d body escapes _ _ ih =>
      have step : (Mode.literal quote).step c (d :: (body ++ [quote])) =
          (.literal, .escaped quote) := by
        simp [Mode.step, escapes]
      rw [List.cons_append, List.cons_append, Mode.regions_cons, Mode.after, step, Mode.regions_cons,
        Mode.after]
      exact ⟨List.forall_mem_cons.mpr ⟨rfl, List.forall_mem_cons.mpr ⟨rfl, ih.1⟩⟩, ih.2⟩
  have opening : Mode.code.step quote (body ++ [quote]) = (.literal, .literal quote) := by
    simp [Mode.step, quotes]
  refine ⟨?_, ?_⟩
  · rw [Mode.regions_cons, opening]
    exact List.forall_mem_cons.mpr ⟨rfl, read.1⟩
  · rw [Mode.after, opening]
    exact read.2

/-- A text that begins with something structural begins no comment with what is before it. -/
theorem apart_of_isStructural {c : Char} (structural : isStructural c = true) (front rest : Text) :
    Mode.Apart front (c :: rest) := by
  intro _
  constructor <;> rintro ⟨⟩ <;> contradiction

theorem quiet_mark {c : Char} (structural : isStructural c = true) (unquoted : isQuote c = false)
    (quiet : Quiet rest) : Quiet (c :: rest) := by
  have other : c ≠ '/' := by
    rintro rfl
    contradiction
  have alone : Quiet [c] := by
    have step : Mode.code.step c [] = (.code, .code) := by simp [Mode.step, unquoted]
    refine ⟨?_, ?_⟩
    · rw [Mode.regions_cons, step]
      simp [Mode.regions, Region.isKept]
    · rw [Mode.after, step]
      rfl
  refine alone.append quiet fun slash => ?_
  exact absurd (Option.some.inj slash) other

namespace Nested

/-- Where no comment opens outside of literals, none opens for the reader of a line. -/
theorem quiet (nested : Nested marks text) (uncommented : Uncommented text) : Quiet text := by
  induction nested with
  | plain free => exact quiet_plain free uncommented
  | @mark marks front more mark free separator _ behind ih =>
    have structural : isStructural mark = true := by rcases separator with rfl | rfl <;> rfl
    have unquoted : isQuote mark = false := by rcases separator with rfl | rfl <;> rfl
    have cut : masked (front ++ mark :: more) = masked front ++ (mark, false) :: masked more := by
      rw [Call.masked_front free, Call.masked_cons unquoted, Call.masked_all free]
    have here := quiet_plain free (uncommented.of_infix ⟨[], _, cut.symm⟩)
    have below := ih (uncommented.of_infix ⟨masked front ++ [(mark, false)], [], by simp [cut]⟩)
    exact here.append (quiet_mark structural unquoted below) (apart_of_isStructural structural _ _)
  | @group marks front inner more opener closer free pair inside behind ihInside ih =>
    obtain ⟨opens, closes⟩ := isQuote_of_bracket pair
    obtain ⟨opens', closes'⟩ := isStructural_of_bracket pair
    have cut : masked (front ++ opener :: (inner ++ closer :: more)) = masked front ++
        (opener, false) :: (masked inner ++ (closer, false) :: masked more) := by
      rw [Call.masked_front free, Call.masked_cons opens, inside.masked_append, Call.masked_cons closes,
        Call.masked_all free]
    have here := quiet_plain free (uncommented.of_infix ⟨[], _, cut.symm⟩)
    have within := ihInside (uncommented.of_infix
      ⟨masked front ++ [(opener, false)], (closer, false) :: masked more, by simp [cut]⟩)
    have below := ih (uncommented.of_infix
      ⟨masked front ++ (opener, false) :: (masked inner ++ [(closer, false)]), [], by simp [cut]⟩)
    exact here.append (quiet_mark opens' opens
      (within.append (quiet_mark closes' closes below) (apart_of_isStructural closes' _ _)))
      (apart_of_isStructural opens' _ _)
  | @literal marks front body more quote free quotes inside single behind ih =>
    have whole : front ++ quote :: (body ++ quote :: more) =
        front ++ (quote :: (body ++ [quote]) ++ more) := by simp
    have cut : masked (front ++ quote :: (body ++ quote :: more)) = masked front ++
        ((quote :: (body ++ [quote])).map (·, true) ++ masked more) := by
      rw [Call.masked_front free, Call.masked_literal quotes inside single, Call.masked_all free]
    have here := quiet_plain free (uncommented.of_infix ⟨[], _, cut.symm⟩)
    have below := ih (uncommented.of_infix
      ⟨masked front ++ (quote :: (body ++ [quote])).map (·, true), [], by simp [cut]⟩)
    have unslashed : (quote :: (body ++ [quote])).getLast? ≠ some '/' := by
      rw [← List.cons_append, List.getLast?_concat]
      rintro ⟨⟩
      contradiction
    rw [whole]
    exact here.append ((quiet_literal quotes inside).append below fun slash => absurd slash unslashed)
      (apart_of_isStructural (Token.isStructural_of_isQuote quotes) _ _)

end Nested

/-! ## Tokens -/

namespace Declaration

variable {tokens others more : List Token} {token opener closer : Token} {depth : Nat}

theorem closing?_other (open_ : token.kind ≠ .openParen) (close : token.kind ≠ .closeParen) :
    closing? depth (token :: more) = closing? depth more := by
  rw [closing?]
  split
  · contradiction
  · contradiction
  · rfl

theorem closing?_opener (opens : opener.kind = .openParen) :
    closing? depth (opener :: more) = closing? (depth + 1) more := by
  simp only [closing?, opens]

theorem closing?_closer (closes : closer.kind = .closeParen) :
    closing? (depth + 2) (closer :: more) = closing? (depth + 1) more := by
  simp [closing?, closes]

/-- What follows such tokens is in the group that they are in. -/
def Passed (tokens : List Token) : Prop :=
  ∀ depth more, closing? (depth + 1) (tokens ++ more) = closing? (depth + 1) more

theorem Passed.append (passed : Passed tokens) (passed' : Passed others) : Passed (tokens ++ others) :=
  fun depth more => by rw [List.append_assoc, passed, passed']

theorem Passed.cons (open_ : token.kind ≠ .openParen) (close : token.kind ≠ .closeParen)
    (passed : Passed tokens) : Passed (token :: tokens) :=
  fun depth more => (closing?_other open_ close).trans (passed depth more)

theorem passed_of_forall
    (others : ∀ token ∈ tokens, token.kind ≠ .openParen ∧ token.kind ≠ .closeParen) : Passed tokens := by
  induction tokens with
  | nil => exact fun _ _ => rfl
  | cons token tokens ih =>
    obtain ⟨⟨opener, closer⟩, below⟩ := List.forall_mem_cons.mp others
    exact .cons opener closer (ih below)

/-- A group of any brackets. -/
theorem Passed.group
    (pair : (opener.kind = .openParen ∧ closer.kind = .closeParen) ∨
      ∀ token ∈ [opener, closer], token.kind ≠ .openParen ∧ token.kind ≠ .closeParen)
    (passed : Passed tokens) (passed' : Passed others) :
    Passed (opener :: (tokens ++ closer :: others)) := by
  rcases pair with ⟨opens, closes⟩ | other
  · intro depth more
    rw [List.cons_append, closing?_opener opens, List.append_assoc, passed, List.cons_append,
      closing?_closer closes, passed']
  · obtain ⟨opens, closes⟩ := List.forall_mem_cons.mp other
    obtain ⟨closes, -⟩ := List.forall_mem_cons.mp closes
    exact .cons opens.1 opens.2 (passed.append (.cons closes.1 closes.2 passed'))

end Declaration

namespace Token

variable {base : Nat} {line : Text} {tokens : List Token}

theorem Lexed.of_plain [Alphabets] (lexed : Lexed base line tokens)
    (plain : ∀ c ∈ line, isStructural c = false) :
    ∀ token ∈ tokens,
      token.isLiteral = false ∧ token.kind ≠ .openParen ∧ token.kind ≠ .closeParen := by
  induction lexed with
  | nil => simp
  | gap blank later ih => exact ih (List.forall_mem_cons.mp plain).2
  | @token base c kind text rest tokens solid found later ih =>
    obtain ⟨here, below⟩ := List.forall_mem_cons.mp plain
    have unmarked (mark : Char) (structural : isStructural mark = true) (marks : mark? kind = some mark) :
        False := by
      rw [(longest_mark found marks).1, structural] at here
      contradiction
    refine List.forall_mem_cons.mpr ⟨⟨Bool.eq_false_iff.mpr fun literal => ?_, ?_, ?_⟩,
      ih (List.forall_mem_append.mp below).2⟩
    · rw [isStructural_of_isQuote (literal_of_longest found literal).1] at here
      contradiction
    · rintro rfl
      exact unmarked '(' rfl rfl
    · rintro rfl
      exact unmarked ')' rfl rfl

/-- A text has tokens of its own before `rest`, and they leave no group around them. -/
def Separate [Alphabets] (base : Nat) (text rest : Text) : Prop :=
  ∃ tokens, scan base 0 (text ++ rest) = tokens ++ scan (base + text.length) 0 rest ∧
    Declaration.Passed tokens

variable {more inner : Text} {c opener closer : Char}

theorem Separate.append [Alphabets] (first : Separate base text (more ++ rest))
    (second : Separate (base + text.length) more rest) : Separate base (text ++ more) rest := by
  obtain ⟨tokens, cut, passed⟩ := first
  obtain ⟨others, cut', passed'⟩ := second
  refine ⟨tokens ++ others, ?_, passed.append passed'⟩
  rw [List.append_assoc, cut, cut', List.append_assoc, List.length_append, Nat.add_assoc]

theorem separate_plain [Alphabets] (plain : ∀ c ∈ front, isStructural c = false)
    (stop : ∀ c ∈ rest.head?, isStructural c = true) (base : Nat) : Separate base front rest := by
  have lexed := lexed_scan base front
  have others := lexed.of_plain plain
  refine ⟨_, lexed.scan_append (fun token member literal => ?_) stop,
    Declaration.passed_of_forall fun token member => (others token member).2⟩
  rw [(others token member).1] at literal
  contradiction

theorem separate_mark [Alphabets] {kind : TokenKind} (marks : mark? kind = some c)
    (other : kind ≠ .openParen ∧ kind ≠ .closeParen) (base : Nat) (rest : Text) :
    Separate base [c] rest :=
  ⟨[⟨kind, [c], base⟩], scan_mark marks base rest,
    Declaration.passed_of_forall (List.forall_mem_singleton.mpr other)⟩

theorem separate_literal [Alphabets] (quotes : isQuote quote = true)
    (inside : LiteralBody quote body) (base : Nat)
    (rest : Text) : Separate base (quote :: (body ++ [quote])) rest := by
  obtain ⟨kind, other, always⟩ : ∃ kind, (kind ≠ TokenKind.openParen ∧ kind ≠ .closeParen) ∧
      ∀ more, longest quote more = (kind, literalTail quote more) := by
    rw [isQuote, Bool.or_eq_true, beq_iff_eq, beq_iff_eq] at quotes
    rcases quotes with rfl | rfl
    · exact ⟨.string, by decide, fun _ => rfl⟩
    · exact ⟨.character, by decide, fun _ => rfl⟩
  have solid : isGap quote = false := by
    refine Bool.eq_false_iff.mpr fun gap => ?_
    have plain := isQuote_of_isStructural (isStructural_of_isGap gap)
    rw [quotes] at plain
    contradiction
  have found : longest quote ((body ++ [quote]) ++ rest) = (kind, body ++ [quote]) := by
    rw [always, List.append_assoc, List.singleton_append,
      literalTail_closed (isEscape_of_isQuote quotes) inside]
  exact ⟨[⟨kind, quote :: (body ++ [quote]), base⟩], scan_token solid found,
    Declaration.passed_of_forall (List.forall_mem_singleton.mpr other)⟩

theorem separate_group [Alphabets] (pair : (opener, closer) ∈ brackets)
    (inside : Separate (base + 1) inner (closer :: rest)) :
    Separate base (opener :: (inner ++ [closer])) rest := by
  obtain ⟨opening, closing, marks, marks', kinds⟩ : ∃ opening closing,
      mark? opening = some opener ∧ mark? closing = some closer ∧
      ((opening = .openParen ∧ closing = .closeParen) ∨
        ∀ kind ∈ [opening, closing], kind ≠ .openParen ∧ kind ≠ .closeParen) := by
    obtain ⟨rfl, rfl⟩ | ⟨rfl, rfl⟩ | ⟨rfl, rfl⟩ := mem_brackets pair
    · exact ⟨.openParen, .closeParen, rfl, rfl, by decide⟩
    · exact ⟨.openBracket, .closeBracket, rfl, rfl, by decide⟩
    · exact ⟨.openBrace, .closeBrace, rfl, rfl, by decide⟩
  obtain ⟨tokens, cut, passed⟩ := inside
  have whole : opener :: (inner ++ [closer]) ++ rest = opener :: (inner ++ closer :: rest) := by simp
  have size : base + 1 + inner.length + 1 = base + (opener :: (inner ++ [closer])).length := by
    rw [List.length_cons, List.length_append, List.length_singleton]
    omega
  refine ⟨⟨opening, [opener], base⟩ :: (tokens ++ [⟨closing, [closer], base + 1 + inner.length⟩]), ?_,
    .group (by simpa using kinds) passed fun _ _ => rfl⟩
  rw [whole, scan_mark marks, cut, scan_mark marks', size]
  simp

end Token

open Token (Separate)

/-- A nested text has tokens of its own before something structural. -/
theorem Nested.separate [Alphabets] (nested : Nested marks text)
    (stop : ∀ c ∈ rest.head?, isStructural c = true)
    (base : Nat) : Separate base text rest := by
  induction nested generalizing rest base with
  | plain free => exact Token.separate_plain free stop base
  | @mark marks front more mark free separator _ behind ih =>
    obtain ⟨kind, marked, other⟩ : ∃ kind, Token.mark? kind = some mark ∧
        kind ≠ TokenKind.openParen ∧ kind ≠ .closeParen := by
      rcases separator with rfl | rfl
      · exact ⟨.comma, rfl, by decide⟩
      · exact ⟨.semicolon, rfl, by decide⟩
    have structural : isStructural mark = true := by rcases separator with rfl | rfl <;> rfl
    exact .append (Token.separate_plain free (by simpa using structural) base)
      (Separate.append (Token.separate_mark marked other _ _) (ih stop _))
  | @group marks front inner more opener closer free pair inside behind ihInside ih =>
    obtain ⟨opens, closes⟩ := isStructural_of_bracket pair
    have group : Separate (base + front.length) (opener :: (inner ++ [closer])) (more ++ rest) :=
      Token.separate_group pair (ihInside (by simpa using closes) _)
    have whole : opener :: (inner ++ closer :: more) = opener :: (inner ++ [closer]) ++ more := by simp
    rw [whole]
    exact .append (Token.separate_plain free (by simpa using opens) base) (group.append (ih stop _))
  | @literal marks front body more quote free quotes inside single behind ih =>
    have structural := Token.isStructural_of_isQuote quotes
    have whole : quote :: (body ++ quote :: more) = quote :: (body ++ [quote]) ++ more := by simp
    rw [whole]
    exact .append (Token.separate_plain free (by simpa using structural) base)
      (.append (Token.separate_literal quotes inside _ _) (ih stop _))

/-! ## The list -/

namespace Declaration

variable {list behind : Text}

/-- The first parenthesis behind blanks is where it is. -/
theorem eq_of_blanks {gap gap' : Text} (blank : ∀ c ∈ gap, isBlank c = true)
    (blank' : ∀ c ∈ gap', isBlank c = true) (same : gap ++ '(' :: rest = gap' ++ '(' :: behind) :
    gap = gap' ∧ rest = behind := by
  have blanks {gap : Text} (blank : ∀ c ∈ gap, isBlank c = true) (rest : Text) :
      (gap ++ '(' :: rest).takeWhile isBlank = gap :=
    Text.takeWhile_run blank (by simp [show isBlank '(' = false by decide])
  have gaps := congrArg (List.takeWhile isBlank) same
  rw [blanks blank, blanks blank'] at gaps
  subst gaps
  exact ⟨rfl, (List.cons.inj (List.append_cancel_left same)).2⟩

/-- The list behind the parenthesis `opener` goes up to the one that closes it. -/
theorem parameterList_of_separate [Alphabets] {code : Text} {opener : Token} {rest : List Token}
    (whole : code = front ++ '(' :: (list ++ ')' :: behind)) (place : opener.stop = front.length + 1)
    (lexed : Token.Lexed opener.stop (list ++ ')' :: behind) rest)
    (separate : Separate opener.stop list (')' :: behind)) :
    (parameterList code opener (closing? 1 rest)).1 = list := by
  obtain ⟨tokens, cut, passed⟩ := separate
  have closer : closing? 1 rest = some ⟨.closeParen, [')'], opener.stop + list.length⟩ := by
    have mark : Token.mark? .closeParen = some ')' := rfl
    rw [← lexed.scan_eq, cut, passed 0, Token.scan_mark mark]
    rfl
  rw [closer, parameterList, Text.slice, place, whole, List.drop_length_add_append,
    Nat.add_sub_cancel_left]
  exact List.take_left

/-- The parenthesis of a function is the one that is written behind its name. -/
theorem Shape.opener_of_function [Alphabets] {code : Text} {start : Nat} {specifiers : List Text}
    {name opener : Token}
    {rest : List Token}
    (shape : Shape.ofTokens (Token.ofLine code) = .function start specifiers name opener rest)
    (whole : code = front ++ '(' :: behind) (long : name.stop ≤ front.length)
    (gap : ∀ c ∈ front.drop name.stop, isBlank c = true) :
    opener.stop = front.length + 1 ∧ Token.Lexed opener.stop behind rest := by
  obtain ⟨before, tokens, -, opens, -, -⟩ := Shape.tokens_of_function shape
  have lexed := Token.lexed_ofLine code
  rw [tokens] at lexed
  obtain ⟨above, c, text, more, cut, same, -, later⟩ := lexed.at
  obtain ⟨gap', d, text', behind', rfl, gaps, same', found', later'⟩ := later.head
  rw [opens] at found'
  obtain ⟨rfl, -⟩ := Token.longest_mark found' rfl
  obtain rfl := Token.nil_of_mark found' rfl
  -- The name takes the same stretch of `front` as of the code.
  have size : (above ++ c :: text).length = name.stop := by
    rw [same, Token.stop, List.length_append, Nat.zero_add]
  have cut' : code = (above ++ c :: text) ++ (gap' ++ '(' :: behind') := by
    rw [cut]
    simp
  have whole' : code = front.take name.stop ++ (front.drop name.stop ++ '(' :: behind) := by
    rw [whole, ← List.append_assoc, List.take_append_drop]
  obtain ⟨-, tails⟩ := List.append_inj (cut'.symm.trans whole')
    (by rw [size, List.length_take, Nat.min_eq_left long])
  obtain ⟨gap_eq, rfl⟩ := eq_of_blanks (fun c member => Token.isBlank_of_isGap (gaps c member)) gap tails
  refine ⟨?_, later'⟩
  have fits := congrArg List.length gap_eq
  rw [List.length_drop] at fits
  rw [same', Token.stop, List.length_singleton]
  dsimp only
  omega

/-- A list that is closed behind the name of a function holds the function's parameters. -/
theorem parameters_of_recognize [Alphabets] {code : Text} {head : FunctionHead}
    (found : recognize code true = .found (.function head))
    (whole : code = front ++ '(' :: (list ++ ')' :: behind))
    (long : head.nameStart + head.name.length ≤ front.length)
    (gap : ∀ c ∈ front.drop (head.nameStart + head.name.length), isBlank c = true)
    (separate : ∀ base, Separate base list (')' :: behind)) :
    head.parameters = Parameter.split list := by
  rw [recognize_eq] at found
  cases shape : Shape.ofTokens (Token.ofLine code) with
  | nothing =>
    rw [shape] at found
    contradiction
  | globals specifiers declared =>
    rw [shape] at found
    have other := ofDeclarators_found found
    contradiction
  | function start specifiers name opener rest =>
    rw [shape] at found
    obtain ⟨head', same, nameText, nameStart⟩ := ofPrototype_found found
    obtain rfl := Declaration.function.inj same
    have stops : head.nameStart + head.name.length = name.stop := by
      rw [nameText, nameStart]
      rfl
    rw [stops] at long gap
    obtain ⟨place, lexed⟩ := Shape.opener_of_function shape whole long gap
    have parameters : head.parameters = Parameter.split (parameterList code opener (closing? 1 rest)).1 := by
      simp only [Shape.recognize, ofPrototype, Bool.not_true, Bool.and_false, Bool.false_eq_true,
        if_false, Recognition.found.injEq, Declaration.function.injEq] at found
      rw [← found]
    rw [parameters, parameterList_of_separate whole place lexed (separate _)]

end Declaration

/-! ## Declared functions -/

namespace Mode

variable {mode : Mode} {c : Char} {above : Text}

/-- From a character of code on a line is read as from its beginning. -/
theorem regions_of_code (here : (mode.regions (above ++ c :: rest))[above.length]? = some .code) :
    ∃ before, before.length = above.length ∧
      mode.regions (above ++ c :: rest) = before ++ Mode.code.regions (c :: rest) := by
  induction above generalizing mode with
  | nil =>
    refine ⟨[], rfl, ?_⟩
    have region : (mode.step c rest).1 = .code := Option.some.inj here
    obtain rfl : mode = .code := by
      unfold step at region
      grind
    rfl
  | cons d above ih =>
    rw [List.cons_append, regions_cons] at here ⊢
    obtain ⟨before, long, cut⟩ := ih here
    exact ⟨_ :: before, congrArg (· + 1) long, by rw [cut, List.cons_append]⟩

end Mode

theorem blankComments_append {front rest : Text} {regions more : List Region}
    (long : regions.length = front.length) :
    blankComments (front ++ rest) (regions ++ more) =
      blankComments front regions ++ blankComments rest more := by
  rw [blankComments, List.zipWith_append long.symm]
  rfl

/-- Blanks are blanks in the code, whether they belong to a comment or not. -/
theorem isBlank_drop_blankComments {gap : Text} (blank : ∀ c ∈ gap, isBlank c = true) (front : Text)
    (regions : List Region) :
    ∀ c ∈ (blankComments (front ++ gap) regions).drop front.length, isBlank c = true := by
  intro c member
  obtain ⟨index, found⟩ := List.mem_iff_getElem?.mp member
  rw [List.getElem?_drop] at found
  obtain ⟨d, region, written, -, rfl⟩ := getElem?_blankComments found
  rw [List.getElem?_append_right (Nat.le_add_right _ _), Nat.add_sub_cancel_left] at written
  split
  · exact blank d (List.mem_of_getElem? written)
  · rfl

/-- What stands behind a parenthesis in the code of a line, up to the end of a quiet list. -/
theorem code_of_written {mode : Mode} {front list behind : Text} (quiet : Quiet list)
    (here : (mode.regions (front ++ '(' :: (list ++ ')' :: behind)))[front.length]? = some .code) :
    ∃ regions behind', regions.length = front.length ∧
      blankComments (front ++ '(' :: (list ++ ')' :: behind))
          (mode.regions (front ++ '(' :: (list ++ ')' :: behind))) =
        blankComments front regions ++ '(' :: (list ++ ')' :: behind') := by
  obtain ⟨before, long, cut⟩ := Mode.regions_of_code here
  have nothing : Quiet [] := ⟨by simp [Mode.regions], rfl⟩
  have closing : Quiet [')'] := quiet_mark rfl rfl nothing
  have whole : Quiet ('(' :: (list ++ [')'])) :=
    quiet_mark rfl rfl (quiet.append closing (apart_of_isStructural rfl _ _))
  have apart : Mode.Apart ('(' :: (list ++ [')'])) behind := by
    intro slash
    rw [← List.cons_append, List.getLast?_concat] at slash
    contradiction
  have proper : Mode.code.Proper := trivial
  obtain ⟨regions, -⟩ := Mode.read_append proper whole.uncommented whole.closed apart
  have split : '(' :: (list ++ ')' :: behind) = '(' :: (list ++ [')']) ++ behind := by simp
  refine ⟨before, blankComments behind (Mode.code.regions behind), long, ?_⟩
  rw [cut, blankComments_append long, split, regions,
    blankComments_append (Mode.length_regions _ _),
    blankComments_of_kept (Mode.length_regions _ _) whole.uncommented]
  simp

/--
The parameter list of a function is written behind its name, with at most blanks between, and is closed on
the same line. Its parenthesis stands in code.
-/
def Callable.Written [Alphabets] (callable : Callable) (text list : Text) : Prop :=
  ∃ line ∈ Line.ofText text, ∃ above gap behind,
    line.number = callable.span.start.line ∧ above.length = callable.span.start.column ∧
      (∀ c ∈ gap, isBlank c = true) ∧
      line.raw = above ++ callable.name ++ gap ++ '(' :: (list ++ ')' :: behind) ∧
      ((Line.openedAt text line.number).comment.mode.regions line.raw)[
        (above ++ callable.name ++ gap).length]? = some .code

namespace Outline

variable {file : SourceId} {text list : Text} {skipStatic : Bool} {callable : Callable}

/-- The parameters of a function are those of the list that is written behind its name. -/
theorem parameters_of_written [Alphabets] (declared : callable ∈ (ofText file text skipStatic).callables)
    (plain : callable.kind = .function) (written : callable.Written text list)
    (nested : Nested marks list) (quiet : Quiet list) :
    callable.parameters = Parameter.split list := by
  rw [ofText_eq] at declared
  obtain ⟨line, inside, following, doc, entry⟩ := Progress.mem_all (callable_mem_of_putAll declared)
  obtain ⟨head, read, rfl⟩ := Statement.of_callable_mem entry plain
  obtain ⟨line', inside', above, gap, behind, number, column, blank, raw, here⟩ := written
  have number : line'.number = line.number := number
  obtain rfl : line' = line :=
    Option.some.inj ((Line.getElem?_number inside').symm.trans (number ▸ Line.getElem?_number inside))
  obtain ⟨more, -, found, -⟩ := recognize_of_joinList (Statement.joinList_of_read read)
  have raw : line'.raw = above ++ head.name ++ gap ++ '(' :: (list ++ ')' :: behind) := raw
  have here : ((Line.openedAt text line'.number).comment.mode.regions line'.raw)[
      (above ++ head.name ++ gap).length]? = some .code := here
  rw [raw] at here
  obtain ⟨regions, behind', size, code⟩ := code_of_written quiet here
  rw [← raw, ← Line.code_ofText inside'] at code
  have place : head.nameStart + head.name.length = (above ++ head.name).length := by
    rw [List.length_append]
    exact congrArg (· + head.name.length) column.symm
  have gaps := isBlank_drop_blankComments blank (above ++ head.name) regions
  rw [← place] at gaps
  have fits : head.nameStart + head.name.length ≤
      (blankComments (above ++ head.name ++ gap) regions).length := by
    rw [blankComments, List.length_zipWith, size, Nat.min_self, place]
    exact (List.prefix_append _ _).length_le
  have whole : line'.code ++ more =
      blankComments (above ++ head.name ++ gap) regions ++ '(' :: (list ++ ')' :: (behind' ++ more)) := by
    rw [code]
    simp
  exact Declaration.parameters_of_recognize found whole fits gaps fun base =>
    nested.separate (fun c first => by cases first; rfl) base

end Outline

end PawnScope
