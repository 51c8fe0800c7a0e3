import PawnScope.Proofs.Token.Literals
/-!
The tokens of a text that stands before another one. A text whose literals are closed keeps its tokens
before a separator, a bracket or a quote (`Lexed.scan_append`), an identifier before whatever does not go
on with it (`IsIdentifier.scan`), and a mark always (`scan_mark`). Where a text stands matters only to
where its tokens start: `scan_add`.
-/

namespace PawnScope.Token

open Identifier (isTokenStart isTokenPart)

variable {c : Char} {text rest behind line : Text} {kind : TokenKind} {base : Nat}
  {tokens : List Token}

/-- With such a character no token goes on, a literal that is not closed aside. -/
def stops (c : Char) : Bool :=
  c == ',' || c == ')'

theorem isStructural_of_stops (stop : stops c = true) : isStructural c = true := by
  rw [stops, Bool.or_eq_true, beq_iff_eq, beq_iff_eq] at stop
  rcases stop with rfl | rfl <;> rfl

/-- A literal with its closing quote. -/
def Closed (token : Token) : Prop :=
  ∃ quote body, isQuote quote = true ∧ LiteralBody quote body ∧
    token.text = quote :: (body ++ [quote])

theorem not_closed {token : Token} {quote : Char} {body : Text} (inside : LiteralBody quote body)
    (quotes : isQuote quote = true) (text : token.text = quote :: body) : ¬token.Closed := by
  rintro ⟨quote', body', -, inside', text'⟩
  obtain ⟨rfl, rfl⟩ := List.cons.inj (text.symm.trans text')
  exact not_literalBody_closed (isEscape_of_isQuote quotes) inside' inside

/-- A literal goes on over what may stand between its quotes. -/
theorem literalTail_body {quote : Char} {body : Text} (inside : LiteralBody quote body) (rest : Text) :
    literalTail quote (body ++ rest) = body ++ literalTail quote rest := by
  induction inside with
  | nil => rfl
  | plain other plain more ih =>
    rw [List.cons_append, literalTail.eq_def]
    simp [plain, other, ih]
  | escaped escapes inside more ih =>
    rw [List.cons_append, List.cons_append, literalTail.eq_def]
    simp [escapes, inside, ih]

theorem literalTail_closed {quote : Char} {body : Text} (free : isEscape quote = false)
    (inside : LiteralBody quote body) (rest : Text) :
    literalTail quote (body ++ quote :: rest) = body ++ [quote] := by
  rw [literalTail_body inside, literalTail.eq_def]
  simp [free]

theorem ne_of_class {part : Char → Bool} {c d : Char} (inside : part c = true)
    (outside : part d = false) : c ≠ d := by
  rintro rfl
  exact Bool.false_ne_true (outside.symm.trans inside)

theorem isBlank_of_isGap {c : Char} (gap : isGap c = true) : isBlank c = true := by
  simp only [isGap, Bool.or_eq_true, beq_iff_eq] at gap
  rcases gap with ((rfl | rfl) | rfl) | rfl <;> decide

variable [Alphabets]

/-- Nor does one go on with any other quote, bracket or separator. -/
theorem not_part_of_isStructural (stop : isStructural c = true) :
    (∀ entry ∈ runs, entry.2 c = false) ∧ isSpacing c = false ∧ isDirectiveLetter c = false ∧
      c ≠ '.' := by
  have apart {part : Bool} (other : part = true → isStructural c = false) : part = false :=
    Bool.eq_false_iff.mpr fun inside => Bool.false_ne_true ((other inside).symm.trans stop)
  refine ⟨fun _ isRun => apart (isStructural_of_part isRun), apart isStructural_of_isSpacing,
    apart isStructural_of_isDirectiveLetter, ?_⟩
  rintro rfl
  contradiction

/--
No token goes on with the beginning of the text, a literal that is not closed and the blanks behind a `#`
aside.
-/
def Parts (behind : Text) : Prop :=
  ∀ c ∈ behind.head?, (∀ entry ∈ runs, entry.2 c = false) ∧ isDirectiveLetter c = false ∧ c ≠ '.'

theorem parts_of_isStructural (stop : ∀ c ∈ behind.head?, isStructural c = true) : Parts behind :=
  fun c first =>
    have ⟨run, _, letter, dot⟩ := not_part_of_isStructural (stop c first)
    ⟨run, letter, dot⟩

theorem afterHash_append (parts : Parts behind)
    (spacing : (text ++ behind).takeWhile isSpacing = text.takeWhile isSpacing) :
    afterHash (text ++ behind) = afterHash text := by
  have word : (text.drop (text.takeWhile isSpacing).length ++ behind).takeWhile isDirectiveLetter =
      (text.drop (text.takeWhile isSpacing).length).takeWhile isDirectiveLetter :=
    Text.takeWhile_append_stop fun c first => (parts c first).2.1
  have short := (List.takeWhile_prefix isSpacing (l := text)).length_le
  rw [afterHash, afterHash, spacing, List.drop_append_of_le_length short, word]

theorem take_two_append (parts : Parts behind) :
    (text ++ behind).take 2 = ['.', '.'] ↔ text.take 2 = ['.', '.'] := by
  have other : ∀ more, behind ≠ '.' :: more := by
    rintro more rfl
    exact (parts '.' rfl).2.2 rfl
  match text with
  | [] => cases behind <;> grind
  | [c] => cases behind <;> grind
  | c :: d :: text => rfl

/-- A token is the same before what no token goes on with. -/
theorem longest_append_parts (found : longest c (text ++ rest) = (kind, text))
    (closed : isLiteral ⟨kind, c :: text, base⟩ = true → Closed ⟨kind, c :: text, base⟩)
    (parts : Parts behind)
    (spacing : c = '#' →
      (text ++ rest ++ behind).takeWhile isSpacing = (text ++ rest).takeWhile isSpacing) :
    longest c (text ++ (rest ++ behind)) = (kind, text) := by
  have rule := rule_longest c (text ++ rest)
  rw [found] at rule
  rw [← List.append_assoc]
  generalize whole : text ++ rest = line at *
  cases rule with
  | hash same other always =>
    have spaces := spacing same
    subst same
    rw [← found]
    exact afterHash_append parts spaces
  | literal quotes literal always =>
    have isLiteral : isLiteral ⟨kind, c :: literalTail c line, base⟩ = true := by
      rcases literal with rfl | rfl <;> rfl
    obtain ⟨quote, body, quotes', inside, text⟩ := closed isLiteral
    obtain ⟨rfl, same⟩ := List.cons.inj text
    rw [always, same, ← whole, same, List.append_assoc, List.append_assoc, List.singleton_append,
      literalTail_closed (isEscape_of_isQuote quotes) inside]
  | ellipsis same more =>
    subst same
    exact if_pos ((take_two_append parts).mpr more)
  | dot same alone =>
    subst same
    exact if_neg (mt (take_two_append parts).mp alone)
  | run isRun first always =>
    rw [always, Text.takeWhile_append_stop fun d next => (parts d next).1 _ isRun]
  | single plain same always => exact always _

/-! ## Texts one behind the other -/

theorem scan_token (solid : isGap c = false) (found : longest c (text ++ rest) = (kind, text)) :
    scan base 0 (c :: (text ++ rest)) =
      ⟨kind, c :: text, base⟩ :: scan (base + (c :: text).length) 0 rest := by
  rw [scan, if_neg (by simp [solid]), found]
  dsimp only
  rw [scan_skip, List.drop_left, List.length_cons, Nat.add_right_comm, Nat.add_assoc]

theorem scan_gap (blank : isGap c = true) (base : Nat) (rest : Text) :
    scan base 0 (c :: rest) = scan (base + 1) 0 rest := by
  rw [scan, if_pos blank]

theorem scan_gaps (blank : ∀ c ∈ text, isGap c = true) (base : Nat) (rest : Text) :
    scan base 0 (text ++ rest) = scan (base + text.length) 0 rest := by
  induction text generalizing base with
  | nil => rfl
  | cons c text ih =>
    obtain ⟨here, below⟩ := List.forall_mem_cons.mp blank
    rw [List.cons_append, scan_gap here, ih below, List.length_cons, Nat.add_right_comm, Nat.add_assoc]

theorem head?_scan (solid : isGap c = false) (base : Nat) (rest : Text) :
    (scan base 0 (c :: rest)).head? = some ⟨(longest c rest).1, c :: (longest c rest).2, base⟩ := by
  rw [scan, if_neg (by simp [solid])]
  rfl

/-- A text whose literals are closed keeps its tokens before what no token goes on with. -/
theorem Lexed.scan_append_parts (lexed : Lexed base line tokens)
    (closed : ∀ token ∈ tokens, token.isLiteral = true → token.Closed) (parts : Parts behind)
    (spacing : ∀ before after, line = before ++ '#' :: after →
      (after ++ behind).takeWhile isSpacing = after.takeWhile isSpacing) :
    scan base 0 (line ++ behind) = tokens ++ scan (base + line.length) 0 behind := by
  induction lexed with
  | nil => rfl
  | @gap base c rest tokens blank later ih =>
    have spacing' := fun before after whole => spacing (c :: before) after (congrArg (c :: ·) whole)
    rw [List.cons_append, scan_gap blank, ih closed spacing', List.length_cons, Nat.add_right_comm,
      Nat.add_assoc]
  | @token base c kind text rest tokens solid found later ih =>
    obtain ⟨here, below⟩ := List.forall_mem_cons.mp closed
    have hash : c = '#' →
        (text ++ rest ++ behind).takeWhile isSpacing = (text ++ rest).takeWhile isSpacing := by
      rintro rfl
      exact spacing [] (text ++ rest) rfl
    have spacing' := fun before after (whole : rest = before ++ '#' :: after) =>
      spacing (c :: (text ++ before)) after (by rw [whole, List.cons_append, List.append_assoc])
    have size : base + (c :: text).length = base + 1 + text.length := by
      rw [List.length_cons]
      omega
    rw [List.cons_append, List.append_assoc,
      scan_token solid (longest_append_parts found here parts hash), size, ih below spacing',
      List.cons_append, List.length_cons, List.length_append]
    congr 3
    omega

theorem Lexed.scan_append (lexed : Lexed base line tokens)
    (closed : ∀ token ∈ tokens, token.isLiteral = true → token.Closed)
    (stop : ∀ c ∈ behind.head?, isStructural c = true) :
    scan base 0 (line ++ behind) = tokens ++ scan (base + line.length) 0 behind :=
  lexed.scan_append_parts closed (parts_of_isStructural stop) fun _ _ _ =>
    Text.takeWhile_append_stop fun c first => (not_part_of_isStructural (stop c first)).2.1

theorem longest_of_mark {mark : Char} (marks : mark? kind = some mark) (rest : Text) :
    longest mark rest = (kind, []) := by
  have alone : longest mark [] = (kind, []) := by
    cases kind <;> cases marks <;> rfl
  exact (longest_mark alone marks).2 rest

/-- A mark is a token by itself. -/
theorem scan_mark {mark : Char} (marks : mark? kind = some mark) (base : Nat) (rest : Text) :
    scan base 0 (mark :: rest) = ⟨kind, [mark], base⟩ :: scan (base + 1) 0 rest := by
  have solid : isGap mark = false := by
    cases kind <;> cases marks <;> decide
  have found : longest mark ([] ++ rest) = (kind, []) := longest_of_mark marks rest
  exact scan_token solid found

/-! ## Identifiers -/

/-- A text is one identifier. -/
def IsIdentifier (text : Text) : Prop :=
  ofLine text = [⟨.identifier, text, 0⟩]

instance (text : Text) : Decidable (IsIdentifier text) :=
  inferInstanceAs (Decidable (_ = _))

theorem Lexed.le_start (lexed : Lexed base line tokens) : ∀ token ∈ tokens, base ≤ token.start := by
  induction lexed with
  | nil => simp
  | gap blank later ih => exact fun token member => Nat.le_of_succ_le (ih token member)
  | token solid found later ih =>
    refine List.forall_mem_cons.mpr ⟨Nat.le_refl _, fun token member => ?_⟩
    have inside := ih token member
    omega

/-! ## Where tokens stand -/

section Places

variable {token : Token} {before after : List Token}

/-- The first token stands behind a gap, and the tokens after it begin where it stops. -/
theorem Lexed.head (lexed : Lexed base line (token :: after)) :
    ∃ gap c text rest, line = gap ++ c :: (text ++ rest) ∧ (∀ d ∈ gap, isGap d = true) ∧
      token = ⟨token.kind, c :: text, base + gap.length⟩ ∧
      longest c (text ++ rest) = (token.kind, text) ∧ Lexed token.stop rest after := by
  generalize whole : token :: after = tokens at lexed
  induction lexed with
  | nil => simp at whole
  | @gap base c line tokens blank later ih =>
    obtain ⟨gap, d, text, rest, rfl, gaps, same, found, behind⟩ := ih whole
    refine ⟨c :: gap, d, text, rest, rfl, List.forall_mem_cons.mpr ⟨blank, gaps⟩, ?_, found, behind⟩
    rw [same, List.length_cons, Nat.add_right_comm, Nat.add_assoc]
  | @token base c kind text rest tokens solid found later =>
    obtain ⟨rfl, rfl⟩ := List.cons.inj whole
    have stop : Token.stop ⟨kind, c :: text, base⟩ = base + 1 + text.length := by
      simp only [Token.stop, List.length_cons]
      omega
    exact ⟨[], c, text, rest, rfl, by simp, rfl, found, by rwa [stop]⟩

/-- Any token stands where it says, and the tokens after it begin where it stops. -/
theorem Lexed.at (lexed : Lexed base line (before ++ token :: after)) :
    ∃ above c text rest, line = above ++ c :: (text ++ rest) ∧
      token = ⟨token.kind, c :: text, base + above.length⟩ ∧
      longest c (text ++ rest) = (token.kind, text) ∧ Lexed token.stop rest after := by
  induction before generalizing base line with
  | nil =>
    obtain ⟨gap, c, text, rest, whole, -, same, found, later⟩ := lexed.head
    exact ⟨gap, c, text, rest, whole, same, found, later⟩
  | cons first before ih =>
    obtain ⟨gap, c, text, rest, rfl, -, same, -, later⟩ := lexed.head
    obtain ⟨above, d, text', rest', rfl, same', found', later'⟩ := ih later
    refine ⟨gap ++ c :: (text ++ above), d, text', rest', by simp, ?_, found', later'⟩
    rw [same', same]
    simp only [stop, List.length_append, List.length_cons, Token.mk.injEq, true_and]
    omega

/-- No token behind a token ends before it. -/
theorem Lexed.start_lt_stop (lexed : Lexed base line (before ++ token :: after)) {last : Token}
    (member : last ∈ token :: after) : token.start < last.stop := by
  obtain ⟨above, c, text, rest, -, same, -, behind⟩ := lexed.at
  have filled : token.start < token.stop := by
    rw [stop, congrArg Token.text same, List.length_cons]
    omega
  rcases List.mem_cons.mp member with rfl | member
  · exact filled
  · exact Nat.lt_of_lt_of_le filled (Nat.le_trans (behind.le_start last member) (Nat.le_add_right _ _))

end Places

/-! ## Runs of characters -/

theorem longest_of_isDigit (digit : c.isDigit = true) (rest : Text) :
    longest c rest = (.number, rest.takeWhile isNumberPart) := by
  have other {d : Char} (outside : d.isDigit = false) : c ≠ d := ne_of_class digit outside
  rw [longest, if_neg (other rfl), if_neg (other rfl), if_neg (other rfl), if_neg (other rfl),
    if_pos digit]

theorem isDigit_of_isTokenStart (start : isTokenStart c = true) : c.isDigit = false := by
  refine Bool.eq_false_iff.mpr fun digit => ?_
  have outside : ((List.range' 48 10).all fun code => !isTokenStart (Char.ofNat code)) = true := rfl
  have bounds : 48 ≤ c.toNat ∧ c.toNat ≤ 57 := by
    rw [Char.isDigit, Bool.and_eq_true, decide_eq_true_eq, decide_eq_true_eq] at digit
    exact digit
  have code := List.all_eq_true.mp outside c.toNat (by rw [List.mem_range'_1]; omega)
  rw [Char.ofNat_toNat, start] at code
  cases code

theorem longest_of_isTokenStart (start : isTokenStart c = true) (rest : Text) :
    longest c rest = (.identifier, rest.takeWhile isTokenPart) := by
  have other {d : Char} (outside : isTokenStart d = false) : c ≠ d := ne_of_class start outside
  rw [longest, if_neg (other rfl), if_neg (other rfl), if_neg (other rfl), if_neg (other rfl),
    if_neg (by simp [isDigit_of_isTokenStart start]), if_pos start]

theorem longest_of_isOperator (operator : isOperator c = true) (rest : Text) :
    longest c rest = (.operator, rest.takeWhile isOperator) := by
  have other {d : Char} (outside : isOperator d = false) : c ≠ d := ne_of_class operator outside
  have plain : "-+*/%<>!|^~?=&".toList.all (fun d => !d.isDigit && !isTokenStart d) = true := rfl
  have begins := List.all_eq_true.mp plain c (List.contains_iff_mem.mp operator)
  rw [Bool.and_eq_true, Bool.not_eq_true', Bool.not_eq_true'] at begins
  rw [longest, if_neg (other (by decide)), if_neg (other (by decide)), if_neg (other (by decide)),
    if_neg (other (by decide)), if_neg (by simp [begins.1]), if_neg (by simp [begins.2]), if_pos operator]

/-- An operator that begins with `=` takes all the operator characters behind it. -/
theorem longest_assign (rest : Text) : longest '=' rest = (.operator, rest.takeWhile isOperator) :=
  longest_of_isOperator (by decide) rest

/-! ## Single identifiers -/

namespace IsIdentifier

theorem cons (name : IsIdentifier text) :
    ∃ c rest, text = c :: rest ∧ isGap c = false ∧ (∀ d ∈ text, isTokenPart d = true) ∧
      ∀ other, longest c other = (.identifier, other.takeWhile isTokenPart) := by
  have lexed := lexed_ofLine text
  generalize tokens : ofLine text = all at lexed
  cases lexed with
  | nil => exact absurd (tokens.symm.trans name) (by simp)
  | @gap _ c rest _ blank later =>
    have start := later.le_start _ (by rw [tokens.symm.trans name]; exact List.mem_singleton_self _)
    exact absurd start (by simp)
  | @token _ c kind front rest tokens' solid found later =>
    obtain ⟨same, -⟩ := List.cons.inj (tokens.symm.trans name)
    obtain ⟨rfl, letters, -⟩ := Token.mk.inj same
    refine ⟨c, _, rfl, solid, ?_, (longest_identifier found).2⟩
    rw [← letters]
    exact (around_of_longest found).parts

/-- An identifier is one before whatever does not go on with it. -/
theorem scan (name : IsIdentifier text) (stop : ∀ c ∈ rest.head?, isTokenPart c = false)
    (base : Nat) :
    scan base 0 (text ++ rest) =
      ⟨.identifier, text, base⟩ :: Token.scan (base + text.length) 0 rest := by
  obtain ⟨c, more, rfl, solid, parts, always⟩ := name.cons
  have inside : ∀ d ∈ more, isTokenPart d = true := (List.forall_mem_cons.mp parts).2
  refine scan_token solid ?_
  rw [always, Text.takeWhile_run inside stop]

end IsIdentifier

/-! ## Places -/

/-- The same token further behind in its line. -/
def move (count : Nat) (token : Token) : Token :=
  { token with start := token.start + count }

theorem scan_add (base count skip : Nat) (text : Text) :
    scan (base + count) skip text = (scan base skip text).map (move count) := by
  induction text generalizing base skip with
  | nil => rfl
  | cons c rest ih =>
    cases skip with
    | succ skip => rw [scan, scan, Nat.add_right_comm, ih]
    | zero =>
      rw [scan, scan]
      split
      · rw [Nat.add_right_comm, ih]
      · dsimp only
        rw [Nat.add_right_comm, ih, List.map_cons]
        rfl

theorem scan_eq_move (base : Nat) (text : Text) :
    scan base 0 text = (ofLine text).map (move base) := by
  rw [ofLine, ← scan_add, Nat.zero_add]

end PawnScope.Token
