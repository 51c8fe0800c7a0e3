import PawnScope.Identifier.European
import PawnScope.Proofs.Declaration.Names
import PawnScope.Proofs.Token.Joining
/-!
The label of a variable that is declared with an initializer. The label ends before the first `=` that is
a token by itself, so it leaves the initializer out exactly if no operator character stands directly behind
the `=`: `Declaration.label_eq_iff`.
-/

namespace PawnScope

namespace Declaration

/-- The specifiers that a line of code begins with. -/
def specifiersOf [Alphabets] (code : Text) : List Text :=
  ((Token.ofLine code).takeWhile isSpecifier).map Token.text

/-- The declarators of a line of code, each as its tokens. -/
def declaratorsOf [Alphabets] (code : Text) : List (List Token) :=
  declarators 0 ((Token.ofLine code).dropWhile isSpecifier)

/-- Tokens inside of `depth` groups that leave open the outermost of them only. -/
def Inner (depth : Nat) : List Token → Prop
  | [] => depth = 1
  | token :: rest => groupDepth depth token ≠ 0 ∧ Inner (groupDepth depth token) rest

instance decidableInner (depth : Nat) (tokens : List Token) : Decidable (Inner depth tokens) :=
  match tokens with
  | [] => inferInstanceAs (Decidable (depth = 1))
  | token :: rest =>
    have := decidableInner (groupDepth depth token) rest
    inferInstanceAs (Decidable (_ ∧ _))

/-- Any number of dimensions, each in brackets. -/
inductive Dimensions : List Token → Prop where
  | nil : Dimensions []
  | cons {opener closer : Token} {size rest : List Token} (opens : opener.kind = .openBracket)
      (inner : Inner 1 size) (closes : closer.kind = .closeBracket) (more : Dimensions rest) :
      Dimensions (opener :: (size ++ closer :: rest))

/-- What a declarator begins with: a `const` of its own or none, a tag or none, a name, and dimensions. -/
inductive Front : List Token → Prop where
  | intro {own tag sizes : List Token} {name : Token}
      (const : own = [] ∨ ∃ word, own = [word] ∧ word.isWord constWord = true) (isTag : IsTag tag)
      (named : name.kind = .identifier) (dimensions : Dimensions sizes) :
      Front (own ++ (tag ++ name :: sizes))

/-- The specifiers, and the code from a declarator's first token up to `assign` without blanks at its end. -/
def labelBefore [Alphabets] (code : Text) (first assign : Token) : Text :=
  Text.join [' '] (specifiersOf code) ++ ' ' :: Text.trimEnd (code.slice first.start assign.start)

/-! ## The end of the label -/

variable {depth : Nat} {front size rest : List Token} {token closer : Token}

theorem beforeInitializer_lead (lead : ∀ token ∈ front, token.kind = .identifier ∨ token.kind = .colon)
    (rest : List Token) : beforeInitializer 0 (front ++ rest) = front ++ beforeInitializer 0 rest := by
  induction front with
  | nil => rfl
  | cons token front ih =>
    obtain ⟨here, below⟩ := List.forall_mem_cons.mp lead
    have apart : ¬(0 = 0 ∧ token.isAssign = true) := by
      rcases here with kind | kind <;> simp [Token.isAssign, kind]
    have level : groupDepth 0 token = 0 := by
      rcases here with kind | kind <;> simp [groupDepth, kind]
    rw [List.cons_append, beforeInitializer, if_neg apart, level, ih below, List.cons_append]

theorem mem_of_mem_beforeInitializer {depth : Nat} {tokens : List Token} {token : Token}
    (member : token ∈ beforeInitializer depth tokens) : token ∈ tokens := by
  induction tokens generalizing depth with
  | nil => exact member
  | cons first tokens ih =>
    rw [beforeInitializer] at member
    split at member
    case isTrue => exact absurd member List.not_mem_nil
    case isFalse =>
      rcases List.mem_cons.mp member with rfl | member
      · exact List.mem_cons_self
      · exact List.mem_cons_of_mem _ (ih member)

/-- Inside of a group nothing begins an initializer. -/
theorem Inner.beforeInitializer (inner : Inner depth size) (inside : depth ≠ 0)
    (closes : closer.kind = .closeBracket) (rest : List Token) :
    beforeInitializer depth (size ++ closer :: rest) =
      size ++ closer :: beforeInitializer 0 rest := by
  induction size generalizing depth with
  | nil =>
    obtain rfl : depth = 1 := inner
    simp [Declaration.beforeInitializer, groupDepth, closes]
  | cons token size ih =>
    obtain ⟨deep, inner⟩ := inner
    rw [List.cons_append, Declaration.beforeInitializer, if_neg fun top => inside top.1, ih inner deep,
      List.cons_append]

theorem Dimensions.beforeInitializer {sizes : List Token} (dimensions : Dimensions sizes)
    (rest : List Token) :
    beforeInitializer 0 (sizes ++ rest) = sizes ++ beforeInitializer 0 rest := by
  induction dimensions with
  | nil => rfl
  | @cons opener closer size sizes opens inner closes more ih =>
    have apart : ¬(0 = 0 ∧ opener.isAssign = true) := by simp [Token.isAssign, opens]
    have level : groupDepth 0 opener = 1 := by simp [groupDepth, opens]
    rw [List.cons_append, List.append_assoc, List.cons_append, Declaration.beforeInitializer,
      if_neg apart, level, inner.beforeInitializer Nat.one_ne_zero closes, ih]
    simp

namespace Front

theorem lead_of_own {own tag : List Token} {name : Token}
    (const : own = [] ∨ ∃ word, own = [word] ∧ word.isWord constWord = true) (isTag : IsTag tag)
    (named : name.kind = .identifier) :
    ∀ token ∈ own ++ (tag ++ [name]), token.kind = .identifier ∨ token.kind = .colon := by
  simp only [List.forall_mem_append, List.forall_mem_singleton]
  refine ⟨?_, isLead_of_tag isTag, .inl named⟩
  rcases const with rfl | ⟨word, rfl, isConst⟩
  · simp
  · rw [Token.isWord, Bool.and_eq_true, beq_iff_eq] at isConst
    simp [isConst.1]

/-- No initializer begins before the end of the dimensions. -/
theorem beforeInitializer (isFront : Front front) (rest : List Token) :
    beforeInitializer 0 (front ++ rest) = front ++ beforeInitializer 0 rest := by
  obtain @⟨own, tag, sizes, name, const, isTag, named, dimensions⟩ := isFront
  have whole (more : List Token) : own ++ (tag ++ name :: sizes) ++ more =
      own ++ (tag ++ [name]) ++ (sizes ++ more) := by simp
  rw [whole, beforeInitializer_lead (lead_of_own const isTag named),
    dimensions.beforeInitializer, whole]

theorem beforeInitializer_assign {assign : Token} (isFront : Front front)
    (isAssign : assign.isAssign = true) (value : List Token) :
    Declaration.beforeInitializer 0 (front ++ assign :: value) = front := by
  rw [isFront.beforeInitializer, Declaration.beforeInitializer, if_pos ⟨rfl, isAssign⟩,
    List.append_nil]

/-- Any other token is read over, and the initializer is looked for behind it. -/
theorem exists_getLast?_beforeInitializer {other : Token} (isFront : Front front)
    (isOther : other.isAssign = false) (value : List Token) :
    ∃ last ∈ other :: value,
      (Declaration.beforeInitializer 0 (front ++ other :: value)).getLast? = some last := by
  have filled : other :: Declaration.beforeInitializer (groupDepth 0 other) value ≠ [] :=
    List.cons_ne_nil _ _
  obtain ⟨last, ends⟩ : ∃ last, (other :: Declaration.beforeInitializer (groupDepth 0 other)
      value).getLast? = some last := ⟨_, List.getLast?_eq_some_getLast filled⟩
  refine ⟨last, ?_, ?_⟩
  · rcases List.mem_cons.mp (List.mem_of_getLast? ends) with rfl | member
    · exact List.mem_cons_self
    · exact List.mem_cons_of_mem _ (mem_of_mem_beforeInitializer member)
  · rw [isFront.beforeInitializer, Declaration.beforeInitializer, if_neg (by simp [isOther]),
      List.getLast?_append_of_ne_nil _ filled, ends]

theorem kind_first (isFront : Front front) : ∀ first ∈ front.head?, first.kind = .identifier := by
  obtain @⟨own, tag, sizes, name, const, isTag, named, dimensions⟩ := isFront
  intro first head
  rcases const with rfl | ⟨word, rfl, isConst⟩
  · rcases isTag with rfl | ⟨word, colon, rfl, kind, -⟩
    · obtain rfl := Option.some.inj head
      exact named
    · obtain rfl := Option.some.inj head
      exact kind
  · obtain rfl := Option.some.inj head
    rw [Token.isWord, Bool.and_eq_true, beq_iff_eq] at isConst
    exact isConst.1

theorem kind_last (isFront : Front front) :
    ∃ before last, front = before ++ [last] ∧
      (last.kind = .identifier ∨ last.kind = .closeBracket) := by
  have ends {sizes : List Token} (dimensions : Dimensions sizes) : sizes = [] ∨
      ∃ before last, sizes = before ++ [last] ∧ last.kind = .closeBracket := by
    induction dimensions with
    | nil => exact .inl rfl
    | @cons opener closer size sizes opens inner closes more ih =>
      right
      rcases ih with rfl | ⟨before, last, rfl, kind⟩
      · exact ⟨opener :: size, closer, by simp, closes⟩
      · exact ⟨opener :: (size ++ closer :: before), last, by simp, kind⟩
  obtain @⟨own, tag, sizes, name, const, isTag, named, dimensions⟩ := isFront
  rcases ends dimensions with rfl | ⟨before, last, rfl, kind⟩
  · exact ⟨own ++ tag, name, by simp, .inl named⟩
  · exact ⟨own ++ (tag ++ name :: before), last, by simp, .inr kind⟩

end Front

/-! ## The characters of the label -/

theorem isBlank_of_ends [Alphabets] {c : Char} {text rest : Text} {kind : TokenKind}
    (found : Token.longest c (text ++ rest) = (kind, text))
    (ends : kind = .identifier ∨ kind = .closeBracket) : ∀ d ∈ c :: text, isBlank d = false := by
  rcases ends with rfl | rfl
  · exact fun d member => Identifier.isBlank_of_isTokenPart ((Token.around_of_longest found).parts d member)
  · obtain ⟨rfl, -⟩ := Token.longest_mark found rfl
    obtain rfl := Token.nil_of_mark found rfl
    exact List.forall_mem_singleton.mpr (by decide)

/-- An `=` begins an initializer if no other operator character follows it. -/
theorem isAssign_iff [Alphabets] {code : Text} {before after : List Token} {assign : Token}
    (tokens : Token.ofLine code = before ++ assign :: after) (begins : assign.text.head? = some '=') :
    assign.isAssign = true ↔ ∀ c ∈ code[assign.start + 1]?, Token.isOperator c = false := by
  obtain ⟨above, c, text, rest, rfl, same, found, -⟩ := (tokens ▸ Token.lexed_ofLine code).at
  rw [same] at begins ⊢
  obtain rfl : c = '=' := Option.some.inj begins
  rw [Token.longest_assign] at found
  obtain ⟨operator, run⟩ := Prod.mk.inj found
  have next : (above ++ '=' :: (text ++ rest))[0 + above.length + 1]? = (text ++ rest).head? := by
    rw [List.getElem?_append_right (by omega), List.head?_eq_getElem?]
    simp
  rw [next, Token.isAssign, ← operator]
  cases text with
  | nil =>
    have stop := (Text.stop_of_takeWhile run).2
    simpa using stop
  | cons d text =>
    have more : Token.isOperator d = true :=
      (Text.stop_of_takeWhile run).1 d List.mem_cons_self
    simp [more]

/-- From offset `start` on the code is `stretch`, which no blank begins or ends, then `gap`, then `rest`. -/
structure Stretch (code : Text) (start : Nat) (stretch gap rest : Text) : Prop where
  drop : code.drop start = stretch ++ (gap ++ rest)
  first : ∃ c ∈ stretch.head?, isBlank c = false
  last : ∀ c ∈ stretch.getLast?, isBlank c = false
  blank : ∀ c ∈ gap, isBlank c = true

namespace Stretch

variable {code stretch gap rest : Text} {start stop : Nat}

theorem labelBetween (around : Stretch code start stretch gap rest) :
    labelBetween code start (start + stretch.length) = stretch := by
  obtain ⟨c, head, solid⟩ := around.first
  rw [Declaration.labelBetween, Text.slice, around.drop, Nat.add_sub_cancel_left, List.take_left]
  refine Text.trim_eq_self (fun d first => ?_) around.last
  obtain rfl := Option.mem_unique head first
  exact solid

theorem trimEnd_slice (around : Stretch code start stretch gap rest) :
    Text.trimEnd (code.slice start (start + (stretch ++ gap).length)) = stretch := by
  rw [Text.slice, around.drop, Nat.add_sub_cancel_left, ← List.append_assoc, List.take_left]
  rw [Text.trimEnd_append_blanks around.blank, Text.trimEnd_eq_self around.last]

/-- A label that goes on behind the gap is longer. -/
theorem length_lt_labelBetween {c : Char} (around : Stretch code start stretch gap (c :: rest))
    (solid : isBlank c = false) (further : start + (stretch ++ gap).length < stop) :
    stretch.length < (Declaration.labelBetween code start stop).length := by
  obtain ⟨d, head, plain⟩ := around.first
  obtain ⟨count, size⟩ : ∃ count, stop - start = (stretch ++ gap).length + (count + 1) :=
    ⟨stop - start - (stretch ++ gap).length - 1, by omega⟩
  have taken : code.slice start stop = (stretch ++ gap) ++ c :: rest.take count := by
    rw [Text.slice, around.drop, ← List.append_assoc, size, List.take_length_add_append,
      List.take_succ_cons]
  have first : ∀ e ∈ (stretch ++ gap).head?, isBlank e = false := by
    intro e begins
    rw [List.head?_append, head] at begins
    obtain rfl := Option.some.inj begins
    exact plain
  have longer := Text.length_lt_trim first solid (rest.take count)
  rw [Declaration.labelBetween, taken]
  rw [List.length_append] at longer
  omega

end Stretch

/-- The code of a front, and of the gap between it and the token behind it. -/
theorem exists_stretch [Alphabets] {code : Text} {before more after : List Token} {first assign : Token}
    (tokens : Token.ofLine code = before ++ (first :: more ++ assign :: after))
    (isFront : Front (first :: more)) :
    ∃ stretch gap c rest, Stretch code first.start stretch gap (c :: rest) ∧
      assign.text.head? = some c ∧ assign.start = first.start + (stretch ++ gap).length ∧
      ∃ last ∈ (first :: more).getLast?, last.stop = first.start + stretch.length := by
  have lexed := tokens ▸ Token.lexed_ofLine code
  obtain ⟨init, last, whole, kind⟩ := isFront.kind_last
  -- The stretch begins with the first token of the front and ends with the last one.
  obtain ⟨above, c, text, rest, begins, same, found, behind⟩ := lexed.at
  rw [whole, List.append_assoc, ← List.append_assoc, List.singleton_append] at lexed
  obtain ⟨above', c', text', rest', ends, same', found', behind'⟩ := lexed.at
  obtain ⟨gap, d, operator, rest'', rfl, gaps, same'', -, -⟩ := behind'.head
  have solid := isBlank_of_ends found (.inl (isFront.kind_first first rfl))
  have solid' := isBlank_of_ends found' kind
  rw [Nat.zero_add] at same same'
  have place : last.start = above'.length := congrArg Token.start same'
  have letters : last.text = c' :: text' := congrArg Token.text same'
  have order : first.start ≤ above'.length := by
    rw [← place]
    have member : last ∈ first :: more := by simp [whole]
    rcases List.mem_cons.mp member with rfl | later
    · exact Nat.le_refl _
    · exact Nat.le_trans (Nat.le_add_right _ _) (behind.le_start last (List.mem_append_left _ later))
  have stop : last.stop = first.start + (above'.drop first.start ++ c' :: text').length := by
    rw [Token.stop, place, letters, List.length_append, List.length_drop]
    omega
  have drop : code.drop first.start =
      (above'.drop first.start ++ c' :: text') ++ (gap ++ d :: (operator ++ rest'')) := by
    rw [ends, List.drop_append_of_le_length order]
    simp
  have head : (above'.drop first.start ++ c' :: text').head? = some c := by
    have here : (code.drop first.start).head? = some c := by
      rw [begins, congrArg Token.start same, List.drop_left]
      rfl
    rwa [drop, List.head?_append_of_ne_nil _ (by simp)] at here
  refine ⟨_, gap, d, _, ⟨drop, ⟨c, head, solid c List.mem_cons_self⟩, ?_, ?_⟩, ?_, ?_, last, ?_, stop⟩
  · rw [List.getLast?_append_of_ne_nil _ (List.cons_ne_nil _ _)]
    exact fun e last => solid' e (List.mem_of_getLast? last)
  · exact fun e member => Token.isBlank_of_isGap (gaps e member)
  · rw [same'']
    rfl
  · rw [same'', stop, Nat.add_assoc, ← List.length_append]
  · rw [whole]
    exact List.getLast?_concat

/-! ## The label -/

theorem getElem?_takeGlobals {code : Text} {specifiers : List Text} {groups : List (List Token)}
    {index : Nat} {group : List Token} {head : GlobalHead}
    (found : (takeGlobals code specifiers groups)[index]? = some head)
    (declared : groups[index]? = some group) : ofDeclarator? code specifiers group = some head := by
  induction groups generalizing index with
  | nil => simp at declared
  | cons first groups ih =>
    rw [takeGlobals] at found
    split at found
    case h_1 => simp at found
    case h_2 other here =>
      cases index with
      | zero =>
        obtain rfl : first = group := by simpa using declared
        obtain rfl : other = head := by simpa using found
        exact here
      | succ index => exact ih (by simpa using found) (by simpa using declared)

/-- A declarator's label ends with the last token before the initializer. -/
theorem label_of_ofDeclarator? {code : Text} {specifiers : List Text} {first last : Token}
    {more : List Token} {head : GlobalHead}
    (found : ofDeclarator? code specifiers (first :: more) = some head)
    (ends : (beforeInitializer 0 (first :: more)).getLast? = some last) :
    head.label = Text.join [' '] specifiers ++ ' ' :: labelBetween code first.start last.stop := by
  rw [ofDeclarator?] at found
  dsimp only at found
  split at found
  case h_1 => contradiction
  case h_2 =>
    split at found
    case isFalse => contradiction
    case isTrue =>
      obtain rfl := Option.some.inj found
      rw [ends]
      rfl

variable {code : Text} {complete : Bool} {heads : List GlobalHead}

/-- The variables of a line of code are those of its declarators. -/
theorem globals_of_recognize [Alphabets] (found : recognize code complete = .found (.globals heads)) :
    heads = takeGlobals code (specifiersOf code) (declaratorsOf code) := by
  rw [recognize_eq] at found
  cases shape : Shape.ofTokens (Token.ofLine code) with
  | nothing =>
    rw [shape] at found
    contradiction
  | globals specifiers declared =>
    rw [shape] at found
    obtain ⟨rfl, rfl⟩ := Shape.tokens_of_globals shape
    exact globals.inj (ofDeclarators_found found)
  | function start specifiers name opener rest =>
    rw [shape] at found
    obtain ⟨head, wrong, -⟩ := ofPrototype_found found
    contradiction

/--
The label of a variable leaves its initializer out exactly if no operator character stands directly behind
the `=`: then it is the specifiers and the declarator up to the `=`, however the `=` is spaced and whatever
the initializer begins with.
-/
theorem label_eq_iff [Alphabets] (found : recognize code complete = .found (.globals heads)) {index : Nat}
    {head : GlobalHead} (here : heads[index]? = some head) {first assign : Token}
    {more value : List Token}
    (declared : (declaratorsOf code)[index]? = some (first :: more ++ assign :: value))
    (isFront : Front (first :: more)) (begins : assign.text.head? = some '=') :
    head.label = labelBefore code first assign ↔
      ∀ c ∈ code[assign.start + 1]?, Token.isOperator c = false := by
  rw [globals_of_recognize found] at here
  have declares := getElem?_takeGlobals here declared
  obtain ⟨before, after, whole, -⟩ := mem_declarators (List.mem_of_getElem? declared)
  have tokens : Token.ofLine code = ((Token.ofLine code).takeWhile isSpecifier ++ before) ++
      (first :: more ++ assign :: (value ++ after)) := by
    have cut := List.takeWhile_append_dropWhile (p := isSpecifier) (l := Token.ofLine code)
    rw [whole] at cut
    simpa using cut.symm
  obtain ⟨stretch, gap, c, rest, around, letter, start, last, ends, stop⟩ :=
    exists_stretch tokens isFront
  rw [← List.append_assoc] at tokens
  obtain rfl : c = '=' := Option.some.inj (letter.symm.trans begins)
  rw [labelBefore, ← isAssign_iff tokens begins, start, around.trimEnd_slice]
  cases isAssign : assign.isAssign with
  | true =>
    have front : beforeInitializer 0 (first :: (more ++ assign :: value)) = first :: more :=
      isFront.beforeInitializer_assign isAssign value
    have label := label_of_ofDeclarator? declares (front ▸ ends)
    rw [stop, around.labelBetween] at label
    exact iff_of_true label rfl
  | false =>
    -- The label goes on over the initializer.
    obtain ⟨last, member, ends⟩ := isFront.exists_getLast?_beforeInitializer isAssign value
    have further := (tokens ▸ Token.lexed_ofLine code).start_lt_stop
      (List.mem_append_left after member)
    rw [start] at further
    have longer := around.length_lt_labelBetween (by decide) further
    refine iff_of_false (fun same => ?_) Bool.false_ne_true
    rw [label_of_ofDeclarator? declares ends] at same
    rw [(List.cons.inj (List.append_cancel_left same)).2] at longer
    exact Nat.lt_irrefl _ longer

open scoped Identifier.European

/-- The `=` of `b` stands by itself, so its label ends before it. -/
theorem label_eq_iff_spaced :
    let code := "new a=-1, const F:b[2] \t= !c;".toList
    ∃ heads head first more assign value, recognize code true = .found (.globals heads) ∧
      heads[1]? = some head ∧
      (declaratorsOf code)[1]? = some (first :: more ++ assign :: value) ∧ Front (first :: more) ∧
      assign.text.head? = some '=' ∧ (∀ c ∈ code[assign.start + 1]?, Token.isOperator c = false) ∧
      head.label = "new const F:b[2]".toList := by
  intro code
  have found : recognize code true = .found (.globals [
      ⟨"a".toList, 4, "new a=-1".toList, false, false⟩,
      ⟨"b".toList, 18, "new const F:b[2]".toList, true, false⟩]) := by decide +kernel
  have declared : (declaratorsOf code)[1]? = some
      ([⟨.identifier, "const".toList, 10⟩, ⟨.identifier, ['F'], 16⟩, ⟨.colon, [':'], 17⟩,
          ⟨.identifier, ['b'], 18⟩, ⟨.openBracket, ['['], 19⟩, ⟨.number, ['2'], 20⟩,
          ⟨.closeBracket, [']'], 21⟩] ++
        ⟨.operator, ['='], 24⟩ :: [⟨.operator, ['!'], 26⟩, ⟨.identifier, ['c'], 27⟩]) := by
    decide +kernel
  have isFront : Front [⟨.identifier, "const".toList, 10⟩, ⟨.identifier, ['F'], 16⟩,
      ⟨.colon, [':'], 17⟩, ⟨.identifier, ['b'], 18⟩, ⟨.openBracket, ['['], 19⟩,
      ⟨.number, ['2'], 20⟩, ⟨.closeBracket, [']'], 21⟩] := by
    have dimensions : Dimensions [⟨.openBracket, ['['], 19⟩, ⟨.number, ['2'], 20⟩,
        ⟨.closeBracket, [']'], 21⟩] :=
      @Dimensions.cons _ _ [⟨.number, ['2'], 20⟩] [] rfl (by decide) rfl .nil
    exact .intro (.inr ⟨_, rfl, rfl⟩) (.inr ⟨_, _, rfl, rfl, rfl⟩) rfl dimensions
  have next : code[24 + 1]? = some ' ' := by decide +kernel
  have apart : ∀ c ∈ code[24 + 1]?, Token.isOperator c = false := by
    intro c found
    obtain rfl : ' ' = c := Option.some.inj (next.symm.trans found)
    decide
  have label := (label_eq_iff found rfl declared isFront rfl).mpr apart
  exact ⟨_, _, _, _, _, _, found, rfl, declared, isFront, rfl, apart, label.trans (by decide +kernel)⟩

/-- The `=-` of `x` is one token, so the label goes on over the initializer. -/
theorem label_with_initializer :
    let code := "new x=-1;".toList
    ∃ heads head first assign value, recognize code true = .found (.globals heads) ∧
      heads[0]? = some head ∧ (declaratorsOf code)[0]? = some ([first] ++ assign :: value) ∧
      Front [first] ∧ assign.text.head? = some '=' ∧ head.label = "new x=-1".toList ∧
      labelBefore code first assign = "new x".toList := by
  intro code
  have found : recognize code true =
      .found (.globals [⟨['x'], 4, "new x=-1".toList, false, false⟩]) := by decide +kernel
  have declared : (declaratorsOf code)[0]? = some ([⟨.identifier, ['x'], 4⟩] ++
      ⟨.operator, ['=', '-'], 5⟩ :: [⟨.number, ['1'], 7⟩]) := by decide +kernel
  have isFront : Front [⟨.identifier, ['x'], 4⟩] :=
    .intro (.inl rfl) (.inl rfl) rfl .nil
  exact ⟨_, _, _, _, _, found, rfl, declared, isFront, rfl, rfl, by decide +kernel⟩

end Declaration

end PawnScope
