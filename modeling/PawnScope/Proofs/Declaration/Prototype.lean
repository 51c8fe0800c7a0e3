import PawnScope.Proofs.Declaration.Names
import PawnScope.Proofs.Declaration.ParameterList
/-!
Recognizing a printed prototype. While its list is printed up to a comma only, it waits for more
(`Prototype.Proper.recognize_open`); with the whole list it is the function that was printed:
`Prototype.Proper.recognize_closed`.
-/

namespace PawnScope

open Declaration (specifierWords reservedWords isSpecifier canName closing? Shape)

/-! ## The parameter list -/

/-- Tokens that leave no group open, as the readers of a list see them. -/
structure Neutral (tokens : List Token) : Prop where
  closing : ∀ rest, closing? 1 (tokens ++ rest) = closing? 1 rest
  goesOn : ∀ rest, ∃ afterAssign, Declaration.Continuation.goesOn ⟨0, 0, false⟩ (tokens ++ rest) =
    Declaration.Continuation.goesOn ⟨0, 0, afterAssign⟩ rest
  braces : Line.braceDepth 0 tokens = 0

namespace Neutral

theorem nil : Neutral [] :=
  ⟨fun _ => rfl, fun _ => ⟨false, rfl⟩, rfl⟩

/-- Neutral tokens on both sides of a comma. -/
theorem comma {tokens more : List Token} {mark : Token} (first : Neutral tokens)
    (kind : mark.kind = .comma) (second : Neutral more) : Neutral (tokens ++ mark :: more) where
  closing rest := by
    rw [List.append_assoc, first.closing, List.cons_append, closing?, kind]
    exact second.closing rest
  goesOn rest := by
    obtain ⟨one, same⟩ := first.goesOn (mark :: (more ++ rest))
    obtain ⟨two, same'⟩ := second.goesOn rest
    refine ⟨two, ?_⟩
    have other : mark.isAssign = false := by simp [Token.isAssign, kind]
    rw [List.append_assoc, List.cons_append, same, ← same', Declaration.Continuation.goesOn]
    simp [kind, other]
  braces := by
    have step : Line.braceDepth 0 (mark :: more) = Line.braceDepth 0 more := by
      simp [Line.braceDepth, kind]
    rw [Line.braceDepth_append, first.braces, step, second.braces]

end Neutral

namespace Parameter

variable {parameter behind : Text} {parameters : List Text}

theorem Proper.neutral [Alphabets] (proper : Proper parameter) (base : Nat) :
    Neutral (Token.scan base 0 parameter) := by
  have run : Groups.top.after? false (Token.scan base 0 parameter) = some .top := by
    rw [Token.scan_eq_move, Groups.after?_move, proper.grouped]
  exact ⟨Groups.closing?_append run, Groups.goesOn_append run, Groups.braceDepth_after run⟩

theorem Proper.scan [Alphabets] (proper : Proper parameter)
    (stop : ∀ c ∈ behind.head?, Token.stops c = true)
    (base : Nat) :
    Token.scan base 0 (parameter ++ behind) =
      Token.scan base 0 parameter ++ Token.scan (base + parameter.length) 0 behind := by
  have lexed := Token.lexed_scan base parameter
  exact lexed.scan_append ((lexed.cut proper.single).closed_of_quiet proper.quiet)
    fun c first => Token.isStructural_of_stops (stop c first)

theorem scan_printList [Alphabets] (proper : ∀ parameter ∈ parameters, Proper parameter)
    (stop : ∀ c ∈ behind.head?, Token.stops c = true) (base : Nat) :
    ∃ tokens, Neutral tokens ∧ Token.scan base 0 (printList [] parameters ++ behind) =
      tokens ++ Token.scan (base + (printList [] parameters).length) 0 behind := by
  induction parameters generalizing base with
  | nil => exact ⟨[], .nil, rfl⟩
  | cons parameter rest ih =>
    obtain ⟨here, below⟩ := List.forall_mem_cons.mp proper
    cases rest with
    | nil => exact ⟨_, here.neutral base, here.scan stop base⟩
    | cons next rest =>
      obtain ⟨tokens, neutral, later⟩ := ih below (base + parameter.length + 1 + 1)
      have comma : Token.mark? .comma = some ',' := rfl
      have kind : Token.kind ⟨.comma, [','], base + parameter.length⟩ = .comma := rfl
      refine ⟨_, (here.neutral base).comma kind neutral, ?_⟩
      have list : printList [] (parameter :: next :: rest) ++ behind =
          parameter ++ ',' :: ' ' :: (printList [] (next :: rest) ++ behind) := by
        simp [printList, separator]
      have size : base + (printList [] (parameter :: next :: rest)).length =
          base + parameter.length + 1 + 1 + (printList [] (next :: rest)).length := by
        simp [printList]
        omega
      rw [list, here.scan (by simp [Token.stops]), Token.scan_mark comma, Token.scan_gap rfl, later,
        size, List.append_assoc]
      rfl

end Parameter

/-! ## The words before the list -/

/-- The tokens of words with a blank behind each. -/
def wordTokens (base : Nat) : List Text → List Token
  | [] => []
  | word :: rest => ⟨.identifier, word, base⟩ :: wordTokens (base + word.length + 1) rest

theorem scan_printWords [Alphabets] {words : List Text} (names : ∀ word ∈ words, Token.IsIdentifier word)
    (base : Nat) (rest : Text) :
    Token.scan base 0 (printWords [] words ++ rest) =
      wordTokens base words ++ Token.scan (base + (printWords [] words).length) 0 rest := by
  induction words generalizing base with
  | nil => rfl
  | cons word words ih =>
    obtain ⟨here, below⟩ := List.forall_mem_cons.mp names
    have text : printWords [] (word :: words) ++ rest =
        word ++ ' ' :: (printWords [] words ++ rest) := by
      simp [printWords, separator]
    have size : base + (printWords [] (word :: words)).length =
        base + word.length + 1 + (printWords [] words).length := by
      simp [printWords]
      omega
    have blank : Identifier.isTokenPart ' ' = false := rfl
    rw [text, here.scan (by simpa using blank), Token.scan_gap rfl, ih below, size]
    rfl

theorem isPlain_printWords [Alphabets] {words : List Text}
    (names : ∀ word ∈ words, Token.IsIdentifier word) : ∀ c ∈ printWords [] words, IsPlain c := by
  induction words with
  | nil => exact fun _ member => absurd member List.not_mem_nil
  | cons word words ih =>
    obtain ⟨here, below⟩ := List.forall_mem_cons.mp names
    rw [printWords, List.forall_mem_append, List.forall_mem_cons]
    exact ⟨here.isPlain, isPlain_blank, ih below⟩

theorem map_text_wordTokens (base : Nat) (words : List Text) :
    (wordTokens base words).map Token.text = words := by
  induction words generalizing base with
  | nil => rfl
  | cons word words ih => rw [wordTokens, List.map_cons, ih]

theorem kind_wordTokens {base : Nat} {words : List Text} :
    ∀ token ∈ wordTokens base words, token.kind = .identifier := by
  induction words generalizing base with
  | nil => simp [wordTokens]
  | cons word words ih => exact List.forall_mem_cons.mpr ⟨rfl, ih⟩

theorem isSpecifier_wordTokens {words : List Text} (specifiers : ∀ word ∈ words, word ∈ specifierWords)
    (base : Nat) : ∀ token ∈ wordTokens base words, isSpecifier token = true := by
  induction words generalizing base with
  | nil => simp [wordTokens]
  | cons word words ih =>
    obtain ⟨here, below⟩ := List.forall_mem_cons.mp specifiers
    refine List.forall_mem_cons.mpr ⟨?_, ih below _⟩
    simp [isSpecifier, here]

/-- The tokens of a tag and its colon. -/
def tagTokens (base : Nat) : Option Text → List Token
  | some tag => [⟨.identifier, tag, base⟩, ⟨.colon, [':'], base + tag.length⟩]
  | none => []

theorem scan_printTag [Alphabets] {tag : Option Text} (names : ∀ word ∈ tag, Token.IsIdentifier word)
    (base : Nat) (rest : Text) :
    Token.scan base 0 (printTag tag ++ rest) =
      tagTokens base tag ++ Token.scan (base + (printTag tag).length) 0 rest := by
  cases tag with
  | none => rfl
  | some word =>
    have colon : Token.mark? .colon = some ':' := rfl
    have other : Identifier.isTokenPart ':' = false := rfl
    rw [printTag, List.append_assoc, (names word rfl).scan (by simpa using other),
      List.singleton_append, Token.scan_mark colon, List.length_append]
    rfl

theorem isPlain_printTag [Alphabets] {tag : Option Text} (names : ∀ word ∈ tag, Token.IsIdentifier word) :
    ∀ c ∈ printTag tag, IsPlain c := by
  cases tag with
  | none => exact fun _ member => absurd member List.not_mem_nil
  | some word =>
    rw [printTag, List.forall_mem_append, List.forall_mem_singleton]
    exact ⟨(names word rfl).isPlain, by decide, by decide, by decide⟩

theorem kind_tagTokens (tag : Option Text) (base : Nat) :
    ∀ token ∈ tagTokens base tag, token.kind = .identifier ∨ token.kind = .colon := by
  cases tag <;> simp [tagTokens]

/-- Neither a tag nor a name is taken for a specifier. -/
theorem isSpecifier_tagTokens {tag : Option Text} {name : Token}
    (tags : ∀ word ∈ tag, word ∉ specifierWords) (free : name.text ∉ reservedWords) (base : Nat)
    (rest : List Token) :
    ∀ first ∈ (tagTokens base tag ++ name :: rest).head?, isSpecifier first = false := by
  cases tag with
  | some word => simpa [tagTokens, isSpecifier] using tags word rfl
  | none =>
    have other : name.text ∉ specifierWords := fun member => free (List.mem_append_right _ member)
    simp [tagTokens, isSpecifier, other]

theorem dropTag_tagTokens (tag : Option Text) (base : Nat) {name : Token} {rest : List Token}
    (next : ∀ second ∈ rest.head?, second.kind ≠ .colon) :
    Declaration.dropTag (tagTokens base tag ++ name :: rest) = name :: rest := by
  cases tag with
  | some word => simp [tagTokens, Declaration.dropTag]
  | none =>
    cases rest with
    | nil => rfl
    | cons second rest => simp [tagTokens, Declaration.dropTag, next second rfl]

namespace Prototype

/--
A prototype as it can be printed: storage specifiers other than `new`, a tag that is none of the
specifiers, a name that is not reserved, and parameters that can be printed.
-/
structure Proper [Alphabets] (prototype : Prototype) : Prop where
  specifiers : ∀ word ∈ prototype.specifiers, word ∈ specifierWords ∧ word ≠ "new".toList
  tag : ∀ tag ∈ prototype.tag, Token.IsIdentifier tag ∧ tag ∉ specifierWords
  name : Token.IsIdentifier prototype.name ∧ prototype.name ∉ reservedWords
  parameters : ∀ parameter ∈ prototype.parameters, Parameter.Proper parameter

instance [Alphabets] (prototype : Prototype) : Decidable prototype.Proper :=
  decidable_of_iff ((∀ word ∈ prototype.specifiers, word ∈ specifierWords ∧ word ≠ "new".toList) ∧
      (∀ tag ∈ prototype.tag, Token.IsIdentifier tag ∧ tag ∉ specifierWords) ∧
      (Token.IsIdentifier prototype.name ∧ prototype.name ∉ reservedWords) ∧
      ∀ parameter ∈ prototype.parameters, Parameter.Proper parameter)
    ⟨fun ⟨specifiers, tag, name, parameters⟩ => ⟨specifiers, tag, name, parameters⟩,
      fun ⟨specifiers, tag, name, parameters⟩ => ⟨specifiers, tag, name, parameters⟩⟩

variable {prototype : Prototype}

theorem isIdentifier_of_specifier [Alphabets] : ∀ word ∈ specifierWords, Token.IsIdentifier word := by
  have words : specifierWords.all (fun word => decide (Token.IsIdentifier word)) = true := rfl
  exact fun word member => of_decide_eq_true (List.all_eq_true.mp words word member)

/-- What is printed before the list. -/
def front (prototype : Prototype) : Text :=
  printWords [] prototype.specifiers ++ (printTag prototype.tag ++ (prototype.name ++ ['(']))

theorem length_front (prototype : Prototype) :
    prototype.front.length = prototype.column + prototype.name.length + 1 := by
  simp [front, column]
  omega

def nameToken (prototype : Prototype) : Token :=
  ⟨.identifier, prototype.name, prototype.column⟩

def openToken (prototype : Prototype) : Token :=
  ⟨.openParen, ['('], prototype.column + prototype.name.length⟩

/-- The tokens of a prototype before its list. -/
def frontTokens (prototype : Prototype) : List Token :=
  wordTokens 0 prototype.specifiers ++
    (tagTokens (printWords [] prototype.specifiers).length prototype.tag ++
      [prototype.nameToken, prototype.openToken])

theorem Proper.ofLine_front [Alphabets] (proper : prototype.Proper) (rest : Text) :
    Token.ofLine (prototype.front ++ rest) =
      prototype.frontTokens ++ Token.scan prototype.front.length 0 rest := by
  have words : ∀ word ∈ prototype.specifiers, Token.IsIdentifier word := fun word member =>
    isIdentifier_of_specifier word (proper.specifiers word member).1
  have tag : ∀ word ∈ prototype.tag, Token.IsIdentifier word := fun word member =>
    (proper.tag word member).1
  have opener : Token.mark? .openParen = some '(' := rfl
  have other : Identifier.isTokenPart '(' = false := rfl
  rw [Token.ofLine, length_front, front, List.append_assoc, scan_printWords words, List.append_assoc,
    scan_printTag tag, List.append_assoc, proper.name.1.scan (by simpa using other),
    List.singleton_append, Token.scan_mark opener, frontTokens, List.append_assoc, List.append_assoc,
    Nat.zero_add]
  rfl

theorem start_frontTokens (prototype : Prototype) (rest : List Token) :
    ((prototype.frontTokens ++ rest).head?.map Token.start).getD prototype.nameToken.start = 0 := by
  rw [frontTokens]
  cases words : prototype.specifiers with
  | cons word more => rfl
  | nil =>
    cases tag : prototype.tag with
    | some word => rfl
    | none => simp [tagTokens, wordTokens, nameToken, column, printTag, words, tag, printWords]

/-- The line begins like a function, with the specifiers that were printed. -/
theorem Proper.shape [Alphabets] (proper : prototype.Proper) (rest : List Token) :
    Shape.ofTokens (prototype.frontTokens ++ rest) =
      .function 0 prototype.specifiers prototype.nameToken prototype.openToken rest := by
  have words := isSpecifier_wordTokens (fun word member => (proper.specifiers word member).1) 0
  have stop : ∀ first ∈ (tagTokens (printWords [] prototype.specifiers).length prototype.tag ++
      prototype.nameToken :: prototype.openToken :: rest).head?, isSpecifier first = false :=
    isSpecifier_tagTokens (fun word member => (proper.tag word member).2) proper.name.2 _ _
  obtain ⟨take, drop⟩ := Declaration.cut_specifiers words stop
  have whole : prototype.frontTokens ++ rest = wordTokens 0 prototype.specifiers ++
      (tagTokens (printWords [] prototype.specifiers).length prototype.tag ++
        prototype.nameToken :: prototype.openToken :: rest) := by
    simp [frontTokens]
  have start := start_frontTokens prototype rest
  rw [whole] at start ⊢
  refine Shape.ofTokens_eq_function_iff.mpr ⟨?_, ?_, rfl, ?_, ?_, start⟩
  · rw [drop, dropTag_tagTokens _ _ (by simp [openToken])]
  · simpa [canName, nameToken] using proper.name.2
  · rw [take, map_text_wordTokens]
  · rw [Declaration.marksNew, Declaration.hasOneOf, List.any_eq_false]
    intro word member
    simpa using (proper.specifiers word member).2

/-- A printed prototype begins with a letter. -/
theorem Proper.front_cons [Alphabets] (proper : prototype.Proper) :
    ∃ c more, prototype.front = c :: more ∧ Identifier.isTokenPart c = true := by
  have first {word : Text} (name : Token.IsIdentifier word) (rest : Text) :
      ∃ c more, word ++ rest = c :: more ∧ Identifier.isTokenPart c = true := by
    obtain ⟨c, more, rfl, -, parts, -⟩ := name.cons
    exact ⟨c, more ++ rest, rfl, parts c List.mem_cons_self⟩
  rw [front]
  cases words : prototype.specifiers with
  | cons word more =>
    have specifier := (proper.specifiers word (by simp [words])).1
    rw [printWords, List.append_assoc]
    exact first (isIdentifier_of_specifier word specifier) _
  | nil =>
    cases tag : prototype.tag with
    | some word =>
      rw [printWords, List.nil_append, printTag, List.append_assoc]
      exact first (proper.tag word (by simp [tag])).1 _
    | none => exact first proper.name.1 _

theorem label_eq (prototype : Prototype) :
    prototype.label = prototype.front ++ (printList [] prototype.parameters ++ [')']) := by
  simp [label, front]

theorem Proper.trim_label [Alphabets] (proper : prototype.Proper) :
    Text.trim prototype.label = prototype.label := by
  obtain ⟨c, more, front, part⟩ := proper.front_cons
  refine Text.trim_eq_self (fun d first => ?_) (fun d last => ?_)
  · rw [label_eq, front] at first
    obtain rfl := Option.some.inj first
    exact Identifier.isBlank_of_isTokenPart part
  · have shape : prototype.label = (prototype.front ++ printList [] prototype.parameters) ++ [')'] := by
      rw [label_eq, List.append_assoc]
    rw [shape, List.getLast?_concat] at last
    obtain rfl := Option.some.inj last
    decide

/-! ## Recognition -/

/-- The head of the function that is printed. -/
def head (prototype : Prototype) : FunctionHead where
  name := prototype.name
  nameStart := prototype.column
  label := prototype.label
  parameters := prototype.parameters
  isPrototype := Declaration.marksPrototype prototype.specifiers
  isStatic := Declaration.marksStatic prototype.specifiers

/-- A list that goes on behind a comma waits for more. -/
theorem Proper.recognize_open [Alphabets] (proper : prototype.Proper) {parameters : List Text}
    (printed : ∀ parameter ∈ parameters, Parameter.Proper parameter) :
    Declaration.recognize (prototype.front ++ (printList [] parameters ++ [','])) false =
      .unfinished := by
  have comma : Token.mark? .comma = some ',' := rfl
  have stop : ∀ c ∈ [','].head?, Token.stops c = true := by simp [Token.stops]
  obtain ⟨tokens, neutral, list⟩ := Parameter.scan_printList printed stop prototype.front.length
  rw [Token.scan_mark comma] at list
  rw [Declaration.recognize_eq, proper.ofLine_front, list, proper.shape, Shape.recognize,
    Declaration.ofPrototype, neutral.closing]
  rfl

theorem closing_eq (prototype : Prototype) :
    prototype.closing = ')' :: if prototype.isEnded then [';'] else [] := by
  rw [closing]
  split <;> rfl

/-- The parenthesis that closes the list. -/
def closeToken (prototype : Prototype) : Token :=
  ⟨.closeParen, [')'], prototype.front.length + (printList [] prototype.parameters).length⟩

/-- The line of the whole prototype. -/
def code (prototype : Prototype) : Text :=
  prototype.front ++ (printList [] prototype.parameters ++ prototype.closing)

theorem Proper.ofLine_code [Alphabets] (proper : prototype.Proper) :
    ∃ tokens rest, Neutral tokens ∧
      Token.ofLine prototype.code =
        prototype.frontTokens ++ (tokens ++ prototype.closeToken :: rest) := by
  have closer : Token.mark? .closeParen = some ')' := rfl
  have stop : ∀ c ∈ prototype.closing.head?, Token.stops c = true := by
    simp [closing_eq, Token.stops]
  obtain ⟨tokens, neutral, list⟩ :=
    Parameter.scan_printList proper.parameters stop prototype.front.length
  have mark (base : Nat) : Token.scan base 0 prototype.closing = ⟨.closeParen, [')'], base⟩ ::
      Token.scan (base + 1) 0 (if prototype.isEnded then [';'] else []) := by
    rw [closing_eq, Token.scan_mark closer]
  have line := proper.ofLine_front (printList [] prototype.parameters ++ prototype.closing)
  rw [list, mark] at line
  exact ⟨tokens, _, neutral, line⟩

/-- The parameters stand between the parentheses. -/
theorem slice_list (prototype : Prototype) :
    prototype.code.slice prototype.openToken.stop prototype.closeToken.start =
      printList [] prototype.parameters := by
  have opener : prototype.openToken.stop = prototype.front.length := by
    rw [length_front]
    rfl
  rw [Text.slice, opener, code, closeToken, List.drop_left, Nat.add_sub_cancel_left, List.take_left]

theorem slice_label (prototype : Prototype) :
    prototype.code.slice 0 prototype.closeToken.stop = prototype.label := by
  have whole : prototype.code = prototype.label ++ if prototype.isEnded then [';'] else [] := by
    simp [code, label_eq, closing_eq]
  have size : prototype.closeToken.stop - 0 = prototype.label.length := by
    simp [label_eq, closeToken, Token.stop]
    omega
  rw [Text.slice, size, whole, List.drop_zero, List.take_left]

/-- With the whole list the printed function is found. -/
theorem Proper.recognize_closed [Alphabets] (proper : prototype.Proper) (complete : Bool) :
    Declaration.recognize prototype.code complete = .found (.function prototype.head) := by
  obtain ⟨tokens, rest, neutral, line⟩ := proper.ofLine_code
  have found : closing? 1 (prototype.closeToken :: rest) = some prototype.closeToken := rfl
  rw [Declaration.recognize_eq, line, proper.shape, Shape.recognize, Declaration.ofPrototype,
    neutral.closing, found]
  simp only [Option.isNone_some, Bool.false_and, Bool.false_eq_true, if_false,
    Declaration.parameterList, Declaration.labelBetween, slice_list, slice_label,
    proper.trim_label, Parameter.split_printList proper.parameters]
  rfl

end Prototype

end PawnScope
