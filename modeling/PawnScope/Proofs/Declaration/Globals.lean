import PawnScope.Declaration.Globals
import PawnScope.Proofs.Declaration.Enclosed
import PawnScope.Proofs.Declaration.Prototype
/-!
Recognizing a printed declaration of variables: each declarator is found behind the comma that was printed
for it, whatever its dimensions and its initializer hold. Main result: `Globals.Proper.recognize`.
-/

namespace PawnScope

open Declaration (specifierWords reservedWords isSpecifier canName declarators Undivided ofDeclarator?
  takeGlobals marksConst marksStatic marksGlobal Shape)

/-- Only blanks that stand between tokens. -/
structure Spacing.Proper (spacing : Spacing) : Prop where
  comma : ∀ c ∈ spacing.comma, Token.isGap c = true
  assign : ∀ c ∈ spacing.assign, Token.isGap c = true

instance (spacing : Spacing) : Decidable spacing.Proper :=
  decidable_of_iff (spacing.comma.all Token.isGap = true ∧ spacing.assign.all Token.isGap = true)
    ⟨fun ⟨comma, assign⟩ => ⟨List.all_eq_true.mp comma, List.all_eq_true.mp assign⟩,
      fun ⟨comma, assign⟩ => ⟨List.all_eq_true.mpr comma, List.all_eq_true.mpr assign⟩⟩

/-! ## Tokens of declarators -/

namespace Declaration

/-- Before the name of a declarator no group opens. -/
theorem Undivided.append {front group : List Token}
    (lead : ∀ token ∈ front, token.kind = .identifier ∨ token.kind = .colon)
    (undivided : Undivided 0 group) : Undivided 0 (front ++ group) := by
  induction front with
  | nil => exact undivided
  | cons token front ih =>
    obtain ⟨here, below⟩ := List.forall_mem_cons.mp lead
    refine Undivided.cons (by rcases here with kind | kind <;> simp [kind]) ?_
    have same : groupDepth 0 token = 0 := by
      rcases here with kind | kind <;> simp [groupDepth, kind]
    rw [same]
    exact ih below

variable {token first name : Token} {more rest : List Token}

theorem declarators_comma (kind : token.kind = .comma) (rest : List Token) :
    declarators 0 (token :: rest) = [] :: declarators 0 rest := by
  rw [declarators, if_pos ⟨rfl, kind⟩]

theorem declarators_semicolon (kind : token.kind = .semicolon) (rest : List Token) :
    declarators 0 (token :: rest) = [] :: [] := by
  simp [declarators, kind]

/-- A line that declares variables at all is taken for them. -/
theorem ofDeclarators_of_filled {code : Text} {specifiers : List Text} {declared : List Token}
    (marked : marksGlobal specifiers = true)
    (filled : takeGlobals code specifiers (declarators 0 declared) ≠ []) :
    ofDeclarators code specifiers declared =
      .found (.globals (takeGlobals code specifiers (declarators 0 declared))) := by
  rw [ofDeclarators, marked, if_pos rfl]
  split
  · contradiction
  · rfl

theorem isSpecifier_of_const (const : first.isWord constWord = true) : isSpecifier first = true := by
  rw [Token.isWord, Bool.and_eq_true, beq_iff_eq, beq_iff_eq] at const
  rw [isSpecifier, const.1, const.2]
  decide

/-- A declarator whose name is found declares a variable of that name. -/
theorem ofDeclarator?_of_name (code : Text) (specifiers : List Text) {own : Bool}
    (begins : first.isWord constWord = own)
    (found : dropTag (bif own then more else first :: more) = name :: rest)
    (named : canName name = true) :
    ∃ head, ofDeclarator? code specifiers (first :: more) = some head ∧ head.name = name.text ∧
      head.isConst = (own || marksConst specifiers) ∧ head.isStatic = marksStatic specifiers := by
  rw [Bool.cond_eq_ite] at found
  simp only [ofDeclarator?, begins, found, named, if_true]
  exact ⟨_, rfl, rfl, rfl, rfl⟩

end Declaration

namespace Declarator

/--
A declarator as it can be printed: a tag that is none of the specifiers, a name that is not reserved, and
nothing behind the name that leaves the declarator.
-/
structure Proper [Alphabets] (declarator : Declarator) : Prop where
  tag : ∀ tag ∈ declarator.tag, Token.IsIdentifier tag ∧ tag ∉ specifierWords
  name : Token.IsIdentifier declarator.name ∧ declarator.name ∉ reservedWords
  dimensions : ∀ size ∈ declarator.dimensions, Enclosed (printDimension size)
  initializer : ∀ value ∈ declarator.initializer, Enclosed value

instance [Alphabets] (declarator : Declarator) : Decidable declarator.Proper :=
  decidable_of_iff ((∀ tag ∈ declarator.tag, Token.IsIdentifier tag ∧ specifierWords.contains tag = false) ∧
      (Token.IsIdentifier declarator.name ∧ reservedWords.contains declarator.name = false) ∧
      (∀ size ∈ declarator.dimensions, Enclosed (printDimension size)) ∧
      ∀ value ∈ declarator.initializer, Enclosed value) <| by
    simp only [List.contains_eq_mem, decide_eq_false_iff_not]
    exact ⟨fun ⟨tag, name, dimensions, initializer⟩ => ⟨tag, name, dimensions, initializer⟩,
      fun ⟨tag, name, dimensions, initializer⟩ => ⟨tag, name, dimensions, initializer⟩⟩

variable {declarator : Declarator} {spacing : Spacing} {mark : Char} {behind rest : Text} {base : Nat}

/-! ## Behind the name -/

theorem Proper.enclosed_tail [Alphabets] (proper : declarator.Proper) (blank : spacing.Proper) :
    Enclosed (declarator.tail spacing) := by
  have sizes (dimensions : List Text) (enclosed : ∀ size ∈ dimensions, Enclosed (printDimension size)) :
      Enclosed (dimensions.flatMap printDimension) := by
    induction dimensions with
    | nil => exact .nil
    | cons size dimensions ih =>
      obtain ⟨here, below⟩ := List.forall_mem_cons.mp enclosed
      exact here.append (ih below)
  refine (sizes _ proper.dimensions).append ?_
  cases value : declarator.initializer with
  | none => exact .nil
  | some text =>
    have gap : Enclosed spacing.assign := .of_plain fun c member =>
      Token.isStructural_of_isGap (blank.assign c member)
    have assign : Enclosed ['='] := by decide
    exact gap.append (assign.append (proper.initializer text value))

/-- A character that can follow a name, blanks aside. -/
structure Follows [Alphabets] (c : Char) : Prop where
  solid : Token.isGap c = false
  other : Identifier.isTokenPart c = false
  noParen : c ≠ '('
  noColon : c ≠ ':'

theorem Follows.of_mem [Alphabets] : ∀ c ∈ ['[', '=', ',', ';'], Follows c := by
  have all : ['[', '=', ',', ';'].all (fun c => !Token.isGap c && !Identifier.isTokenPart c &&
      c != '(' && c != ':') = true := rfl
  intro c member
  have here := List.all_eq_true.mp all c member
  simp only [Bool.and_eq_true, Bool.not_eq_true', bne_iff_ne] at here
  obtain ⟨⟨⟨solid, other⟩, noParen⟩, noColon⟩ := here
  exact ⟨solid, other, noParen, noColon⟩

/-- Behind a name there is a dimension, an initializer, or the mark that ends the declarator. -/
theorem exists_tail [Alphabets] (declarator : Declarator) (blank : spacing.Proper) (ends : Follows mark)
    (behind : Text) :
    ∃ gap c rest, declarator.tail spacing ++ mark :: behind = gap ++ c :: rest ∧
      (∀ d ∈ gap, Token.isGap d = true) ∧ Follows c := by
  rw [tail]
  cases declarator.dimensions with
  | cons size dimensions =>
    exact ⟨[], '[', _, rfl, by simp, .of_mem _ (by simp)⟩
  | nil =>
    cases declarator.initializer with
    | none => exact ⟨[], mark, behind, rfl, by simp, ends⟩
    | some value =>
      refine ⟨spacing.assign, '=', value ++ mark :: behind, ?_, blank.assign, .of_mem _ (by simp)⟩
      simp

/-- What follows a name does not go on with it, and makes it neither a tag nor a function. -/
theorem tail_apart [Alphabets] (declarator : Declarator) (blank : spacing.Proper) (ends : Follows mark)
    (behind : Text) :
    (∀ c ∈ (declarator.tail spacing ++ mark :: behind).head?, Identifier.isTokenPart c = false) ∧
      ∀ base, ∀ first ∈ (Token.scan base 0 (declarator.tail spacing ++ mark :: behind)).head?,
        first.kind ≠ .openParen ∧ first.kind ≠ .colon := by
  obtain ⟨gap, c, rest, whole, gaps, follows⟩ := declarator.exists_tail blank ends behind
  rw [whole]
  constructor
  · intro d head
    cases gap with
    | nil =>
      obtain rfl := Option.some.inj head
      exact follows.other
    | cons e gap =>
      obtain rfl := Option.some.inj head
      have gapPart := Token.isPart_of_isGap (gaps e List.mem_cons_self)
      exact Bool.eq_false_iff.mpr fun part =>
        Bool.false_ne_true (gapPart.symm.trans (Identifier.isPart_of_isTokenPart part))
  · intro base first head
    rw [Token.scan_gaps gaps, Token.head?_scan follows.solid] at head
    obtain rfl := Option.some.inj head
    exact ⟨fun kind => follows.noParen (Token.longest_mark (Prod.ext kind rfl) rfl).1,
      fun kind => follows.noColon (Token.longest_mark (Prod.ext kind rfl) rfl).1⟩

/-! ## One declarator -/

/-- The tokens before the name. -/
def leadTokens (declarator : Declarator) (base : Nat) : List Token :=
  wordTokens base declarator.words ++
    tagTokens (base + (printWords [] declarator.words).length) declarator.tag

def nameToken (declarator : Declarator) (base : Nat) : Token :=
  ⟨.identifier, declarator.name, base + (printWords [] declarator.words).length +
    (printTag declarator.tag).length⟩

theorem isIdentifier_words [Alphabets] (declarator : Declarator) :
    ∀ word ∈ declarator.words, Token.IsIdentifier word := by
  have const : Token.IsIdentifier "const".toList := rfl
  rw [words]
  split
  · exact List.forall_mem_singleton.mpr const
  · exact fun _ member => absurd member List.not_mem_nil

theorem Proper.isIdentifier_tag [Alphabets] (proper : declarator.Proper) :
    ∀ word ∈ declarator.tag, Token.IsIdentifier word :=
  fun word member => (proper.tag word member).1

theorem Proper.scan_front [Alphabets] (proper : declarator.Proper)
    (stop : ∀ c ∈ rest.head?, Identifier.isTokenPart c = false) (base : Nat) :
    Token.scan base 0 (declarator.front ++ rest) =
      declarator.leadTokens base ++ declarator.nameToken base ::
        Token.scan (base + declarator.front.length) 0 rest := by
  rw [front, List.append_assoc, scan_printWords declarator.isIdentifier_words, List.append_assoc,
    scan_printTag proper.isIdentifier_tag, proper.name.1.scan stop, leadTokens, nameToken,
    List.append_assoc, List.length_append, List.length_append, ← Nat.add_assoc, ← Nat.add_assoc]

/-- The tokens of a declarator before the mark that ends it. -/
theorem Proper.scan [Alphabets] (proper : declarator.Proper) (blank : spacing.Proper)
    (ends : mark = ',' ∨ mark = ';')
    (closed : ∀ token ∈ Token.scan base 0 (declarator.front ++
      (declarator.tail spacing ++ mark :: behind)), token.isLiteral = true → token.Closed) :
    ∃ group, Token.scan base 0 (declarator.front ++ (declarator.tail spacing ++ mark :: behind)) =
        declarator.leadTokens base ++ declarator.nameToken base :: (group ++
          Token.scan (base + declarator.front.length + (declarator.tail spacing).length) 0
            (mark :: behind)) ∧
      Undivided 0 group ∧
      ∀ first ∈ (group ++ Token.scan (base + declarator.front.length +
          (declarator.tail spacing).length) 0 (mark :: behind)).head?,
        first.kind ≠ .openParen ∧ first.kind ≠ .colon := by
  have follows : Follows mark := .of_mem mark (by rcases ends with rfl | rfl <;> simp)
  have structural : Token.isStructural mark = true := by rcases ends with rfl | rfl <;> decide
  obtain ⟨stop, apart⟩ := declarator.tail_apart blank follows behind
  rw [proper.scan_front stop] at closed ⊢
  have closed' : ∀ token ∈ Token.scan (base + declarator.front.length) 0
      (declarator.tail spacing ++ mark :: behind), token.isLiteral = true → token.Closed :=
    fun token member => closed token (List.mem_append_right _ (List.mem_cons_of_mem _ member))
  obtain ⟨group, same, undivided⟩ := (Token.lexed_scan _ _).enclosed closed' rfl structural
    (proper.enclosed_tail blank)
  refine ⟨group, by rw [same], undivided, ?_⟩
  rw [← same]
  exact apart _

theorem kind_leadTokens (declarator : Declarator) (base : Nat) :
    ∀ token ∈ declarator.leadTokens base ++ [declarator.nameToken base],
      token.kind = .identifier ∨ token.kind = .colon := by
  rw [leadTokens]
  simp only [List.forall_mem_append, List.forall_mem_singleton]
  exact ⟨⟨fun token member => .inl (kind_wordTokens token member), kind_tagTokens _ _⟩, .inl rfl⟩

theorem Proper.canName_nameToken [Alphabets] (proper : declarator.Proper) (base : Nat) :
    canName (declarator.nameToken base) = true := by
  simpa [canName, nameToken] using proper.name.2

/-- Without a specifier of its own a declarator does not begin with one. -/
theorem Proper.unspecified [Alphabets] (proper : declarator.Proper) (plain : declarator.isConst = false)
    (base : Nat) (group : List Token) :
    ∀ first ∈ (declarator.leadTokens base ++ declarator.nameToken base :: group).head?,
      isSpecifier first = false := by
  rw [leadTokens, words, plain]
  exact isSpecifier_tagTokens (fun word member => (proper.tag word member).2) proper.name.2 _ _

theorem dropTag_tokens (declarator : Declarator) (plain : declarator.isConst = false)
    {group : List Token} (next : ∀ first ∈ group.head?, first.kind ≠ .colon) (base : Nat) :
    Declaration.dropTag (declarator.leadTokens base ++ declarator.nameToken base :: group) =
      declarator.nameToken base :: group := by
  rw [leadTokens, words, plain]
  exact dropTag_tagTokens _ _ next

/-- The tokens of a declarator declare its variable. -/
theorem Proper.ofDeclarator? [Alphabets] (proper : declarator.Proper) {group : List Token}
    (next : ∀ first ∈ group.head?, first.kind ≠ .colon) (code : Text) (specifiers : List Text)
    (base : Nat) :
    ∃ head, ofDeclarator? code specifiers
        (declarator.leadTokens base ++ declarator.nameToken base :: group) = some head ∧
      head.name = declarator.name ∧
      head.isConst = (declarator.isConst || marksConst specifiers) ∧
      head.isStatic = marksStatic specifiers := by
  have named := proper.canName_nameToken base
  cases own : declarator.isConst with
  | true =>
    have whole : declarator.leadTokens base ++ declarator.nameToken base :: group =
        ⟨.identifier, "const".toList, base⟩ :: (tagTokens (base + (printWords []
          declarator.words).length) declarator.tag ++ declarator.nameToken base :: group) := by
      simp [leadTokens, words, own, wordTokens]
    have word : Token.isWord ⟨.identifier, "const".toList, base⟩ Declaration.constWord = true := by
      simp [Token.isWord, Declaration.constWord]
    rw [whole]
    exact Declaration.ofDeclarator?_of_name code specifiers word (dropTag_tagTokens _ _ next) named
  | false =>
    have filled : declarator.leadTokens base ++ declarator.nameToken base :: group ≠ [] := by simp
    obtain ⟨first, more, whole⟩ := List.exists_cons_of_ne_nil filled
    have unspecified : isSpecifier first = false :=
      proper.unspecified own base group first (by rw [whole]; rfl)
    have plain : first.isWord Declaration.constWord = false := Bool.eq_false_iff.mpr fun const =>
      Bool.false_ne_true (unspecified.symm.trans (Declaration.isSpecifier_of_const const))
    have found := declarator.dropTag_tokens own next base
    rw [whole] at found ⊢
    exact Declaration.ofDeclarator?_of_name code specifiers plain found named

/-- A reader of the line comes out of a declarator as it went in, if no comment opens. -/
theorem Proper.leads [Alphabets] (proper : declarator.Proper) (blank : spacing.Proper) :
    Mode.Leads .code (declarator.front ++ declarator.tail spacing) .code := by
  have plain : ∀ c ∈ declarator.front, IsPlain c := by
    rw [front]
    simp only [List.forall_mem_append]
    exact ⟨isPlain_printWords declarator.isIdentifier_words,
      isPlain_printTag proper.isIdentifier_tag, proper.name.1.isPlain⟩
  exact (Mode.leads_plain fun c member => (plain c member).unquoted).append
    (proper.enclosed_tail blank).leads

/-- A declarator is found up to the mark that ends it. -/
theorem Proper.takeGlobals_cons [Alphabets] (proper : declarator.Proper) {group behind : List Token}
    {more : List (List Token)} (undivided : Undivided 0 group)
    (next : ∀ first ∈ (group ++ behind).head?, first.kind ≠ .openParen ∧ first.kind ≠ .colon)
    (later : declarators 0 behind = [] :: more) (code : Text) (specifiers : List Text) (base : Nat) :
    ∃ head, takeGlobals code specifiers (declarators 0
        (declarator.leadTokens base ++ declarator.nameToken base :: (group ++ behind))) =
        head :: takeGlobals code specifiers more ∧
      head.name = declarator.name ∧
      head.isConst = (declarator.isConst || marksConst specifiers) ∧
      head.isStatic = marksStatic specifiers := by
  have whole := Undivided.append (declarator.kind_leadTokens base) undivided _ _ _ later
  rw [List.append_nil, List.append_assoc, List.append_assoc, List.append_assoc,
    List.singleton_append, List.singleton_append] at whole
  have next' : ∀ first ∈ group.head?, first.kind ≠ .colon := fun first member =>
    (next first (by rw [List.head?_append, member]; rfl)).2
  obtain ⟨head, found, stated⟩ := proper.ofDeclarator? next' code specifiers base
  refine ⟨head, ?_, stated⟩
  rw [whole, takeGlobals, found]

end Declarator

/-! ## All declarators -/

/-- Declarators begin with the first one, and a mark ends it. -/
theorem exists_printDeclarators_cons (spacing : Spacing) (first : Declarator)
    (rest : List Declarator) :
    ∃ mark behind, (mark = ',' ∨ mark = ';') ∧ printDeclarators spacing (first :: rest) ++ [';'] =
      first.front ++ (first.tail spacing ++ mark :: behind) := by
  cases rest with
  | nil => exact ⟨';', [], .inr rfl, by simp [printDeclarators]⟩
  | cons second rest =>
    exact ⟨',', spacing.comma ++ (printDeclarators spacing (second :: rest) ++ [';']), .inl rfl,
      by simp [printDeclarators]⟩

/-- What a declaration says of a variable: its name, whether it is constant, whether it is static. -/
def GlobalHead.stated (head : GlobalHead) : Text × Bool × Bool :=
  (head.name, head.isConst, head.isStatic)

/-- What specifiers and a declarator say of a variable. -/
def Declarator.stated (specifiers : List Text) (declarator : Declarator) : Text × Bool × Bool :=
  (declarator.name, declarator.isConst || marksConst specifiers, marksStatic specifiers)

variable {spacing : Spacing}

theorem takeGlobals_printDeclarators [Alphabets] (blank : spacing.Proper) {printed : List Declarator}
    (filled : printed ≠ []) (proper : ∀ declarator ∈ printed, declarator.Proper)
    (code : Text) (specifiers : List Text) (base : Nat)
    (closed : ∀ token ∈ Token.scan base 0 (printDeclarators spacing printed ++ [';']),
      token.isLiteral = true → token.Closed) :
    (takeGlobals code specifiers (declarators 0
        (Token.scan base 0 (printDeclarators spacing printed ++ [';'])))).map GlobalHead.stated =
      printed.map (Declarator.stated specifiers) := by
  obtain ⟨first, rest, rfl⟩ := List.exists_cons_of_ne_nil filled
  clear filled
  induction rest generalizing first base with
  | nil =>
    have here := proper first List.mem_cons_self
    have text : printDeclarators spacing [first] ++ [';'] =
        first.front ++ (first.tail spacing ++ ';' :: []) := by
      simp [printDeclarators]
    have semicolon : Token.mark? .semicolon = some ';' := rfl
    rw [text] at closed ⊢
    obtain ⟨group, whole, undivided, next⟩ := here.scan blank (.inr rfl) closed
    rw [Token.scan_mark semicolon] at whole next
    obtain ⟨head, found, name, isConst, isStatic⟩ := here.takeGlobals_cons undivided next
      (Declaration.declarators_semicolon rfl _) code specifiers base
    rw [whole, found]
    simp [takeGlobals, GlobalHead.stated, Declarator.stated, name, isConst, isStatic]
  | cons second rest ih =>
    obtain ⟨here, below⟩ := List.forall_mem_cons.mp proper
    have text : printDeclarators spacing (first :: second :: rest) ++ [';'] =
        first.front ++ (first.tail spacing ++
          ',' :: (spacing.comma ++ (printDeclarators spacing (second :: rest) ++ [';']))) := by
      simp [printDeclarators]
    have comma : Token.mark? .comma = some ',' := rfl
    rw [text] at closed ⊢
    obtain ⟨group, whole, undivided, next⟩ := here.scan blank (.inl rfl) closed
    rw [Token.scan_mark comma, Token.scan_gaps blank.comma] at whole next
    obtain ⟨head, found, name, isConst, isStatic⟩ := here.takeGlobals_cons undivided next
      (Declaration.declarators_comma rfl _) code specifiers base
    have later := ih _ second below fun token member => closed token <| whole ▸
      List.mem_append_right _ (List.mem_cons_of_mem _ (List.mem_append_right _
        (List.mem_cons_of_mem _ member)))
    rw [whole, found, List.map_cons, later]
    simp [GlobalHead.stated, Declarator.stated, name, isConst, isStatic]

theorem leads_printDeclarators [Alphabets] (blank : spacing.Proper) {declarators : List Declarator}
    (proper : ∀ declarator ∈ declarators, declarator.Proper) :
    Mode.Leads .code (printDeclarators spacing declarators) .code := by
  induction declarators with
  | nil => exact Enclosed.nil.leads
  | cons first rest ih =>
    obtain ⟨here, below⟩ := List.forall_mem_cons.mp proper
    cases rest with
    | nil => exact here.leads blank
    | cons second rest =>
      have text : printDeclarators spacing (first :: second :: rest) =
          first.front ++ first.tail spacing ++ ([','] ++ (spacing.comma ++
            printDeclarators spacing (second :: rest))) := by
        simp [printDeclarators]
      have gap : Mode.Leads .code spacing.comma .code := Mode.leads_plain fun c member =>
        Token.isQuote_of_isStructural (Token.isStructural_of_isGap (blank.comma c member))
      rw [text]
      exact (here.leads blank).append ((Mode.leads_code (by decide)).append (gap.append (ih below)))

namespace Globals

/--
A declaration of variables as it can be printed: specifiers that variables may be declared with, and
declarators for different names, the first without a `const` of its own.
-/
structure Proper [Alphabets] (globals : Globals) : Prop where
  specifiers : ∀ word ∈ globals.specifiers, word ∈ specifierWords
  begins : ∃ first ∈ globals.specifiers.head?,
    first ∈ ["new", "static", "const", "public", "stock"].map String.toList
  own : ∀ word ∈ globals.specifiers, word ∉ ["forward", "native"].map String.toList
  first : ∃ first ∈ globals.declarators.head?, first.isConst = false
  declarators : ∀ declarator ∈ globals.declarators, declarator.Proper
  distinct : (globals.declarators.map fun declarator => Identifier.key declarator.name).Nodup

instance [Alphabets] (globals : Globals) : Decidable globals.Proper :=
  decidable_of_iff ((∀ word ∈ globals.specifiers, specifierWords.contains word = true) ∧
      (∃ first ∈ globals.specifiers.head?,
        (["new", "static", "const", "public", "stock"].map String.toList).contains first = true) ∧
      (∀ word ∈ globals.specifiers, (["forward", "native"].map String.toList).contains word = false) ∧
      (∃ first ∈ globals.declarators.head?, first.isConst = false) ∧
      (∀ declarator ∈ globals.declarators, declarator.Proper) ∧
      (globals.declarators.map fun declarator => Identifier.key declarator.name).Nodup) <| by
    simp only [List.contains_eq_mem, decide_eq_false_iff_not, decide_eq_true_eq]
    exact ⟨fun ⟨specifiers, begins, own, first, declarators, distinct⟩ =>
        ⟨specifiers, begins, own, first, declarators, distinct⟩,
      fun ⟨specifiers, begins, own, first, declarators, distinct⟩ =>
        ⟨specifiers, begins, own, first, declarators, distinct⟩⟩

variable {globals : Globals}

theorem Proper.isIdentifier [Alphabets] (proper : globals.Proper) :
    ∀ word ∈ globals.specifiers, Token.IsIdentifier word := fun word member =>
  Prototype.isIdentifier_of_specifier word (proper.specifiers word member)

theorem Proper.filled [Alphabets] (proper : globals.Proper) : globals.declarators ≠ [] := by
  obtain ⟨first, head, -⟩ := proper.first
  rintro nothing
  simp [nothing] at head

theorem Proper.marksGlobal [Alphabets] (proper : globals.Proper) :
    Declaration.marksGlobal globals.specifiers = true := by
  obtain ⟨word, head, isGlobal⟩ := proper.begins
  have plain : Declaration.marksPrototype globals.specifiers = false := by
    rw [Declaration.marksPrototype, Declaration.hasOneOf, List.any_eq_false]
    exact fun word member => by simpa using proper.own word member
  rw [Declaration.marksGlobal, plain, List.take_one, head, Declaration.hasOneOf]
  simpa using isGlobal

/-- The literals of a printed declaration are closed, if no comment opens in it. -/
theorem Proper.quiet [Alphabets] (proper : globals.Proper) (blank : spacing.Proper)
    (uncommented : ∀ region ∈ Mode.code.regions (globals.print spacing), region.isKept = true) :
    Quiet (globals.print spacing) := by
  have words : Mode.Leads .code (printWords [] globals.specifiers) .code :=
    Mode.leads_plain fun c member => (isPlain_printWords proper.isIdentifier c member).unquoted
  have leads : Mode.Leads .code (globals.print spacing) .code :=
    words.append ((leads_printDeclarators blank proper.declarators).append
      (Mode.leads_code (by decide)))
  have after := (leads [] (by rwa [List.append_nil])).2
  rw [List.append_nil] at after
  exact ⟨uncommented, after⟩

/-- The line begins like a declaration of variables, with the specifiers that were printed. -/
theorem Proper.shape [Alphabets] (proper : globals.Proper) (blank : spacing.Proper)
    (closed : ∀ token ∈ Token.ofLine (globals.print spacing),
      token.isLiteral = true → token.Closed) :
    ∃ base, Shape.ofTokens (Token.ofLine (globals.print spacing)) = .globals globals.specifiers
        (Token.scan base 0 (printDeclarators spacing globals.declarators ++ [';'])) ∧
      ∀ token ∈ Token.scan base 0 (printDeclarators spacing globals.declarators ++ [';']),
        token.isLiteral = true → token.Closed := by
  obtain ⟨first, head, plain⟩ := proper.first
  obtain ⟨rest, all⟩ := List.head?_eq_some_iff.mp head
  have here : first.Proper := proper.declarators first (by simp [all])
  have line : Token.ofLine (globals.print spacing) = wordTokens 0 globals.specifiers ++
      Token.scan (0 + (printWords [] globals.specifiers).length) 0
        (printDeclarators spacing globals.declarators ++ [';']) := by
    rw [Token.ofLine, print, scan_printWords proper.isIdentifier]
  generalize 0 + (printWords [] globals.specifiers).length = base at line
  rw [line] at closed ⊢
  have closed' := fun token member => closed token (List.mem_append_right _ member)
  refine ⟨base, ?_, closed'⟩
  -- The first declarator decides that the line declares variables and no function.
  obtain ⟨mark, behind, ends, text⟩ := exists_printDeclarators_cons spacing first rest
  rw [← all] at text
  rw [text] at closed'
  obtain ⟨group, tokens, -, next⟩ := here.scan blank ends closed'
  rw [← text] at tokens
  have stop : ∀ token ∈ (Token.scan base 0 (printDeclarators spacing globals.declarators ++
      [';'])).head?, isSpecifier token = false := by
    rw [tokens]
    exact here.unspecified plain base _
  obtain ⟨take, drop⟩ := Declaration.cut_specifiers
    (isSpecifier_wordTokens proper.specifiers 0) stop
  have found := first.dropTag_tokens plain (fun token member => (next token member).2) base
  rw [← tokens, ← drop] at found
  have shape := Shape.ofTokens_eq_globals found (here.canName_nameToken base)
    fun token member => (next token member).1
  rwa [take, drop, map_text_wordTokens] at shape

/-- A printed declaration declares its variables. -/
theorem Proper.recognize [Alphabets] (proper : globals.Proper) (blank : spacing.Proper)
    (single : '\n' ∉ globals.print spacing) (quiet : Quiet (globals.print spacing))
    (complete : Bool) :
    ∃ heads, Declaration.recognize (globals.print spacing) complete = .found (.globals heads) ∧
      heads.map GlobalHead.stated =
        globals.declarators.map (Declarator.stated globals.specifiers) := by
  obtain ⟨base, shape, closed⟩ := proper.shape blank (quiet.closed_ofLine single)
  have stated := takeGlobals_printDeclarators blank proper.filled proper.declarators
    (globals.print spacing) globals.specifiers base closed
  refine ⟨_, ?_, stated⟩
  rw [Declaration.recognize_eq, shape, Shape.recognize,
    Declaration.ofDeclarators_of_filled proper.marksGlobal]
  intro nothing
  rw [nothing] at stated
  exact proper.filled (List.map_eq_nil_iff.mp stated.symm)

end Globals

end PawnScope
