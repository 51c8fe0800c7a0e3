import PawnScope.Proofs.Declaration.Shape
import PawnScope.Proofs.Token.Tiling
/-!
The names of what a line of code declares are identifiers of that line, and what stands directly before
one is no part of it.

* `allNamedIn_of_found` — what a line of code declares is named in it;
* `allNamedIn_of_joined` — so is what it declares when more code is joined to it, because the function
  whose parameter list is open keeps its name and its place.
-/

namespace PawnScope.Declaration

/-- The name stands in a line of code at an offset, as an identifier by itself. -/
def NamedIn [Alphabets] (code name : Text) (start : Nat) : Prop :=
  ∃ above rest, Identifier.Around code name above rest ∧ start = above.length

theorem kind_of_isSpecifier {token : Token} (specifier : isSpecifier token = true) :
    token.kind = .identifier := by
  rw [isSpecifier, Bool.and_eq_true, beq_iff_eq] at specifier
  exact specifier.1

theorem kind_of_canName {token : Token} (named : canName token = true) :
    token.kind = .identifier := by
  rw [canName, Bool.and_eq_true, beq_iff_eq] at named
  exact named.1

/-- Before a name there may be a tag and its colon. -/
def IsTag (tag : List Token) : Prop :=
  tag = [] ∨ ∃ word colon, tag = [word, colon] ∧ word.kind = .identifier ∧ colon.kind = .colon

theorem dropTag_eq (tokens : List Token) : ∃ tag, IsTag tag ∧ tokens = tag ++ dropTag tokens := by
  match tokens with
  | [] => exact ⟨[], .inl rfl, rfl⟩
  | [token] => exact ⟨[], .inl rfl, rfl⟩
  | first :: second :: rest =>
    rw [dropTag]
    split
    case isTrue kinds => exact ⟨[first, second], .inr ⟨first, second, rfl, kinds⟩, rfl⟩
    case isFalse => exact ⟨[], .inl rfl, rfl⟩

theorem isLead_of_tag {tag : List Token} (isTag : IsTag tag) :
    ∀ token ∈ tag, token.kind = .identifier ∨ token.kind = .colon := by
  rcases isTag with rfl | ⟨word, colon, rfl, first, second⟩
  · simp
  · simp [first, second]

theorem cut_specifiers {words declared : List Token}
    (specifier : ∀ token ∈ words, isSpecifier token = true)
    (stop : ∀ first ∈ declared.head?, isSpecifier first = false) :
    (words ++ declared).takeWhile isSpecifier = words ∧
      (words ++ declared).dropWhile isSpecifier = declared := by
  rw [List.takeWhile_append_of_pos specifier, List.dropWhile_append_of_pos specifier]
  cases declared with
  | nil => simp
  | cons first rest => simp [stop first rfl]

namespace Shape

variable {tokens rest : List Token} {start : Nat} {specifiers : List Text} {name opener : Token}

theorem ofTokens_eq_function_iff :
    ofTokens tokens = function start specifiers name opener rest ↔
      dropTag (tokens.dropWhile isSpecifier) = name :: opener :: rest ∧ canName name = true ∧
        opener.kind = .openParen ∧ (tokens.takeWhile isSpecifier).map Token.text = specifiers ∧
        marksNew specifiers = false ∧ (tokens.head?.map Token.start).getD name.start = start := by
  rw [ofTokens]
  constructor
  · intro shape
    split at shape
    case h_1 => contradiction
    case h_2 first more found =>
      split at shape
      case isTrue => contradiction
      case isFalse named =>
        cases more with
        | nil => contradiction
        | cons second more =>
          dsimp only at shape
          split at shape
          case isTrue => contradiction
          case isFalse opens =>
            split at shape
            case isTrue => contradiction
            case isFalse fresh =>
              cases shape
              exact ⟨found, by simpa using named, not_not.mp opens, rfl, by simpa using fresh, rfl⟩
  · rintro ⟨found, named, opens, rfl, fresh, rfl⟩
    simp [found, named, opens, fresh]

/-- A name that no parenthesis follows is that of a variable. -/
theorem ofTokens_eq_globals (found : dropTag (tokens.dropWhile isSpecifier) = name :: rest)
    (named : canName name = true) (apart : ∀ second ∈ rest.head?, second.kind ≠ .openParen) :
    ofTokens tokens =
      globals ((tokens.takeWhile isSpecifier).map Token.text) (tokens.dropWhile isSpecifier) := by
  cases rest with
  | nil => simp [ofTokens, found, named]
  | cons second rest => simp [ofTokens, found, named, apart second rfl]

/-- What stands before the name of a function; what follows its parenthesis does not matter. -/
theorem tokens_of_function
    (shape : ofTokens tokens = function start specifiers name opener rest) :
    ∃ before, tokens = before ++ name :: opener :: rest ∧ canName name = true ∧
      opener.kind = .openParen ∧
      (∀ token ∈ before, token.kind = .identifier ∨ token.kind = .colon) ∧
      ∀ rest', ofTokens (before ++ name :: opener :: rest') =
        function start specifiers name opener rest' := by
  obtain ⟨found, named, opens, words, fresh, begins⟩ := ofTokens_eq_function_iff.mp shape
  obtain ⟨tag, isTag, declared⟩ := dropTag_eq (tokens.dropWhile isSpecifier)
  rw [found] at declared
  have whole : tokens.takeWhile isSpecifier ++ (tag ++ name :: opener :: rest) = tokens := by
    rw [← declared, List.takeWhile_append_dropWhile]
  have specifier : ∀ token ∈ tokens.takeWhile isSpecifier, isSpecifier token = true := by
    rw [← List.all_eq_true]
    exact List.all_takeWhile
  refine ⟨tokens.takeWhile isSpecifier ++ tag, by rw [List.append_assoc, whole], named, opens, ?_, ?_⟩
  · intro token member
    rcases List.mem_append.mp member with member | member
    · exact .inl (kind_of_isSpecifier (specifier token member))
    · exact isLead_of_tag isTag token member
  · intro rest'
    have stop : ∀ first ∈ (tag ++ name :: opener :: rest').head?, isSpecifier first = false := by
      intro first head
      have last := List.head?_dropWhile_not isSpecifier tokens
      rw [declared, List.head?_append, List.head?_cons] at last
      rw [List.head?_append, List.head?_cons] at head
      rw [head] at last
      exact last
    obtain ⟨words', declared'⟩ := cut_specifiers specifier stop
    rw [List.append_assoc]
    refine ofTokens_eq_function_iff.mpr ⟨?_, named, opens, ?_, fresh, ?_⟩
    · rw [declared']
      rcases isTag with rfl | ⟨word, colon, rfl, kinds⟩
      · simp [dropTag, opens]
      · simp [dropTag, kinds]
    · rw [words', words]
    · have head : tokens.head? =
          (tokens.takeWhile isSpecifier).head?.or (tag.head?.or (some name)) := by
        conv_lhs => rw [← whole, List.head?_append, List.head?_append, List.head?_cons]
      rw [← begins, head, List.head?_append, List.head?_append, List.head?_cons]

/-- A function that more code is joined to keeps its name and its place. -/
theorem function_append [Alphabets] {code : Text}
    (shape : ofTokens (Token.ofLine code) = function start specifiers name opener rest)
    (more : Text) :
    ∃ rest', ofTokens (Token.ofLine (code ++ more)) =
      function start specifiers name opener rest' := by
  obtain ⟨before, tokens, named, opens, lead, again⟩ := tokens_of_function shape
  have split : Token.ofLine code = (before ++ [name]) ++ opener :: rest := by simp [tokens]
  obtain ⟨rest', tokens'⟩ := Token.ofLine_append split opens (by
    intro token member
    rcases List.mem_append.mp member with member | member
    · exact lead token member
    · rw [List.mem_singleton.mp member]
      exact .inl (kind_of_canName named)) more
  refine ⟨rest', ?_⟩
  rw [tokens', List.append_assoc]
  exact again rest'

theorem namedIn_of_function [Alphabets] {code : Text}
    (shape : ofTokens (Token.ofLine code) = function start specifiers name opener rest) :
    NamedIn code name.text name.start := by
  obtain ⟨before, tokens, named, -, lead, -⟩ := tokens_of_function shape
  refine Token.around_ofLine tokens (kind_of_canName named) fun last member => ?_
  rw [Token.isLead]
  rcases lead last (List.mem_of_getLast? member) with kind | kind <;> simp [kind]

end Shape

/-! ## Variables -/

theorem declarators_ne_nil (depth : Nat) (tokens : List Token) : declarators depth tokens ≠ [] := by
  cases tokens with
  | nil => simp [declarators]
  | cons token rest =>
    rw [declarators]
    split
    · simp
    · split
      · simp
      · split <;> simp

/-- The declarators of tokens: the first one is where the tokens begin, any other behind a comma. -/
theorem declarators_eq {depth : Nat} {tokens group : List Token} {groups : List (List Token)}
    (found : declarators depth tokens = group :: groups) :
    group <+: tokens ∧ ∀ other ∈ groups, ∃ before after,
      tokens = before ++ (other ++ after) ∧ ∃ comma ∈ before.getLast?, comma.kind = .comma := by
  induction tokens generalizing depth group groups with
  | nil =>
    rw [declarators] at found
    obtain ⟨rfl, rfl⟩ := List.cons.inj found
    exact ⟨List.prefix_refl _, by simp⟩
  | cons token rest ih =>
    -- A declarator behind a comma of `rest` is behind that comma still.
    have further {other before after : List Token} (split : rest = before ++ (other ++ after))
        (comma : ∃ comma ∈ before.getLast?, comma.kind = .comma) :
        ∃ before after, token :: rest = before ++ (other ++ after) ∧
          ∃ comma ∈ before.getLast?, comma.kind = .comma := by
      obtain ⟨mark, last, kind⟩ := comma
      refine ⟨token :: before, after, by rw [split, List.cons_append], mark, ?_, kind⟩
      rw [← List.singleton_append, List.getLast?_append_of_ne_nil]
      · exact last
      · rintro rfl
        simp at last
    rw [declarators] at found
    split at found
    case isTrue comma =>
      obtain ⟨rfl, rfl⟩ := List.cons.inj found
      refine ⟨List.nil_prefix, fun other member => ?_⟩
      obtain ⟨first, more, later⟩ := List.exists_cons_of_ne_nil (declarators_ne_nil 0 rest)
      obtain ⟨⟨after, whole⟩, behind⟩ := ih later
      rw [later] at member
      rcases List.mem_cons.mp member with rfl | member
      · exact ⟨[token], after, by rw [whole, List.singleton_append], token, rfl, comma.2⟩
      · obtain ⟨before, after, split, last⟩ := behind other member
        exact further split last
    case isFalse =>
      split at found
      case isTrue =>
        obtain ⟨rfl, rfl⟩ := List.cons.inj found
        exact ⟨List.nil_prefix, by simp⟩
      case isFalse =>
        obtain ⟨first, more, later⟩ :=
          List.exists_cons_of_ne_nil (declarators_ne_nil (groupDepth depth token) rest)
        rw [later] at found
        obtain ⟨rfl, rfl⟩ := List.cons.inj found
        obtain ⟨here, behind⟩ := ih later
        refine ⟨List.cons_prefix_cons.mpr ⟨rfl, here⟩, fun other member => ?_⟩
        obtain ⟨before, after, split, last⟩ := behind other member
        exact further split last

/-- A declarator begins the tokens, or stands behind a comma. -/
theorem mem_declarators {depth : Nat} {tokens group : List Token}
    (member : group ∈ declarators depth tokens) :
    ∃ before after, tokens = before ++ (group ++ after) ∧
      ∀ last ∈ before.getLast?, last.kind = .comma := by
  obtain ⟨first, more, found⟩ := List.exists_cons_of_ne_nil (declarators_ne_nil depth tokens)
  obtain ⟨⟨after, whole⟩, behind⟩ := declarators_eq found
  rw [found] at member
  rcases List.mem_cons.mp member with rfl | member
  · exact ⟨[], after, whole.symm, by simp⟩
  · obtain ⟨before, after, split, comma, found, kind⟩ := behind group member
    refine ⟨before, after, split, fun last here => ?_⟩
    obtain rfl := Option.mem_unique found here
    exact kind

/-- The name in a declarator stands behind a specifier of its own, behind a tag, or first. -/
theorem name_of_ofDeclarator? {code : Text} {specifiers : List Text} {tokens : List Token}
    {head : GlobalHead} (found : ofDeclarator? code specifiers tokens = some head) :
    ∃ before name after, tokens = before ++ name :: after ∧ canName name = true ∧
      name.text = head.name ∧ name.start = head.nameStart ∧
      ∀ token ∈ before, token.kind = .identifier ∨ token.kind = .colon := by
  cases tokens with
  | nil => simp [ofDeclarator?] at found
  | cons first more =>
    rw [ofDeclarator?] at found
    dsimp only at found
    split at found
    case h_1 => contradiction
    case h_2 name after declared =>
      split at found
      case isFalse => contradiction
      case isTrue named =>
        obtain rfl := Option.some.inj found
        cases own : first.isWord constWord with
        | true =>
          rw [own, if_pos rfl] at declared
          obtain ⟨tag, isTag, whole⟩ := dropTag_eq more
          rw [declared] at whole
          refine ⟨first :: tag, name, after, by rw [whole]; rfl, named, rfl, rfl, ?_⟩
          intro token member
          rcases List.mem_cons.mp member with rfl | member
          · rw [Token.isWord, Bool.and_eq_true, beq_iff_eq] at own
            exact .inl own.1
          · exact isLead_of_tag isTag token member
        | false =>
          rw [own, if_neg Bool.false_ne_true] at declared
          obtain ⟨tag, isTag, whole⟩ := dropTag_eq (first :: more)
          rw [declared] at whole
          exact ⟨tag, name, after, whole, named, rfl, rfl, isLead_of_tag isTag⟩

theorem mem_takeGlobals {code : Text} {specifiers : List Text} {groups : List (List Token)}
    {head : GlobalHead} (member : head ∈ takeGlobals code specifiers groups) :
    ∃ group ∈ groups, ofDeclarator? code specifiers group = some head := by
  induction groups with
  | nil => simp [takeGlobals] at member
  | cons group rest ih =>
    rw [takeGlobals] at member
    split at member
    case h_1 => simp at member
    case h_2 other found =>
      rcases List.mem_cons.mp member with rfl | member
      · exact ⟨group, List.mem_cons_self, found⟩
      · obtain ⟨later, inside, same⟩ := ih member
        exact ⟨later, List.mem_cons_of_mem _ inside, same⟩

theorem Shape.tokens_of_globals {tokens declared : List Token} {specifiers : List Text}
    (shape : ofTokens tokens = globals specifiers declared) :
    specifiers = (tokens.takeWhile isSpecifier).map Token.text ∧
      declared = tokens.dropWhile isSpecifier := by
  rw [ofTokens] at shape
  split at shape
  case h_1 => contradiction
  case h_2 name rest _ =>
    split at shape
    case isTrue => contradiction
    case isFalse =>
      cases rest with
      | nil =>
        cases shape
        exact ⟨rfl, rfl⟩
      | cons opener rest =>
        dsimp only at shape
        split at shape
        case isTrue =>
          cases shape
          exact ⟨rfl, rfl⟩
        case isFalse =>
          split at shape <;> contradiction

/-- The variables that a line of code declares are named in it. -/
theorem Shape.namedIn_of_globals [Alphabets] {code : Text} {specifiers : List Text} {declared : List Token}
    (shape : ofTokens (Token.ofLine code) = globals specifiers declared)
    {head : GlobalHead}
    (member : head ∈ takeGlobals code specifiers (declarators 0 declared)) :
    NamedIn code head.name head.nameStart := by
  obtain ⟨group, inside, declares⟩ := mem_takeGlobals member
  obtain ⟨before, after, split, comma⟩ := mem_declarators inside
  obtain ⟨above, name, behind, whole, named, same, start, lead⟩ := name_of_ofDeclarator? declares
  obtain ⟨-, rfl⟩ := tokens_of_globals shape
  have tokens : Token.ofLine code =
      ((Token.ofLine code).takeWhile isSpecifier ++ (before ++ above)) ++
        name :: (behind ++ after) := by
    have cut := List.takeWhile_append_dropWhile (p := isSpecifier) (l := Token.ofLine code)
    rw [split, whole] at cut
    simpa only [List.append_assoc, List.cons_append] using cut.symm
  rw [← same, ← start]
  refine Token.around_ofLine tokens (kind_of_canName named) fun last member => ?_
  rw [List.getLast?_append, List.getLast?_append, Option.mem_def, Option.or_eq_some_iff,
    Option.or_eq_some_iff] at member
  rw [Token.isLead]
  rcases member with (here | ⟨-, here⟩) | ⟨-, here⟩
  · rcases lead last (List.mem_of_getLast? here) with kind | kind <;> simp [kind]
  · simp [comma last here]
  · have specifier := List.all_eq_true.mp List.all_takeWhile last (List.mem_of_getLast? here)
    simp [kind_of_isSpecifier specifier]

/-! ## Joined lines -/

/-- The names of what is declared stand in a line of code. -/
def AllNamedIn [Alphabets] (code : Text) : Declaration → Prop
  | function head => NamedIn code head.name head.nameStart
  | globals heads => ∀ head ∈ heads, NamedIn code head.name head.nameStart

theorem ofPrototype_found {code : Text} {start : Nat} {specifiers : List Text}
    {name opener : Token} {rest : List Token} {complete : Bool} {declaration : Declaration}
    (found : ofPrototype code start specifiers name opener rest complete = .found declaration) :
    ∃ head, declaration = function head ∧ head.name = name.text ∧ head.nameStart = name.start := by
  rw [ofPrototype] at found
  dsimp only at found
  split at found
  · contradiction
  · cases found
    exact ⟨_, rfl, rfl, rfl⟩

theorem ofDeclarators_found {code : Text} {specifiers : List Text} {declared : List Token}
    {declaration : Declaration}
    (found : ofDeclarators code specifiers declared = .found declaration) :
    declaration = globals (takeGlobals code specifiers (declarators 0 declared)) := by
  rw [ofDeclarators] at found
  split at found
  · split at found
    · contradiction
    · cases found
      rfl
  · contradiction

variable {code : Text} {complete : Bool} {declaration : Declaration}

/-- What a line of code declares is named in it. -/
theorem allNamedIn_of_found [Alphabets] (found : recognize code complete = .found declaration) :
    AllNamedIn code declaration := by
  rw [recognize_eq] at found
  cases shape : Shape.ofTokens (Token.ofLine code) with
  | nothing =>
    rw [shape] at found
    contradiction
  | globals specifiers declared =>
    rw [shape] at found
    obtain rfl := ofDeclarators_found found
    exact fun head member => Shape.namedIn_of_globals shape member
  | function start specifiers name opener rest =>
    rw [shape] at found
    obtain ⟨head, rfl, same, starts⟩ := ofPrototype_found found
    rw [AllNamedIn, same, starts]
    exact Shape.namedIn_of_function shape

/-- Only a function waits for more. -/
theorem exists_function_of_unfinished [Alphabets] (waits : recognize code complete = .unfinished) :
    ∃ start specifiers name opener rest,
      Shape.ofTokens (Token.ofLine code) = .function start specifiers name opener rest := by
  rw [recognize_eq] at waits
  cases shape : Shape.ofTokens (Token.ofLine code) with
  | nothing =>
    rw [shape] at waits
    contradiction
  | globals specifiers declared =>
    rw [shape] at waits
    exact absurd waits (ofDeclarators_ne_unfinished _ _ _)
  | function start specifiers name opener rest => exact ⟨_, _, _, _, _, rfl⟩

/-- What a line of code with an open parameter list declares once more code is joined to it. -/
theorem allNamedIn_of_joined [Alphabets] (waits : recognize code complete = .unfinished) (more : Text)
    (found : recognize (code ++ more) true = .found declaration) : AllNamedIn code declaration := by
  obtain ⟨start, specifiers, name, opener, rest, shape⟩ := exists_function_of_unfinished waits
  obtain ⟨rest', shape'⟩ := Shape.function_append shape more
  rw [recognize_eq, shape'] at found
  obtain ⟨head, rfl, same, starts⟩ := ofPrototype_found found
  rw [AllNamedIn, same, starts]
  exact Shape.namedIn_of_function shape

end PawnScope.Declaration
