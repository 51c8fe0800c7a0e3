import PawnScope.Identifier.European
import PawnScope.Proofs.Declaration.Written
import PawnScope.Proofs.Query.Positional
/-!
The parameter that a named argument is for. A parameter's name is found between what stands before it and its
dimensions or default value (`Parameter.Declares.name?_eq`), so an argument that begins with a dot and that
name is for that parameter, whatever stands before the argument: `Query.signature?_named`.
-/

namespace PawnScope

open Token (isStructural)

/-! ## The form of a parameter -/

namespace Parameter

/-- Nothing but blanks, with `word` before them or not. -/
def Optional (word text : Text) : Prop :=
  ∃ blanks, (∀ c ∈ blanks, isBlank c = true) ∧ (text = blanks ∨ text = word ++ blanks)

/-- A tag with its colon, or nothing. A tag may be a list of tags in braces. -/
def Tagged (text : Text) : Prop :=
  text = [] ∨ ∃ tag blanks, text = tag ++ ':' :: blanks ∧ (∀ c ∈ blanks, isBlank c = true) ∧
    Nested [] tag ∧ '=' ∉ tag ∧ '[' ∉ tag

/-- The dimensions of an array, with blanks around each of them. -/
inductive Dimensions : Text → Prop where
  | nil {blanks : Text} (blank : ∀ c ∈ blanks, isBlank c = true) : Dimensions blanks
  | cons {blanks inner more : Text} (blank : ∀ c ∈ blanks, isBlank c = true)
      (inside : Nested [',', ';'] inner) (behind : Dimensions more) :
      Dimensions (blanks ++ '[' :: (inner ++ ']' :: more))

/-- A default value behind its `=`, or nothing. Its commas stand in groups or in literals. -/
def Default (text : Text) : Prop :=
  text = [] ∨ ∃ value, text = '=' :: value ∧ Nested [';'] value

/-- A parameter of the form `[const] [&] [tag:] name [dimensions] [= default]`, without comments. -/
inductive Declares [Alphabets] (name : Text) : Text → Prop where
  | intro {blanks const reference tag dimensions value : Text}
      (blank : ∀ c ∈ blanks, isBlank c = true) (qualified : Optional "const".toList const)
      (referred : Optional ['&'] reference) (tagged : Tagged tag)
      (apart : ∀ c ∈ (blanks ++ const ++ reference ++ tag).getLast?, Identifier.isPart c = false)
      (filled : name ≠ []) (parts : ∀ c ∈ name, Identifier.isPart c = true)
      (sized : Dimensions dimensions) (valued : Default value)
      (uncommented : Uncommented
        (blanks ++ const ++ reference ++ tag ++ name ++ (dimensions ++ value))) :
      Declares name (blanks ++ const ++ reference ++ tag ++ name ++ (dimensions ++ value))

variable {name parameter text front rest blanks : Text}

/-! ## The name -/

/-- Neither dimensions nor a default value begin with the character. -/
def isOpen (c : Char) : Bool :=
  c != '=' && c != '['

theorem name?_eq [Alphabets] (parameter : Text) :
    name? parameter = (let name := Word.lastRun (Text.trimEnd (parameter.takeWhile isOpen))
      if name.isEmpty then none else some name) := by
  have both : (parameter.takeWhile (· != '=')).takeWhile (· != '[') = parameter.takeWhile isOpen := by
    rw [List.takeWhile_takeWhile]
    congr 1
    funext c
    by_cases assign : c = '=' <;> by_cases opener : c = '[' <;> simp [isOpen, assign, opener]
  rw [name?, both]
  rfl

theorem isOpen_of_isBlank {c : Char} (blank : isBlank c = true) : isOpen c = true := by
  have other : ∀ d, isBlank d = false → c ≠ d := by
    rintro d solid rfl
    rw [solid] at blank
    contradiction
  simp [isOpen, other '=' (by decide), other '[' (by decide)]

theorem isPart_of_isBlank [Alphabets] {c : Char} (blank : isBlank c = true) : Identifier.isPart c = false :=
  Bool.eq_false_iff.mpr fun part => by
    rw [Identifier.isBlank_of_isPart part] at blank
    contradiction

/-- A run of word characters does not go on over blanks. -/
theorem lastRun_blanks_append [Alphabets] (blank : ∀ c ∈ blanks, isBlank c = true) (text : Text) :
    Word.lastRun (Text.trimEnd (blanks ++ text)) = Word.lastRun (Text.trimEnd text) := by
  by_cases nothing : Text.trimEnd text = []
  · obtain ⟨tail, whole, blank'⟩ := Text.exists_trimEnd text
    rw [nothing, List.nil_append] at whole
    subst whole
    have first := Text.trimEnd_append_blanks blank []
    rw [Text.trimEnd_append_blanks blank', nothing, ← List.nil_append blanks, first]
    rfl
  · rw [Text.trimEnd_append nothing, Word.lastRun, Word.lastRun, List.reverse_append,
      Text.takeWhile_append_stop fun c first => ?_]
    exact isPart_of_isBlank (blank c (List.mem_reverse.mp (List.mem_of_head? first)))

theorem name?_blanks_append [Alphabets] (blank : ∀ c ∈ blanks, isBlank c = true) (parameter : Text) :
    name? (blanks ++ parameter) = name? parameter := by
  rw [name?_eq, name?_eq,
    List.takeWhile_append_of_pos fun c member => isOpen_of_isBlank (blank c member),
    lastRun_blanks_append blank]

theorem name?_append_blanks [Alphabets] (blank : ∀ c ∈ blanks, isBlank c = true) (parameter : Text) :
    name? (parameter ++ blanks) = name? parameter := by
  rw [name?_eq, name?_eq, List.takeWhile_append]
  split
  case isTrue whole =>
    have same : parameter.takeWhile isOpen = parameter :=
      (List.takeWhile_prefix isOpen).eq_of_length whole
    have blank' : ∀ c ∈ blanks.takeWhile isOpen, isBlank c = true :=
      fun c member => blank c ((List.takeWhile_prefix isOpen).subset member)
    rw [Text.trimEnd_append_blanks blank', same]
  case isFalse => rfl

/-- Trimming a parameter does not change its name. -/
theorem name?_trim [Alphabets] (parameter : Text) : name? (Text.trim parameter) = name? parameter := by
  obtain ⟨tail, whole, blank⟩ := Text.exists_trimEnd (Text.trimStart parameter)
  have front : parameter.takeWhile isBlank ++ Text.trimStart parameter = parameter :=
    List.takeWhile_append_dropWhile
  have blank' : ∀ c ∈ parameter.takeWhile isBlank, isBlank c = true :=
    List.all_eq_true.mp List.all_takeWhile
  have start := name?_blanks_append blank' (Text.trimStart parameter)
  rw [front, whole, name?_append_blanks blank] at start
  exact start.symm

/-- A name is found between what stands before it and its dimensions or default value. -/
theorem name?_of_front [Alphabets] {tail : Text} (open_ : ∀ c ∈ front, isOpen c = true)
    (apart : ∀ c ∈ front.getLast?, Identifier.isPart c = false) (filled : name ≠ [])
    (parts : ∀ c ∈ name, Identifier.isPart c = true) (blank : ∀ c ∈ blanks, isBlank c = true)
    (stop : ∀ c ∈ tail.head?, isOpen c = false) :
    name? (front ++ (name ++ (blanks ++ tail))) = some name := by
  have within : ∀ c ∈ front ++ (name ++ blanks), isOpen c = true := by
    refine List.forall_mem_append.mpr ⟨open_, List.forall_mem_append.mpr ⟨fun c member => ?_,
      fun c member => isOpen_of_isBlank (blank c member)⟩⟩
    have other : ∀ d, Identifier.isPart d = false → c ≠ d := by
      rintro d outside rfl
      rw [parts c member] at outside
      contradiction
    simp [isOpen, other '=' rfl, other '[' rfl]
  have whole : front ++ (name ++ (blanks ++ tail)) = front ++ (name ++ blanks) ++ tail := by simp
  rw [name?_eq, whole, Text.takeWhile_run within stop,
    ← Text.endsInName_iff.mp (Text.endsInName_of_run filled parts apart blank)]
  exact if_neg (by simpa using filled)

theorem Dimensions.exists_blanks (sized : Dimensions text) :
    ∃ blanks tail, text = blanks ++ tail ∧ (∀ c ∈ blanks, isBlank c = true) ∧
      ∀ c ∈ tail.head?, c = '[' := by
  cases sized with
  | nil blank => exact ⟨text, [], by simp, blank, by simp⟩
  | cons blank => exact ⟨_, _, rfl, blank, by simp⟩

theorem Optional.forall {word : Text} {part : Char → Bool} {value : Bool} (optional : Optional word text)
    (inside : word.all (fun c => part c == value) = true)
    (blank : ∀ c, isBlank c = true → part c = value) : ∀ c ∈ text, part c = value := by
  obtain ⟨blanks, allBlank, rfl | rfl⟩ := optional
  · exact fun c member => blank c (allBlank c member)
  · exact List.forall_mem_append.mpr ⟨fun c member => beq_iff_eq.mp (List.all_eq_true.mp inside c member),
      fun c member => blank c (allBlank c member)⟩

theorem Tagged.isOpen (tagged : Tagged text) : ∀ c ∈ text, isOpen c = true := by
  obtain rfl | ⟨tag, blanks, rfl, blank, -, assign, opener⟩ := tagged
  · simp
  · refine List.forall_mem_append.mpr ⟨fun c member => ?_, List.forall_mem_cons.mpr ⟨by decide,
      fun c member => isOpen_of_isBlank (blank c member)⟩⟩
    have notAssign : c ≠ '=' := fun same => assign (same ▸ member)
    have notOpener : c ≠ '[' := fun same => opener (same ▸ member)
    simp [Parameter.isOpen, notAssign, notOpener]

theorem Declares.name?_eq [Alphabets] (declares : Declares name parameter) :
    name? parameter = some name := by
  obtain @⟨blanks, const, reference, tag, dimensions, value, blank, qualified, referred, tagged, apart,
    filled, parts, sized, valued, -⟩ := declares
  obtain ⟨blanks', tail, rfl, blank', first⟩ := sized.exists_blanks
  have open_ : ∀ c ∈ blanks ++ const ++ reference ++ tag, isOpen c = true := by
    simp only [List.forall_mem_append]
    exact ⟨⟨⟨fun c member => isOpen_of_isBlank (blank c member),
      qualified.forall (by decide) fun c => isOpen_of_isBlank⟩,
      referred.forall (by decide) fun c => isOpen_of_isBlank⟩, tagged.isOpen⟩
  have stop : ∀ c ∈ (tail ++ value).head?, isOpen c = false := by
    intro c head
    rw [List.head?_append, Option.mem_def, Option.or_eq_some_iff] at head
    rcases head with head | ⟨-, head⟩
    · rw [first c head]
      rfl
    · obtain rfl | ⟨value', rfl, -⟩ := valued
      · cases head
      · rw [← Option.some.inj head]
        rfl
  have found := name?_of_front open_ apart filled parts blank' stop
  simpa only [List.append_assoc] using found

/-! ## The list -/

theorem isStructural_of_isPart [Alphabets] {c : Char} (part : Identifier.isPart c = true) :
    isStructural c = false :=
  Token.isStructural_of_apart rfl part

theorem isStructural_of_isBlank {c : Char} (blank : isBlank c = true) : isStructural c = false :=
  Token.isStructural_of_apart (by decide) blank

theorem Tagged.nested (tagged : Tagged text) : Nested [';'] text := by
  obtain rfl | ⟨tag, blanks, rfl, blank, nested, -, -⟩ := tagged
  · exact .nil
  · refine (nested.mono (List.nil_subset _)).append (.plain (List.forall_mem_cons.mpr ⟨rfl, ?_⟩))
    exact fun c member => isStructural_of_isBlank (blank c member)

theorem Dimensions.nested (sized : Dimensions text) : Nested [';'] text := by
  induction sized with
  | nil blank => exact .plain fun c member => isStructural_of_isBlank (blank c member)
  | cons blank inside _ ih =>
    exact .group (fun c member => isStructural_of_isBlank (blank c member)) (by decide) inside ih

theorem Default.nested (valued : Default text) : Nested [';'] text := by
  obtain rfl | ⟨value, rfl, nested⟩ := valued
  · exact .nil
  · exact nested.prepend (List.forall_mem_singleton.mpr rfl)

theorem Declares.nested [Alphabets] (declares : Declares name parameter) : Nested [';'] parameter := by
  obtain @⟨blanks, const, reference, tag, dimensions, value, blank, qualified, referred, tagged, -, -,
    parts, sized, valued, -⟩ := declares
  have free : ∀ c ∈ blanks ++ const ++ reference, isStructural c = false := by
    simp only [List.forall_mem_append]
    exact ⟨⟨fun c member => isStructural_of_isBlank (blank c member),
      qualified.forall (by decide) fun c => isStructural_of_isBlank⟩,
      referred.forall (by decide) fun c => isStructural_of_isBlank⟩
  have named : Nested [';'] name := .plain fun c member => isStructural_of_isPart (parts c member)
  exact ((Nested.prepend free tagged.nested).append named).append (sized.nested.append valued.nested)

theorem Declares.quiet [Alphabets] (declares : Declares name parameter) : Quiet parameter := by
  have nested := declares.nested
  obtain ⟨-, -, -, -, -, -, -, -, -, uncommented⟩ := declares
  exact nested.quiet uncommented

theorem Declares.word [Alphabets] (declares : Declares name parameter) :
    name ≠ [] ∧ ∀ c ∈ name, Identifier.isPart c = true := by
  obtain ⟨-, -, -, -, -, filled, parts, -, -, -⟩ := declares
  exact ⟨filled, parts⟩

theorem Declares.trim_ne_nil [Alphabets] (declares : Declares name parameter) :
    Text.trim parameter ≠ [] := by
  intro nothing
  have named := declares.name?_eq
  rw [← name?_trim, nothing] at named
  contradiction

theorem quiet_join {texts : List Text} (quiet : ∀ text ∈ texts, Quiet text) :
    Quiet (Text.join [','] texts) := by
  induction texts with
  | nil => exact ⟨by simp [Text.join, Mode.regions], rfl⟩
  | cons text texts ih =>
    obtain ⟨here, below⟩ := List.forall_mem_cons.mp quiet
    cases texts with
    | nil => exact here
    | cons other texts =>
      rw [Text.join_cons _ _ (List.cons_ne_nil _ _)]
      exact here.append (quiet_mark rfl rfl (ih below)) (apart_of_isStructural rfl _ _)

variable {parameters : List (Text × Text)}

/-- The parameters of a list are what is written in it, without the blanks around them. -/
theorem split_join [Alphabets] (form : ∀ parameter ∈ parameters, Declares parameter.1 parameter.2) :
    split (Text.join [','] (parameters.map Prod.snd)) =
      parameters.map fun parameter => Text.trim parameter.2 := by
  cases parameters with
  | nil => rfl
  | cons first more =>
    have nested : ∀ text ∈ (first :: more).map Prod.snd, Nested [';'] text :=
      List.forall_mem_map.mpr fun parameter member => (form parameter member).nested
    have filled : ∀ parameter ∈ (first :: more).map fun parameter => Text.trim parameter.2,
        (!parameter.isEmpty) = true :=
      List.forall_mem_map.mpr fun parameter member => by
        simpa using (form parameter member).trim_ne_nil
    rw [split, Nested.pieces_join nested (by decide) (by simp), List.map_map]
    exact List.filter_eq_self.mpr filled

end Parameter

/-! ## Named arguments -/

/-- Letters are parts of words in either case. -/
theorem Identifier.isPart_toLower [Alphabets] (c : Char) : isPart c.toLower = isPart c := by
  have capitals : ((List.range' 65 26).all fun code =>
      isPart (Char.ofNat code).toLower == isPart (Char.ofNat code)) = true := rfl
  by_cases capital : 65 ≤ c.toNat ∧ c.toNat ≤ 90
  · have same := List.all_eq_true.mp capitals c.toNat (List.mem_range'_1.mpr (by omega))
    rw [Char.ofNat_toNat] at same
    exact eq_of_beq same
  · have same : c.toLower = c := dif_neg capital
    rw [same]

namespace Query

open Parameter (Declares Default Dimensions Tagged)

variable {parameters : List (Text × Text)} {name written blanks rest last : Text} {i : Nat}

theorem isPart_of_sameLetters [Alphabets] (same : Text.sameLetters name written = true)
    (parts : ∀ c ∈ name, Identifier.isPart c = true) : ∀ c ∈ written, Identifier.isPart c = true := by
  intro c member
  have lower : c.toLower ∈ Text.lower name := by
    rw [beq_iff_eq.mp same]
    exact List.mem_map_of_mem member
  obtain ⟨d, inside, same⟩ := List.mem_map.mp lower
  rw [← Identifier.isPart_toLower, ← same, Identifier.isPart_toLower]
  exact parts d inside

theorem argumentName?_of_dot [Alphabets] (blank : ∀ c ∈ blanks, isBlank c = true)
    (parts : ∀ c ∈ written, Identifier.isPart c = true) (filled : written ≠ [])
    (stop : ∀ c ∈ rest.head?, Identifier.isPart c = false) :
    argumentName? (blanks ++ '.' :: (written ++ rest)) = some written := by
  have start : Text.trimStart (blanks ++ '.' :: (written ++ rest)) = '.' :: (written ++ rest) := by
    rw [Text.trimStart, List.dropWhile_append_of_pos blank]
    exact List.dropWhile_cons_of_neg (by decide)
  rw [argumentName?, start]
  simp [Text.takeWhile_run parts stop, filled]

/-- Of parameters with different names the one with the given name is found. -/
theorem parameterNamed?_eq [Alphabets] (form : ∀ parameter ∈ parameters, Declares parameter.1 parameter.2)
    (distinct : (parameters.map fun parameter => Text.lower parameter.1).Nodup) {text : Text}
    (found : parameters[i]? = some (name, text)) (same : Text.sameLetters name written = true) :
    parameterNamed? (parameters.map fun parameter => Text.trim parameter.2) written = some i := by
  obtain ⟨short, here⟩ := List.getElem?_eq_some_iff.mp found
  have named (j : Nat) (short : j < parameters.length) :
      Parameter.name? (Text.trim parameters[j].2) = some parameters[j].1 := by
    rw [Parameter.name?_trim]
    exact (form _ (List.getElem_mem short)).name?_eq
  rw [parameterNamed?, List.findIdx?_eq_some_iff_getElem]
  refine ⟨by simpa using short, ?_, fun j before => ?_⟩
  · rw [List.getElem_map, named i short, here]
    exact same
  · have short' := Nat.lt_trans before short
    rw [List.getElem_map, named j short', Option.any_some]
    intro other
    have lower : Text.lower parameters[j].1 = Text.lower parameters[i].1 := by
      rw [here, beq_iff_eq.mp same, beq_iff_eq.mp other]
    have apart := List.pairwise_iff_getElem.mp (List.pairwise_map.mp distinct) j i short' short before
    exact apart lower

variable {file : SourceId} {text : Text} {skipStatic : Bool} {scope : Scope} {cursor : Cursor}
  {callable : Callable} {front called : Text} {arguments : List Text}

/--
An argument that begins with a dot and the name of a parameter, in letters of any case, is for that
parameter. The function's parameters are written out on the line of its name, each in the form
`[const] [&] [tag:] name [dimensions] [= default]`; what arguments stand before does not matter, nor
what stands before the call.
-/
theorem signature?_named [Alphabets]
    (declared : callable ∈ (Outline.ofText file text skipStatic).callables)
    (plain : callable.kind = .function)
    (list : callable.Written text (Text.join [','] (parameters.map Prod.snd)))
    (form : ∀ parameter ∈ parameters, Declares parameter.1 parameter.2)
    (distinct : (parameters.map fun parameter => Text.lower parameter.1).Nodup)
    (before : cursor.chars.take cursor.offset = front ++ '(' :: Text.join [','] (arguments ++ [last]))
    (outside : (Literal.mask (cursor.chars.take cursor.offset))[front.length]? = some false)
    (named : Text.EndsInName front called) (filled : called ≠ [])
    (found : scope.callable? called = some callable)
    (elsewhere : callable.file = cursor.file → callable.span.start.line ≠ cursor.position.line)
    (nested : ∀ argument ∈ arguments, Nested [] argument)
    (argument : last = blanks ++ '.' :: (written ++ rest)) (blank : ∀ c ∈ blanks, isBlank c = true)
    (chosen : (parameters.map Prod.fst)[i]? = some name) (same : Text.sameLetters name written = true)
    (stop : ∀ c ∈ rest.head?, Identifier.isPart c = false) (behind : Nested [] rest) :
    signature? scope cursor =
      some ⟨callable.label, callable.parameters, callable.documentation, i⟩ := by
  rw [List.getElem?_map, Option.map_eq_some_iff] at chosen
  obtain ⟨⟨_, parameter⟩, here, rfl⟩ := chosen
  -- The parameters of the declaration.
  have nestedList : Nested [',', ';'] (Text.join [','] (parameters.map Prod.snd)) :=
    Nested.join (List.forall_mem_map.mpr fun parameter member => (form parameter member).nested)
  have quietList : Quiet (Text.join [','] (parameters.map Prod.snd)) :=
    Parameter.quiet_join (List.forall_mem_map.mpr fun parameter member => (form parameter member).quiet)
  have split := (Outline.parameters_of_written declared plain list nestedList quietList).trans
    (Parameter.split_join form)
  -- The argument.
  obtain ⟨filled', parts⟩ := (form _ (List.mem_of_getElem? here)).word
  have parts' := isPart_of_sameLetters same parts
  have filled'' : written ≠ [] := by
    rintro rfl
    have empty := beq_iff_eq.mp same
    exact filled' (List.map_eq_nil_iff.mp empty)
  have nestedLast : Nested [] last := by
    subst argument
    refine Nested.prepend (fun c member => Parameter.isStructural_of_isBlank (blank c member)) ?_
    exact Nested.prepend (List.forall_mem_singleton.mpr rfl)
      (.prepend (fun c member => Parameter.isStructural_of_isPart (parts' c member)) behind)
  have all : ∀ argument ∈ arguments ++ [last], Nested [] argument :=
    List.forall_mem_append.mpr ⟨nested, List.forall_mem_singleton.mpr nestedLast⟩
  rw [signature?_of_nested before outside named filled found elsewhere all, argument,
    argumentName?_of_dot blank parts' filled'' stop, Option.bind_some, split,
    parameterNamed?_eq form distinct here same]
  rfl

open scoped Identifier.European

/-- The third parameter is named in the second argument of a call that is in another one. -/
theorem signature?_named_later :
    let text := ("\nnative make(const &Float:x= 1.0, " ++
      "List [2][] =\x7b\"a,=)//\", f(1; 2)\x7d, const any:end);").toList
    let callable : Callable := ⟨"make".toList, ("native make(const &Float:x= 1.0, " ++
        "List [2][] =\x7b\"a,=)//\", f(1; 2)\x7d, const any:end)").toList, false, ⟨"m.inc".toList⟩,
      .onLine 1 7 4, ["const &Float:x= 1.0", "List [2][] =\x7b\"a,=)//\", f(1; 2)\x7d",
        "const any:end"].map String.toList, none, true, false⟩
    let cursor : Cursor := ⟨⟨"m.inc".toList⟩,
      .ofText "\n\ngo(')', Make(.x = 2,\n .END= g(a[1], ')') ".toList, ⟨3, 19⟩⟩
    callable ∈ (Outline.ofText ⟨"m.inc".toList⟩ text false).callables ∧
      signature? ⟨[callable], [], []⟩ cursor =
        some ⟨callable.label, callable.parameters, none, 2⟩ := by
  intro text callable cursor
  have declared : callable ∈ (Outline.ofText ⟨"m.inc".toList⟩ text false).callables := by
    decide +kernel
  let parameters : List (Text × Text) := [("x".toList, "const &Float:x= 1.0".toList),
    ("List".toList, " List [2][] =\x7b\"a,=)//\", f(1; 2)\x7d".toList),
    ("end".toList, " const any:end".toList)]
  have list : callable.Written text (Text.join [','] (parameters.map Prod.snd)) :=
    ⟨⟨1, text.drop 1, text.drop 1, none, 0⟩,
      by decide +kernel, "native ".toList, [], ";".toList, rfl, rfl, by simp, rfl,
      by decide +kernel⟩
  have space : ∀ c ∈ [' '], isBlank c = true := List.forall_mem_singleton.mpr rfl
  have first : Declares "x".toList "const &Float:x= 1.0".toList := by
    have tag : Tagged "Float:".toList :=
      .inr ⟨"Float".toList, [], rfl, by simp, by decide +kernel, by decide, by decide⟩
    have value : Default "= 1.0".toList := .inr ⟨_, rfl, by decide +kernel⟩
    show Declares "x".toList ([] ++ "const ".toList ++ ['&'] ++ "Float:".toList ++ "x".toList ++
      ([] ++ "= 1.0".toList))
    exact .intro (by simp) ⟨[' '], space, .inr rfl⟩ ⟨[], by simp, .inr rfl⟩ tag
      (by rintro _ ⟨⟩; rfl) (by decide) (List.all_eq_true.mp (by decide +kernel))
      (.nil (by simp)) value (by decide +kernel)
  have second : Declares "List".toList " List [2][] =\x7b\"a,=)//\", f(1; 2)\x7d".toList := by
    have sized : Dimensions ([' '] ++ '[' :: (['2'] ++ ']' :: ([] ++ '[' :: ([] ++ ']' :: [' '])))) :=
      .cons space (by decide +kernel) (.cons (by simp) .nil (.nil space))
    have value : Default "=\x7b\"a,=)//\", f(1; 2)\x7d".toList := .inr ⟨_, rfl, by decide +kernel⟩
    show Declares "List".toList ([' '] ++ [] ++ [] ++ [] ++ "List".toList ++
      ([' '] ++ '[' :: (['2'] ++ ']' :: ([] ++ '[' :: ([] ++ ']' :: [' ']))) ++
        "=\x7b\"a,=)//\", f(1; 2)\x7d".toList))
    exact .intro space ⟨[], by simp, .inl rfl⟩ ⟨[], by simp, .inl rfl⟩ (.inl rfl)
      (by rintro _ ⟨⟩; rfl) (by decide) (List.all_eq_true.mp (by decide +kernel)) sized value
      (by decide +kernel)
  have third : Declares "end".toList " const any:end".toList := by
    have tag : Tagged "any:".toList :=
      .inr ⟨"any".toList, [], rfl, by simp, by decide +kernel, by decide, by decide⟩
    show Declares "end".toList ([' '] ++ "const ".toList ++ [] ++ "any:".toList ++ "end".toList ++
      ([] ++ []))
    exact .intro space ⟨[' '], space, .inr rfl⟩ ⟨[], by simp, .inl rfl⟩ tag
      (by rintro _ ⟨⟩; rfl) (by decide) (List.all_eq_true.mp (by decide +kernel))
      (.nil (by simp)) (.inl rfl) (by decide +kernel)
  have form : ∀ parameter ∈ parameters, Declares parameter.1 parameter.2 := by
    simp only [parameters, List.forall_mem_cons]
    exact ⟨first, second, third, by simp⟩
  have before : cursor.chars.take cursor.offset = "\n\ngo(')', Make".toList ++ '(' :: Text.join [',']
      ([".x = 2".toList] ++ ["\n ".toList ++ '.' :: ("END".toList ++ "= g(a[1], ')')".toList)]) := by
    decide +kernel
  have named : Text.EndsInName "\n\ngo(')', Make".toList "Make".toList :=
    Text.endsInName_iff.mpr (by decide +kernel)
  have chosen : (parameters.map Prod.fst)[2]? = some "end".toList := rfl
  exact ⟨declared, signature?_named declared rfl list form (by decide +kernel) before (by decide +kernel)
    named (by decide) rfl (fun _ => by decide) (by decide +kernel) rfl (List.all_eq_true.mp (by decide))
    chosen (by decide) (by rintro _ ⟨⟩; rfl) (by decide +kernel)⟩

end Query

end PawnScope
