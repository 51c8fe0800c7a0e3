import PawnScope.Proofs.Declaration.Prototype
/-!
The lines that a prototype is laid out over. Those above the one of its name hold specifiers only
(`split_printWords`) and declare nothing: `recognize_join`. Those below it begin with a parameter
(`exists_laysOut`) and go on with the list: `continuesList_line`. On none of them does a comment open,
and none leaves a brace open: `calm_join`, `calm_line`.
-/

namespace PawnScope

open Declaration (specifierWords continuesList)
open Line (Calm)

/-! ## Lines of specifiers -/

theorem join_append_word (row : List Text) (word : Text) :
    Text.join [' '] (row ++ [word]) = printWords [] row ++ word := by
  induction row with
  | nil => rfl
  | cons first row ih =>
    rw [List.cons_append, Text.join_cons _ _ (by simp), ih]
    simp [printWords, separator]

theorem scan_join [Alphabets] {words : List Text} (names : ∀ word ∈ words, Token.IsIdentifier word)
    (base : Nat) :
    Token.scan base 0 (Text.join [' '] words) = wordTokens base words := by
  induction words generalizing base with
  | nil => rfl
  | cons word rest ih =>
    obtain ⟨here, below⟩ := List.forall_mem_cons.mp names
    cases rest with
    | nil =>
      have stop : ∀ c ∈ ([] : Text).head?, Identifier.isTokenPart c = false := by simp
      have alone := here.scan stop base
      rwa [List.append_nil] at alone
    | cons next rest =>
      have blank : Identifier.isTokenPart ' ' = false := rfl
      rw [Text.join_cons _ _ (List.cons_ne_nil _ _), List.singleton_append,
        here.scan (by simpa using blank), Token.scan_gap rfl, ih below]
      rfl

theorem recognize_join [Alphabets] {words : List Text} (specifiers : ∀ word ∈ words, word ∈ specifierWords)
    (complete : Bool) : Declaration.recognize (Text.join [' '] words) complete = .nothing := by
  have names : ∀ word ∈ words, Token.IsIdentifier word := fun word member =>
    Prototype.isIdentifier_of_specifier word (specifiers word member)
  have all := isSpecifier_wordTokens specifiers 0
  have none : ∀ first ∈ ([] : List Token).head?, Declaration.isSpecifier first = false := by simp
  obtain ⟨-, drop⟩ := Declaration.cut_specifiers all none
  rw [List.append_nil] at drop
  rw [Declaration.recognize_eq, Token.ofLine, scan_join names, Declaration.Shape.ofTokens, drop]
  rfl

/-- The characters of words and of the blanks between them. -/
theorem isPlain_join [Alphabets] {words : List Text} (names : ∀ word ∈ words, Token.IsIdentifier word) :
    ∀ c ∈ Text.join [' '] words, IsPlain c := by
  induction words with
  | nil => simp [Text.join]
  | cons word rest ih =>
    obtain ⟨here, below⟩ := List.forall_mem_cons.mp names
    cases rest with
    | nil => exact here.isPlain
    | cons next rest =>
      rw [Text.join_cons _ _ (List.cons_ne_nil _ _), List.singleton_append, List.forall_mem_append]
      exact ⟨here.isPlain, List.forall_mem_cons.mpr ⟨isPlain_blank, ih below⟩⟩

theorem calm_join [Alphabets] {words : List Text} (specifiers : ∀ word ∈ words, word ∈ specifierWords) :
    Calm (Text.join [' '] words) := by
  have names : ∀ word ∈ words, Token.IsIdentifier word := fun word member =>
    Prototype.isIdentifier_of_specifier word (specifiers word member)
  have plain := isPlain_join names
  refine ⟨Quiet.of_plain plain, ?_, fun last => ?_⟩
  · rw [Token.ofLine, scan_join names]
    exact Line.braceDepth_of_no_braces (fun token member => by simp [kind_wordTokens token member]) 0
  · exact (plain '\r' (List.mem_of_getLast? last)).inLine.2 rfl

theorem join_cons_part [Alphabets] {words : List Text} (filled : words ≠ [])
    (specifiers : ∀ word ∈ words, word ∈ specifierWords) :
    ∃ c rest, Text.join [' '] words = c :: rest ∧ Identifier.isTokenPart c = true := by
  obtain ⟨word, words, rfl⟩ := List.exists_cons_of_ne_nil filled
  have name := Prototype.isIdentifier_of_specifier word (specifiers word List.mem_cons_self)
  obtain ⟨c, rest, rfl, -, parts, -⟩ := name.cons
  have part : Identifier.isTokenPart c = true := parts c List.mem_cons_self
  cases words with
  | nil => exact ⟨c, rest, rfl, part⟩
  | cons next words => exact ⟨c, _, rfl, part⟩

/-- The words of each line above the last one; `row` stands before the first word. -/
def wordRows (row : List Text) (breaks : List Bool) : List Text → List (List Text)
  | [] => []
  | word :: rest =>
    if breaks.headD false then (row ++ [word]) :: wordRows [] breaks.tail rest
    else wordRows (row ++ [word]) breaks.tail rest

section Words

open Prototype (lastRow)

variable {row words : List Text} {breaks : List Bool}

theorem length_wordRows (row : List Text) (breaks : List Bool) (words : List Text) :
    (wordRows row breaks words).length = (breaks.take words.length).count true := by
  induction words generalizing row breaks with
  | nil => simp [wordRows]
  | cons word rest ih =>
    cases breaks with
    | nil => simpa [wordRows] using ih (row ++ [word]) []
    | cons first breaks => cases first <;> simp [wordRows, ih]

theorem flatten_wordRows (row : List Text) (breaks : List Bool) (words : List Text) :
    (wordRows row breaks words).flatten ++ lastRow row breaks words = row ++ words := by
  induction words generalizing row breaks with
  | nil => simp [wordRows, lastRow]
  | cons word rest ih =>
    rw [wordRows, lastRow]
    split
    · rw [List.flatten_cons, List.append_assoc, ih, List.nil_append, List.append_assoc,
        List.singleton_append]
    · rw [ih, List.append_assoc, List.singleton_append]

theorem ne_nil_of_mem_wordRows : ∀ line ∈ wordRows row breaks words, line ≠ [] := by
  induction words generalizing row breaks with
  | nil => simp [wordRows]
  | cons word rest ih =>
    rw [wordRows]
    split
    · exact List.forall_mem_cons.mpr ⟨by simp, ih⟩
    · exact ih

theorem lastRow_of_unbroken (unbroken : true ∉ breaks.take words.length) :
    lastRow row breaks words = row ++ words := by
  induction words generalizing row breaks with
  | nil => simp [lastRow]
  | cons word rest ih =>
    obtain ⟨blank, unbroken⟩ : breaks.headD false = false ∧ true ∉ breaks.tail.take rest.length := by
      cases breaks with
      | nil => simp
      | cons first breaks => simpa using unbroken
    rw [lastRow, blank, if_neg Bool.false_ne_true, ih unbroken, List.append_assoc,
      List.singleton_append]

theorem printWords_append_singleton (row : List Text) (word : Text) :
    printWords [] (row ++ [word]) = Text.join [' '] (row ++ [word]) ++ [' '] := by
  rw [join_append_word, List.append_assoc]
  induction row with
  | nil => rfl
  | cons first row ih =>
    rw [List.cons_append, printWords, printWords, List.append_assoc, List.cons_append,
      List.tail_nil, ih]

/-- The lines of words, the last of which goes on with what follows them. -/
theorem split_printWords [Alphabets] (names : ∀ word ∈ row ++ words, Token.IsIdentifier word)
    (breaks : List Bool) (rest : Text) :
    Text.split '\n' (printWords [] row ++ (printWords breaks words ++ rest)) =
      (wordRows row breaks words).map (Text.join [' ']) ++
        Text.split '\n' (printWords [] (lastRow row breaks words) ++ rest) := by
  induction words generalizing row breaks with
  | nil => rfl
  | cons word words ih =>
    rw [← List.singleton_append, ← List.append_assoc] at names
    have line : printWords [] row ++ (printWords breaks (word :: words) ++ rest) =
        Text.join [' '] (row ++ [word]) ++
          separator breaks :: (printWords breaks.tail words ++ rest) := by
      simp [join_append_word, printWords]
    rw [line, separator, wordRows, lastRow]
    split
    · have plain := isPlain_join fun other inside => names other (List.mem_append_left _ inside)
      have single : '\n' ∉ Text.join [' '] (row ++ [word]) := fun member =>
        (plain _ member).inLine.1 rfl
      rw [Text.split_append single, List.map_cons, List.cons_append, ← ih]
      · rfl
      · exact fun other inside => names other (List.mem_append_right _ inside)
    · rw [← ih names, printWords_append_singleton, List.append_assoc, List.singleton_append]

end Words

/-! ## Lines of the list -/

/-- The lines of a list: `row` stands behind `front`, and `ender` behind the last of `more`. -/
def listLines (front ender : Text) (row : List Text) : List (List Text) → List Text
  | [] => [front ++ (printList [] row ++ ender)]
  | next :: more => (front ++ (printList [] row ++ [','])) :: listLines [] ender next more

/-- The lines that `breaks` lays parameters out over: `row` on the first, then a row of `more` each. -/
structure LaysOut (breaks : List Bool) (parameters row : List Text) (more : List (List Text)) :
    Prop where
  whole : row ++ more.flatten = parameters
  first : parameters ≠ [] → row ≠ []
  filled : ∀ line ∈ more, line ≠ []
  few : more.length ≤ breaks.count true
  lines : ∀ front ender, '\n' ∉ front → '\n' ∉ ender →
    Text.split '\n' (front ++ (printList breaks parameters ++ ender)) = listLines front ender row more

section List

variable {breaks : List Bool} {parameter next front ender : Text} {rest row parameters : List Text}
  {more : List (List Text)}

theorem length_listLines (front ender : Text) (row : List Text) (more : List (List Text)) :
    (listLines front ender row more).length = more.length + 1 := by
  induction more generalizing front row with
  | nil => rfl
  | cons next more ih => rw [listLines, List.length_cons, ih, List.length_cons]

theorem printList_cons (breaks : List Bool) (parameter : Text) (behind : rest ≠ []) :
    printList breaks (parameter :: rest) =
      parameter ++ ',' :: separator breaks :: printList breaks.tail rest := by
  obtain ⟨next, rest, rfl⟩ := List.exists_cons_of_ne_nil behind
  rfl

theorem printList_append (filled : row ≠ []) (behind : rest ≠ []) :
    printList [] (row ++ rest) = printList [] row ++ ',' :: ' ' :: printList [] rest := by
  induction row with
  | nil => exact absurd rfl filled
  | cons parameter row ih =>
    rw [List.cons_append, printList_cons _ _ (List.append_ne_nil_of_right_ne_nil _ behind)]
    cases row with
    | nil => rfl
    | cons second row =>
      have some : second :: row ≠ [] := List.cons_ne_nil _ _
      rw [List.tail_nil, ih some, printList_cons _ _ some, List.append_assoc]
      rfl

namespace LaysOut

theorem nil (breaks : List Bool) : LaysOut breaks [] [] [] where
  whole := rfl
  first := id
  filled := by simp
  few := Nat.zero_le _
  lines front ender single single' :=
    Text.split_of_not_mem (by simpa [printList] using ⟨single, single'⟩)

theorem singleton (single : '\n' ∉ parameter) : LaysOut breaks [parameter] [parameter] [] where
  whole := rfl
  first := id
  filled := by simp
  few := Nat.zero_le _
  lines front ender single' single'' :=
    Text.split_of_not_mem (by simpa [printList] using ⟨single', single, single''⟩)

/-- With a line break behind the first parameter. -/
theorem broken (below : LaysOut breaks.tail (next :: rest) row more) (single : '\n' ∉ parameter)
    (atBreak : breaks.headD false = true) :
    LaysOut breaks (parameter :: next :: rest) [parameter] (row :: more) where
  whole := congrArg _ below.whole
  first _ := List.cons_ne_nil _ _
  filled := List.forall_mem_cons.mpr ⟨below.first (List.cons_ne_nil _ _), below.filled⟩
  few := by
    cases breaks with
    | nil => contradiction
    | cons first others =>
      obtain rfl : first = true := atBreak
      rw [List.count_cons_self, List.length_cons]
      exact Nat.succ_le_succ below.few
  lines front ender single' single'' := by
    have shape : front ++ (printList breaks (parameter :: next :: rest) ++ ender) =
        (front ++ (parameter ++ [','])) ++ '\n' :: (printList breaks.tail (next :: rest) ++ ender) := by
      rw [printList_cons _ _ (List.cons_ne_nil _ _), separator, if_pos atBreak]
      simp
    have line : '\n' ∉ front ++ (parameter ++ [',']) := by simp [single', single]
    have later := below.lines [] ender (by simp) single''
    rw [shape, Text.split_append line, ← List.nil_append (printList _ _ ++ ender), later]
    rfl

/-- With a blank behind the first parameter. -/
theorem unbroken (below : LaysOut breaks.tail (next :: rest) row more) (single : '\n' ∉ parameter)
    (atBlank : breaks.headD false = false) :
    LaysOut breaks (parameter :: next :: rest) (parameter :: row) more where
  whole := by rw [List.cons_append, below.whole]
  first _ := List.cons_ne_nil _ _
  filled := below.filled
  few := below.few.trans ((List.tail_sublist breaks).count_le true)
  lines front ender single' single'' := by
    have shape : front ++ (printList breaks (parameter :: next :: rest) ++ ender) =
        (front ++ (parameter ++ [',', ' '])) ++ (printList breaks.tail (next :: rest) ++ ender) := by
      rw [printList_cons _ _ (List.cons_ne_nil _ _), separator, atBlank, if_neg Bool.false_ne_true]
      simp
    have line : '\n' ∉ front ++ (parameter ++ [',', ' ']) := by simp [single', single]
    have list : printList [] (parameter :: row) = parameter ++ ',' :: ' ' :: printList [] row :=
      printList_cons [] parameter (below.first (List.cons_ne_nil _ _))
    rw [shape, below.lines _ _ line single'']
    cases more <;> simp [listLines, list]

end LaysOut

theorem exists_laysOut (breaks : List Bool) (single : ∀ parameter ∈ parameters, '\n' ∉ parameter) :
    ∃ row more, LaysOut breaks parameters row more := by
  induction parameters generalizing breaks with
  | nil => exact ⟨[], [], .nil breaks⟩
  | cons parameter rest ih =>
    obtain ⟨here, behind⟩ := List.forall_mem_cons.mp single
    cases rest with
    | nil => exact ⟨_, _, .singleton here⟩
    | cons next rest =>
      obtain ⟨row, more, below⟩ := ih breaks.tail behind
      cases first : breaks.headD false with
      | true => exact ⟨_, _, below.broken here first⟩
      | false => exact ⟨_, _, below.unbroken here first⟩

/-! ## Reading one of them -/

/-- What stands at the end of a line of the list. -/
def enders : List Text :=
  [[','], [')'], [')', ';']]

theorem closing_mem_enders (prototype : Prototype) : prototype.closing ∈ enders := by
  rw [Prototype.closing]
  split <;> decide

theorem stops_of_mem_enders : ∀ ender ∈ enders, ∀ c ∈ ender.head?, Token.stops c = true := by
  simp [enders, Token.stops]

theorem single_of_mem_enders : ∀ ender ∈ enders, '\n' ∉ ender := by
  decide

theorem unended_of_mem_enders : ∀ ender ∈ enders, ender ≠ [] ∧ ender.getLast? ≠ some '\r' := by
  decide

theorem quiet_of_mem_enders : ∀ ender ∈ enders, Quiet ender := by
  decide

theorem apart_of_mem_enders (member : ender ∈ enders) : Mode.Apart front ender := by
  have first : ∀ ender ∈ enders, ender.head? ≠ some '/' ∧ ender.head? ≠ some '*' := by decide
  exact fun _ => first ender member

theorem scan_of_mem_enders [Alphabets] (member : ender ∈ enders) (base : Nat) :
    ∃ mark behind, Token.scan base 0 ender = mark :: behind ∧
      (mark.kind = .comma ∧ behind = [] ∨ mark.kind = .closeParen) ∧
      Line.braceDepth 0 (mark :: behind) = 0 := by
  simp only [enders, List.mem_cons, List.not_mem_nil, or_false] at member
  rcases member with rfl | rfl | rfl
  · exact ⟨_, _, rfl, .inl ⟨rfl, rfl⟩, rfl⟩
  · exact ⟨_, _, rfl, .inr rfl, rfl⟩
  · exact ⟨_, _, rfl, .inr rfl, rfl⟩

theorem goesOn_ender {mark : Token} {behind : List Token}
    (kind : mark.kind = .comma ∧ behind = [] ∨ mark.kind = .closeParen) (afterAssign : Bool) :
    Declaration.Continuation.goesOn ⟨0, 0, afterAssign⟩ (mark :: behind) = true := by
  rw [Declaration.Continuation.goesOn]
  rcases kind with ⟨kind, rfl⟩ | kind
  · rw [kind]
    rfl
  · rw [kind]
    rfl

/-- What stands before the list on its line. -/
structure Opening [Alphabets] (front : Text) : Prop where
  tokens : ∃ tokens, Line.braceDepth 0 tokens = 0 ∧
    ∀ rest, Token.ofLine (front ++ rest) = tokens ++ Token.scan front.length 0 rest
  quiet : Quiet front
  apart : front.getLast? ≠ some '/'

theorem Opening.nil [Alphabets] : Opening [] :=
  ⟨⟨[], rfl, fun _ => rfl⟩, by decide, by simp⟩

theorem quiet_printList [Alphabets] (proper : ∀ parameter ∈ row, Parameter.Proper parameter) :
    Quiet (printList [] row) := by
  induction row with
  | nil => decide
  | cons parameter rest ih =>
    obtain ⟨here, below⟩ := List.forall_mem_cons.mp proper
    cases rest with
    | nil => exact here.quiet
    | cons next rest =>
      have comma : Quiet [',', ' '] := by decide
      have later := comma.append (ih below) (by simp [Mode.Apart])
      exact here.quiet.append later (by simp [Mode.Apart])

theorem calm_line [Alphabets] (opening : Opening front)
    (proper : ∀ parameter ∈ row, Parameter.Proper parameter)
    (member : ender ∈ enders) : Calm (front ++ (printList [] row ++ ender)) where
  still := by
    have behind := (quiet_printList proper).append (quiet_of_mem_enders ender member)
      (apart_of_mem_enders member)
    exact opening.quiet.append behind fun last => absurd last opening.apart
  braces := by
    obtain ⟨tokens, closed, line⟩ := opening.tokens
    obtain ⟨list, neutral, scan⟩ :=
      Parameter.scan_printList proper (stops_of_mem_enders ender member) front.length
    obtain ⟨mark, behind, ends, -, closed'⟩ :=
      scan_of_mem_enders member (front.length + (printList [] row).length)
    rw [line, scan, ends, Line.braceDepth_append, closed, Line.braceDepth_append, neutral.braces,
      closed']
  unended := by
    obtain ⟨filled, unended⟩ := unended_of_mem_enders ender member
    rwa [← List.append_assoc, List.getLast?_append_of_ne_nil _ filled]

theorem calm_listLines [Alphabets] (opening : Opening front) (member : ender ∈ enders)
    (proper : ∀ line ∈ row :: more, ∀ parameter ∈ line, Parameter.Proper parameter) :
    ∀ line ∈ listLines front ender row more, Calm line := by
  induction more generalizing front row with
  | nil =>
    have here := List.forall_mem_singleton.mp proper
    exact List.forall_mem_singleton.mpr (calm_line opening here member)
  | cons next more ih =>
    obtain ⟨here, below⟩ := List.forall_mem_cons.mp proper
    have comma : [','] ∈ enders := by decide
    exact List.forall_mem_cons.mpr ⟨calm_line opening here comma, ih .nil below⟩

theorem continuesList_of_head [Alphabets] {code : Text}
    (begins : ∀ first ∈ (Token.ofLine code).head?, first.kind ≠ .directive ∧
      (Declaration.isSpecifier first = true → first.isWord Declaration.constWord = true))
    (goesOn : Declaration.Continuation.goesOn ⟨0, 0, false⟩ (Token.ofLine code) = true) :
    continuesList code = true := by
  rw [continuesList]
  cases tokens : Token.ofLine code with
  | nil => rfl
  | cons first rest =>
    rw [tokens] at begins goesOn
    obtain ⟨other, allowed⟩ := begins first rfl
    simp only [other, if_false, goesOn]
    cases specifier : Declaration.isSpecifier first with
    | false => rfl
    | true => simp [allowed specifier]

/-- Behind a parameter a comma or the end of the list follows. -/
theorem exists_mark_behind [Alphabets] (member : ender ∈ enders) (parameter : Text) (rest : List Text) :
    ∃ behind, printList [] (parameter :: rest) ++ ender = parameter ++ behind ∧
      (∀ c ∈ behind.head?, Token.stops c = true) ∧
      ∀ base, ∃ mark tokens, Token.scan base 0 behind = mark :: tokens ∧
        (mark.kind = .comma ∨ mark.kind = .closeParen) := by
  cases rest with
  | nil =>
    refine ⟨ender, rfl, stops_of_mem_enders ender member, fun base => ?_⟩
    obtain ⟨mark, tokens, scan, kind, -⟩ := scan_of_mem_enders member base
    exact ⟨mark, tokens, scan, kind.imp_left And.left⟩
  | cons next rest =>
    have comma : Token.mark? .comma = some ',' := rfl
    refine ⟨',' :: ' ' :: (printList [] (next :: rest) ++ ender), ?_, by simp [Token.stops],
      fun base => ⟨_, _, Token.scan_mark comma base _, .inl rfl⟩⟩
    rw [printList_cons _ _ (List.cons_ne_nil _ _), List.append_assoc]
    rfl

/-- A line that begins with a parameter goes on with the list. -/
theorem continuesList_line [Alphabets] (filled : row ≠ [])
    (proper : ∀ parameter ∈ row, Parameter.Proper parameter) (member : ender ∈ enders) :
    continuesList (printList [] row ++ ender) = true := by
  obtain ⟨parameter, rest, rfl⟩ := List.exists_cons_of_ne_nil filled
  refine continuesList_of_head (fun first head => ?_) ?_
  · have here : Parameter.Proper parameter := proper parameter List.mem_cons_self
    obtain ⟨behind, text, stop, next⟩ := exists_mark_behind member parameter rest
    obtain ⟨mark, tokens, scan, kind⟩ := next (0 + parameter.length)
    rw [text, Token.ofLine, here.scan stop, scan, List.head?_append] at head
    cases own : (Token.scan 0 0 parameter).head? with
    | some token =>
      rw [own] at head
      obtain rfl := Option.some.inj head
      exact here.begins token own
    | none =>
      rw [own] at head
      obtain rfl := Option.some.inj head
      rcases kind with kind | kind <;> simp [Declaration.isSpecifier, kind]
  · obtain ⟨list, neutral, scan⟩ :=
      Parameter.scan_printList proper (stops_of_mem_enders ender member) 0
    obtain ⟨mark, behind, ends, kind, -⟩ :=
      scan_of_mem_enders member (0 + (printList [] (parameter :: rest)).length)
    obtain ⟨afterAssign, same⟩ := neutral.goesOn (mark :: behind)
    rw [Token.ofLine, scan, ends, same, goesOn_ender kind]

end List

/-! ## Before the list -/

namespace Prototype

variable {prototype : Prototype}

theorem Proper.isPlain_front [Alphabets] (proper : prototype.Proper) :
    ∀ c ∈ prototype.front, IsPlain c := by
  have words : ∀ word ∈ prototype.specifiers, Token.IsIdentifier word := fun word member =>
    isIdentifier_of_specifier word (proper.specifiers word member).1
  have names : ∀ word ∈ prototype.tag, Token.IsIdentifier word := fun word member =>
    (proper.tag word member).1
  rw [front]
  simp only [List.forall_mem_append, List.forall_mem_singleton]
  exact ⟨isPlain_printWords words, isPlain_printTag names, proper.name.1.isPlain,
    by decide, by decide, by decide⟩

theorem kind_frontTokens : ∀ token ∈ prototype.frontTokens,
    token.kind = .identifier ∨ token.kind = .colon ∨ token.kind = .openParen := by
  intro token member
  simp only [frontTokens, List.mem_append, List.mem_cons, List.not_mem_nil, or_false] at member
  rcases member with member | member | rfl | rfl
  · exact .inl (kind_wordTokens token member)
  · exact (kind_tagTokens prototype.tag _ token member).imp_right .inl
  · exact .inl rfl
  · exact .inr (.inr rfl)

theorem Proper.opening [Alphabets] (proper : prototype.Proper) : Opening prototype.front where
  tokens := by
    refine ⟨_, Line.braceDepth_of_no_braces (fun token member => ?_) 0, proper.ofLine_front⟩
    rcases kind_frontTokens token member with kind | kind | kind <;> simp [kind]
  quiet := Quiet.of_plain proper.isPlain_front
  apart := by
    have ends : prototype.front.getLast? = some '(' := by
      simp [front]
    simp [ends]

end Prototype

end PawnScope
