import Mathlib.Data.Option.Basic
import PawnScope.Compiler.BuildLog
import PawnScope.Proofs.Text.Pieces
/-!
How a diagnostic is printed in one line, as a relation between the two, and that a line is read as the
diagnostic that it prints: `ofLine?_of_prints`, `ofLine?_eq_none`. The file and the message may be any
text; what keeps the reader from an earlier parenthesis is that nothing printed behind the file up to the
message has one in it.
-/

namespace PawnScope.Diagnostic

/-! ## The printed form -/

/-- Decimal digits for a number, perhaps with zeros in front. -/
structure Numeral (number : Nat) (digits : Text) : Prop where
  filled : digits ≠ []
  decimal : ∀ digit ∈ digits, digit.isDigit = true
  value : Nat.ofDigitChars 10 digits 0 = number

/-- The lines of a diagnostic: a single one, or the first and the last; `gap` stands for a blank. -/
inductive Place (gap : Char → Bool) : Nat → Option Nat → Text → Prop where
  | single {line : Nat} {digits : Text} (numeral : Numeral line digits) : Place gap line none digits
  | range {first last : Nat} {digits more : Text} {before behind : Char}
      (numeral : Numeral first digits) (numeral' : Numeral last more)
      (blank : gap before = true) (blank' : gap behind = true) :
      Place gap first (some last) (digits ++ before :: '-' :: '-' :: behind :: more)

/-- What is printed of a diagnostic after its file. -/
inductive Tail (gap : Char → Bool) (diagnostic : Diagnostic) : Text → Prop where
  | printed {place code : Text} {beforeColon afterColon beforeCode beforeMessage : Char}
      (isPlace : Place gap diagnostic.line diagnostic.lastLine place)
      (isCode : Numeral diagnostic.code code)
      (blanks : ∀ c ∈ [beforeColon, afterColon, beforeCode, beforeMessage], gap c = true) :
      Tail gap diagnostic ('(' :: (place ++ ')' :: beforeColon :: ':' :: afterColon ::
        (diagnostic.severity.word ++
          beforeCode :: (code ++ ':' :: beforeMessage :: diagnostic.message))))

/-- A line prints a diagnostic, with any character of `gap` for each blank. -/
structure Prints (gap : Char → Bool) (diagnostic : Diagnostic) (line : Text) : Prop where
  filled : diagnostic.file ≠ []
  whole : ∃ tail, Tail gap diagnostic tail ∧ line = diagnostic.file ++ tail

/-- The numbers of a diagnostic are below their bounds. -/
structure InRange (diagnostic : Diagnostic) : Prop where
  line : diagnostic.line < numberLimit
  lastLine : ∀ last ∈ diagnostic.lastLine, last < numberLimit
  code : diagnostic.code < codeLimit

/-- A text that could be read as a diagnostic. -/
def Readable (line : Text) : Prop :=
  ∃ diagnostic, Prints isBlank diagnostic line ∧ diagnostic.InRange

variable {gap : Char → Bool} {diagnostic : Diagnostic} {limit number : Nat}
  {text rest file line tail : Text}

theorem Place.mono {gap' : Char → Bool} (wider : ∀ c, gap c = true → gap' c = true) {line : Nat}
    {last : Option Nat} (place : Place gap line last text) : Place gap' line last text := by
  cases place with
  | single numeral => exact .single numeral
  | range numeral numeral' blank blank' =>
    exact .range numeral numeral' (wider _ blank) (wider _ blank')

theorem Prints.mono {gap' : Char → Bool} (wider : ∀ c, gap c = true → gap' c = true)
    (prints : Prints gap diagnostic line) : Prints gap' diagnostic line := by
  obtain ⟨filled, _, @⟨place, code, a, b, c, d, isPlace, isCode, blanks⟩, rfl⟩ := prints
  exact ⟨filled, _, .printed (isPlace.mono wider) isCode fun c member => wider c (blanks c member),
    rfl⟩

/-- Behind the lines of a diagnostic there is a parenthesis and a blank. -/
theorem Prints.blank_behind (prints : Prints gap diagnostic line) :
    ∃ front c back, line = front ++ ')' :: c :: back ∧ gap c = true := by
  obtain ⟨filled, _, @⟨place, code, a, b, c, d, isPlace, isCode, blanks⟩, rfl⟩ := prints
  exact ⟨diagnostic.file ++ '(' :: place, a, _, by rw [List.append_assoc, List.cons_append],
    blanks a (by simp)⟩

/-! ## A printer -/

theorem numeral_toDigits (number : Nat) : Numeral number (Nat.toDigits 10 number) where
  filled := Nat.toDigits_ne_nil
  decimal := fun _ => Nat.isDigit_of_mem_toDigits (by decide) (by decide)
  value := Nat.ofDigitChars_toDigits (by decide) (by decide)

/-- The lines of a diagnostic in their shortest form. -/
def printPlace (line : Nat) (last : Option Nat) : Text :=
  Nat.toDigits 10 line ++ match last with
    | some last => ' ' :: '-' :: '-' :: ' ' :: Nat.toDigits 10 last
    | none => []

/-- A diagnostic in its shortest form, with a space for each blank. -/
def print (diagnostic : Diagnostic) : Text :=
  diagnostic.file ++ '(' :: (printPlace diagnostic.line diagnostic.lastLine ++ ')' :: ' ' :: ':' ::
    ' ' :: (diagnostic.severity.word ++
      ' ' :: (Nat.toDigits 10 diagnostic.code ++ ':' :: ' ' :: diagnostic.message)))

theorem prints_print (filled : diagnostic.file ≠ []) :
    Prints (· == ' ') diagnostic diagnostic.print := by
  refine ⟨filled, _, .printed ?_ (numeral_toDigits _) (by simp), rfl⟩
  cases diagnostic.lastLine with
  | none =>
    rw [printPlace, List.append_nil]
    exact .single (numeral_toDigits _)
  | some last => exact .range (numeral_toDigits _) (numeral_toDigits _) rfl rfl

/-! ## Readers of the parts -/

theorem foldl_digits (digits : Text) :
    digits.foldl (fun value digit => value * 10 + (digit.toNat - '0'.toNat)) 0 =
      Nat.ofDigitChars 10 digits 0 := by
  simp only [Nat.ofDigitChars_eq_foldl, Nat.mul_comm 10]

theorem readNumber?_eq_some_iff :
    readNumber? limit text = some (number, rest) ↔
      ∃ digits, Numeral number digits ∧ number < limit ∧ text = digits ++ rest ∧
        ∀ c ∈ rest.head?, c.isDigit = false := by
  rw [readNumber?, foldl_digits]
  constructor
  · intro read
    split at read
    case isTrue => contradiction
    case isFalse fits =>
      rw [Bool.or_eq_true, not_or, List.isEmpty_iff, decide_eq_true_eq, Nat.not_le] at fits
      obtain ⟨rfl, rfl⟩ := Prod.mk.inj (Option.some.inj read)
      have whole : text.takeWhile Char.isDigit ++ text.dropWhile Char.isDigit = text :=
        List.takeWhile_append_dropWhile
      have decimal := List.all_eq_true.mp (List.all_takeWhile (p := Char.isDigit) (l := text))
      have run : (text.takeWhile Char.isDigit ++ text.dropWhile Char.isDigit).takeWhile Char.isDigit =
          text.takeWhile Char.isDigit := by rw [whole]
      rw [Text.drop_takeWhile]
      exact ⟨_, ⟨fits.1, decimal, rfl⟩, fits.2, whole.symm, (Text.stop_of_takeWhile run).2⟩
  · rintro ⟨digits, ⟨filled, decimal, rfl⟩, below, rfl, stop⟩
    have run : (digits ++ rest).takeWhile Char.isDigit = digits := Text.takeWhile_run decimal stop
    rw [run, if_neg (by simpa [filled] using below), List.drop_left]

theorem readBlank?_eq_some_iff : readBlank? text = some rest ↔
    ∃ c, isBlank c = true ∧ text = c :: rest := by
  cases text with
  | nil => simp [readBlank?]
  | cons c behind => simp [readBlank?, and_comm]

theorem readPhrase?_eq_some_iff {phrase : String} :
    readPhrase? phrase text = some rest ↔ text = phrase.toList ++ rest := by
  rw [readPhrase?, List.isPrefixOf?_eq_some_iff_append_eq, eq_comm]

theorem isDigit_of_isBlank {c : Char} (blank : isBlank c = true) : c.isDigit = false := by
  simp only [isBlank, CharClass.contains, CharClass.blanks, List.any_cons, List.any_nil,
    Bool.or_false, Bool.or_eq_true, Bool.and_eq_true, decide_eq_true_eq] at blank
  rw [Char.isDigit, Bool.and_eq_false_iff]
  simp only [ge_iff_le, decide_eq_false_iff_not, UInt32.le_iff_toNat_le]
  have value : c.val.toNat = c.toNat := rfl
  have zero : '0'.val.toNat = 48 := rfl
  have nine : '9'.val.toNat = 57 := rfl
  omega

/-- The two words differ in their first letter. -/
theorem severity_apart (behind rest : Text) :
    Severity.warning.word ++ behind ≠ Severity.error.word ++ rest := by
  intro same
  have warning : Severity.warning.word.head? = some 'w' := by decide
  have error : Severity.error.word.head? = some 'e' := by decide
  have heads := congrArg List.head? same
  rw [List.head?_append, List.head?_append, warning, error, Option.some_or, Option.some_or] at heads
  exact absurd heads (by decide)

theorem readSeverity?_eq_some_iff {severity : Severity} :
    readSeverity? text = some (severity, rest) ↔ text = severity.word ++ rest := by
  rw [readSeverity?]
  cases read : Severity.warning.word.isPrefixOf? text with
  | some behind =>
    obtain rfl := List.isPrefixOf?_eq_some_iff_append_eq.mp read
    cases severity with
    | warning => simp [eq_comm]
    | error =>
      refine iff_of_false ?_ (severity_apart behind rest)
      rintro ⟨⟩
  | none =>
    cases severity with
    | warning =>
      simp only [Option.map_eq_some_iff, Prod.mk.injEq, reduceCtorEq, false_and, and_false,
        exists_false, false_iff]
      rintro rfl
      rw [List.isPrefixOf?_eq_some_iff_append_eq.mpr rfl] at read
      cases read
    | error =>
      simp only [Option.map_eq_some_iff, Prod.mk.injEq, true_and, exists_eq_right,
        List.isPrefixOf?_eq_some_iff_append_eq]
      exact eq_comm

theorem readLastLine?_eq_some_iff {last : Option Nat} :
    readLastLine? text = some (last, ')' :: rest) ↔
      (last = none ∧ text = ')' :: rest) ∨
      ∃ number before behind digits, last = some number ∧ isBlank before = true ∧
        isBlank behind = true ∧ Numeral number digits ∧ number < numberLimit ∧
        text = before :: '-' :: '-' :: behind :: (digits ++ ')' :: rest) := by
  rw [readLastLine?]
  cases dashes : (readBlank? text).bind (readPhrase? "--") with
  | none =>
    simp only [Option.some.injEq, Prod.mk.injEq]
    constructor
    · rintro ⟨rfl, rfl⟩
      exact .inl ⟨rfl, rfl⟩
    · rintro (⟨rfl, rfl⟩ | ⟨number, before, behind, digits, rfl, blank, -, -, -, rfl⟩)
      · exact ⟨rfl, rfl⟩
      · have read : readBlank? (before :: '-' :: '-' :: behind :: (digits ++ ')' :: rest)) =
            some ('-' :: '-' :: behind :: (digits ++ ')' :: rest)) :=
          readBlank?_eq_some_iff.mpr ⟨before, blank, rfl⟩
        have phrase : readPhrase? "--" ('-' :: '-' :: behind :: (digits ++ ')' :: rest)) =
            some (behind :: (digits ++ ')' :: rest)) := readPhrase?_eq_some_iff.mpr rfl
        rw [read, Option.bind_some, phrase] at dashes
        cases dashes
  | some after =>
    obtain ⟨behindBlank, blank, phrase⟩ := Option.bind_eq_some_iff.mp dashes
    obtain ⟨before, isBlank', rfl⟩ := readBlank?_eq_some_iff.mp blank
    obtain rfl := readPhrase?_eq_some_iff.mp phrase
    simp only [Option.bind_eq_bind, Option.bind_eq_some_iff, Prod.exists, Option.pure_def,
      Option.some.injEq, Prod.mk.injEq]
    constructor
    · rintro ⟨more, blank', number, _, read, rfl, rfl⟩
      obtain ⟨behind, isBlank'', rfl⟩ := readBlank?_eq_some_iff.mp blank'
      obtain ⟨digits, numeral, below, rfl, -⟩ := readNumber?_eq_some_iff.mp read
      exact .inr ⟨number, before, behind, digits, rfl, isBlank', isBlank'', numeral, below, rfl⟩
    · rintro (⟨-, whole⟩ | ⟨number, _, behind, digits, rfl, -, isBlank'', numeral, below, whole⟩)
      · obtain rfl := (List.cons.inj whole).1
        exact absurd isBlank' (by decide)
      · obtain ⟨-, same⟩ := List.cons.inj whole
        obtain rfl : after = behind :: (digits ++ ')' :: rest) := by simpa using same
        refine ⟨_, readBlank?_eq_some_iff.mpr ⟨behind, isBlank'', rfl⟩, number, _,
          readNumber?_eq_some_iff.mpr ⟨digits, numeral, below, rfl, ?_⟩, rfl, rfl⟩
        rintro c ⟨⟩
        rfl

/-- The reader of the lines, up to the parenthesis after them. -/
theorem read_place_iff {last : Option Nat} :
    (∃ behind, readNumber? numberLimit text = some (number, behind) ∧
      readLastLine? behind = some (last, ')' :: rest)) ↔
      number < numberLimit ∧ (∀ other ∈ last, other < numberLimit) ∧
        ∃ place, Place isBlank number last place ∧ text = place ++ ')' :: rest := by
  constructor
  · rintro ⟨behind, first, second⟩
    obtain ⟨digits, numeral, below, rfl, -⟩ := readNumber?_eq_some_iff.mp first
    rcases readLastLine?_eq_some_iff.mp second with
      ⟨rfl, rfl⟩ | ⟨other, before, after, more, rfl, blank, blank', numeral', below', rfl⟩
    · exact ⟨below, nofun, digits, .single numeral, rfl⟩
    · refine ⟨below, ?_, _, .range numeral numeral' blank blank', by simp⟩
      rintro _ ⟨⟩
      exact below'
  · rintro ⟨below, below', place, isPlace, rfl⟩
    cases isPlace with
    | single numeral =>
      refine ⟨_, readNumber?_eq_some_iff.mpr ⟨place, numeral, below, rfl, ?_⟩,
        readLastLine?_eq_some_iff.mpr (.inl ⟨rfl, rfl⟩)⟩
      rintro c ⟨⟩
      rfl
    | @range _ digits more before after numeral numeral' blank blank' =>
      refine ⟨before :: '-' :: '-' :: after :: (more ++ ')' :: rest),
        readNumber?_eq_some_iff.mpr ⟨digits, numeral, below, by simp, ?_⟩,
        readLastLine?_eq_some_iff.mpr (.inr ⟨_, before, after, more, rfl, blank, blank',
          numeral', below' _ rfl, rfl⟩)⟩
      rintro c ⟨⟩
      exact isDigit_of_isBlank blank

/-! ## A line -/

/-- What follows the file is read if it is printed there, and as what is printed. -/
theorem afterFile?_eq_some_iff :
    afterFile? file rest = some diagnostic ↔
      diagnostic.file = file ∧ diagnostic.InRange ∧ Tail isBlank diagnostic ('(' :: rest) := by
  rw [afterFile?]
  simp only [Option.bind_eq_bind, Option.bind_eq_some_iff, Prod.exists, Option.pure_def,
    Option.some.injEq, readPhrase?_eq_some_iff, readSeverity?_eq_some_iff, readBlank?_eq_some_iff]
  constructor
  · rintro ⟨line, _, first, last, _, second, _, rfl, _, ⟨a, blank, rfl⟩, _, rfl, _, ⟨b, blank', rfl⟩,
      severity, _, rfl, _, ⟨c, blank'', rfl⟩, code, _, third, _, rfl, message, ⟨d, blank''', rfl⟩, rfl⟩
    obtain ⟨below, below', place, isPlace, rfl⟩ := read_place_iff.mp ⟨_, first, second⟩
    obtain ⟨digits, numeral, below'', rfl, -⟩ := readNumber?_eq_some_iff.mp third
    exact ⟨rfl, ⟨below, below', below''⟩, .printed isPlace numeral (by simp [*])⟩
  · rintro ⟨rfl, ⟨below, below', below''⟩, tail⟩
    generalize whole : '(' :: rest = text at tail
    obtain @⟨place, code, a, b, c, d, isPlace, isCode, blanks⟩ := tail
    obtain rfl := (List.cons.inj whole).2
    obtain ⟨behind, first, second⟩ := read_place_iff.mpr ⟨below, below', place, isPlace, rfl⟩
    refine ⟨_, behind, first, _, _, second, _, rfl, _, ⟨a, blanks a (by simp), rfl⟩, _, rfl, _,
      ⟨b, blanks b (by simp), rfl⟩, _, _, rfl, _, ⟨c, blanks c (by simp), rfl⟩, _, _,
      readNumber?_eq_some_iff.mpr ⟨code, isCode, below'', rfl, ?_⟩, _, rfl, _,
      ⟨d, blanks d (by simp), rfl⟩, rfl⟩
    rintro c ⟨⟩
    rfl

theorem Place.not_mem {line : Nat} {last : Option Nat} {place : Text}
    (isPlace : Place gap line last place) (apart : gap '(' = false) : '(' ∉ place := by
  have digits {number : Nat} {digits : Text} (numeral : Numeral number digits) : '(' ∉ digits :=
    fun member => absurd (numeral.decimal _ member) (by decide)
  have blanks {c : Char} (blank : gap c = true) : '(' ≠ c := by
    rintro rfl
    rw [apart] at blank
    cases blank
  cases isPlace with
  | single numeral => exact digits numeral
  | range numeral numeral' blank blank' =>
    simp [digits numeral, digits numeral', blanks blank, blanks blank']

/-- Between the parenthesis after the file and the message there is no other one. -/
theorem Tail.cut (printed : Tail gap diagnostic tail) (apart : gap '(' = false) :
    ∃ head, tail = '(' :: (head ++ diagnostic.message) ∧ '(' ∉ head ∧
      ∀ message, Tail gap { diagnostic with message } ('(' :: (head ++ message)) := by
  obtain @⟨place, code, a, b, c, d, isPlace, isCode, blanks⟩ := printed
  refine ⟨place ++ ')' :: a :: ':' :: b :: (diagnostic.severity.word ++
    c :: (code ++ [':', d])), by simp, ?_, fun message => ?_⟩
  · have outside : ∀ e ∈ [a, b, c, d], '(' ≠ e := by
      rintro e member rfl
      rw [blanks _ member] at apart
      cases apart
    have word : '(' ∉ diagnostic.severity.word := by
      cases diagnostic.severity <;> decide
    have digits : '(' ∉ code := fun member => absurd (isCode.decimal _ member) (by decide)
    simp only [List.mem_cons, List.not_mem_nil, or_false, forall_eq_or_imp, forall_eq] at outside
    simp [isPlace.not_mem apart, outside, word, digits]
  · have again : Tail gap { diagnostic with message } _ := Tail.printed isPlace isCode blanks
    simpa using again

/-- A diagnostic that is found is printed behind a parenthesis of the line. -/
theorem search?_found (found : search? file text = some diagnostic) :
    ∃ front back, text = front ++ '(' :: back ∧ file ++ front ≠ [] ∧
      afterFile? (file ++ front) back = some diagnostic := by
  induction text generalizing file with
  | nil => contradiction
  | cons c rest ih =>
    rw [search?, Option.orElse_eq_some] at found
    rcases found with here | ⟨-, later⟩
    · split at here
      case isFalse => contradiction
      case isTrue opens =>
        refine ⟨[], rest, by rw [opens.1, List.nil_append], by simpa using opens.2, ?_⟩
        rwa [List.append_nil]
    · obtain ⟨front, back, rfl, filled, read⟩ := ih later
      refine ⟨c :: front, back, rfl, by simp, ?_⟩
      rwa [List.append_assoc, List.singleton_append] at read

/-- A diagnostic behind a parenthesis is found if nothing can be read behind one before it. -/
theorem search?_first {front back : Text} (filled : file ++ front ≠ [])
    (read : afterFile? (file ++ front) back = some diagnostic)
    (first : ∀ front' back', front ++ '(' :: back = front' ++ '(' :: back' →
      front'.length < front.length → file ++ front' ≠ [] →
        afterFile? (file ++ front') back' = none) :
    search? file (front ++ '(' :: back) = some diagnostic := by
  induction front generalizing file with
  | nil =>
    rw [List.append_nil] at filled read
    rw [List.nil_append, search?, if_pos ⟨rfl, filled⟩, read]
    rfl
  | cons c front ih =>
    have here : (if c = '(' ∧ file ≠ [] then afterFile? file (front ++ '(' :: back) else none) =
        none := by
      split
      case isFalse => rfl
      case isTrue opens =>
        have none := first [] (front ++ '(' :: back) (by rw [opens.1]; rfl) (Nat.succ_pos _)
          (by simpa using opens.2)
        rwa [List.append_nil] at none
    rw [List.cons_append, search?, here]
    refine @ih (file ++ [c]) (by simp) (by simpa using read) fun front' back' whole shorter _ => ?_
    have earlier := first (c :: front') back' (by rw [List.cons_append, whole]; rfl)
      (Nat.succ_lt_succ shorter) (by simp)
    rwa [List.append_assoc, List.singleton_append]

/--
What is read behind a parenthesis in the file ends in the file, since between that parenthesis and its
message there is no other one.
-/
theorem readable_of_earlier {front head message back : Text}
    (whole : file ++ '(' :: back = front ++ '(' :: (head ++ message))
    (shorter : front.length < file.length) (apart : '(' ∉ head) :
    ∃ more, file = front ++ '(' :: (head ++ more) := by
  have whole' : file ++ '(' :: back = (front ++ '(' :: head) ++ message := by
    rw [whole, List.append_assoc, List.cons_append]
  rcases List.append_eq_append_iff.mp whole' with ⟨beyond, longer, after⟩ | ⟨more, inside, -⟩
  · cases beyond with
    | nil => exact ⟨[], by rw [List.append_nil, longer, List.append_nil]⟩
    | cons c beyond =>
      obtain ⟨rfl, -⟩ := List.cons.inj after
      rcases List.append_eq_append_iff.mp longer with ⟨between, rfl, behind⟩ | ⟨_, rfl, -⟩
      · cases between with
        | nil => simp at shorter
        | cons d between =>
          obtain ⟨-, rfl⟩ := List.cons.inj behind
          exact absurd (by simp) apart
      · rw [List.length_append] at shorter
        omega
  · exact ⟨more, by rw [inside, List.append_assoc, List.cons_append]⟩

/-- A line that prints a diagnostic is read as it, unless its file could be read as one by itself. -/
theorem ofLine?_of_prints (prints : Prints isBlank diagnostic line) (bounded : diagnostic.InRange)
    (plain : ¬Readable diagnostic.file) : ofLine? line = some diagnostic := by
  obtain ⟨filled, tail, printed, rfl⟩ := prints
  obtain ⟨_, rfl, -, -⟩ := printed.cut (by decide)
  refine search?_first filled (afterFile?_eq_some_iff.mpr ⟨rfl, bounded, printed⟩) ?_
  intro front back whole shorter filled'
  by_contra found
  obtain ⟨other, read⟩ := Option.ne_none_iff_exists'.mp found
  obtain ⟨same, bounded', printed'⟩ := afterFile?_eq_some_iff.mp read
  rw [List.nil_append] at same filled'
  obtain ⟨head, behind, apart, again⟩ := printed'.cut (by decide)
  obtain rfl := (List.cons.inj behind).2
  obtain ⟨message, inside⟩ := readable_of_earlier whole shorter apart
  refine plain ⟨{ other with message }, ⟨same ▸ filled', _, again message, ?_⟩,
    ⟨bounded'.line, bounded'.lastLine, bounded'.code⟩⟩
  rw [inside, same]

/-- A diagnostic behind a parenthesis of the line is found, or one behind an earlier parenthesis. -/
theorem isSome_search? {front back : Text} (filled : file ++ front ≠ [])
    (read : (afterFile? (file ++ front) back).isSome = true) :
    (search? file (front ++ '(' :: back)).isSome = true := by
  induction front generalizing file with
  | nil =>
    rw [List.append_nil] at filled read
    rw [List.nil_append, search?, if_pos ⟨rfl, filled⟩, Option.orElse_eq_orElse,
      Option.orElse_eq_or, Option.isSome_or, read, Bool.true_or]
  | cons c front ih =>
    have later := @ih (file ++ [c]) (by simp) (by simpa using read)
    rw [List.cons_append, search?, Option.orElse_eq_orElse, Option.orElse_eq_or, Option.isSome_or,
      later, Bool.or_true]

theorem readable_iff : Readable line ↔ (ofLine? line).isSome = true := by
  constructor
  · rintro ⟨diagnostic, ⟨filled, tail, printed, rfl⟩, bounded⟩
    obtain ⟨_, rfl, -, -⟩ := printed.cut (by decide)
    refine isSome_search? filled ?_
    rw [List.nil_append, afterFile?_eq_some_iff.mpr ⟨rfl, bounded, printed⟩]
    rfl
  · intro found
    obtain ⟨diagnostic, read⟩ := Option.isSome_iff_exists.mp found
    obtain ⟨front, back, whole, filled, here⟩ := search?_found read
    obtain ⟨same, bounded, printed⟩ := afterFile?_eq_some_iff.mp here
    rw [List.nil_append] at same filled
    refine ⟨diagnostic, ⟨same ▸ filled, _, printed, ?_⟩, bounded⟩
    rw [whole, same]

instance : DecidablePred Readable :=
  fun _ => decidable_of_iff _ readable_iff.symm

/-- A line that could not be read as a diagnostic is not. -/
theorem ofLine?_eq_none (plain : ¬Readable line) : ofLine? line = none := by
  rw [readable_iff] at plain
  exact Option.not_isSome_iff_eq_none.mp plain

/-- More of a message does not make a diagnostic unreadable. -/
theorem Readable.append (readable : Readable line) (more : Text) : Readable (line ++ more) := by
  obtain ⟨diagnostic, ⟨filled, tail, printed, rfl⟩, bounded⟩ := readable
  obtain ⟨head, rfl, -, again⟩ := printed.cut (by decide)
  refine ⟨{ diagnostic with message := diagnostic.message ++ more }, ⟨filled, _, again _, ?_⟩,
    ⟨bounded.line, bounded.lastLine, bounded.code⟩⟩
  simp

end PawnScope.Diagnostic
