import PawnScope.Identifier.European
import PawnScope.Proofs.Identifier.Around
import PawnScope.Proofs.Scope.Lookup
import PawnScope.Proofs.Text.Offsets
import PawnScope.Query.Hover
/-!
What the cursor refers to. A reference that is found is to a symbol of the scope, by a name that is written
where the reference says and that the cursor is on: `of_reference?`. A name outside of strings that names
something is found, from wherever the cursor is in it: `reference?_of_around`. And what is shown at the
cursor is what the declaration is looked up for: `hover?_target?`.
-/

namespace PawnScope

/-! ## What is read around the cursor -/

/-- A name is written between two offsets of a text. -/
structure Text.Written (chars : Text) (start stop : Nat) (name : Text) : Prop where
  filled : start < stop
  inside : stop ≤ chars.length
  slice : chars.slice start stop = name

/-- Behind an offset there is a text that begins with a name. -/
theorem Text.written_of_prefix {chars name : Text} {start : Nat} (filled : name ≠ [])
    (begins : name <+: chars.drop start) : chars.Written start (start + name.length) name := by
  have size := begins.length_le
  have positive := List.length_pos_of_ne_nil filled
  rw [List.length_drop] at size
  refine ⟨by omega, by omega, ?_⟩
  rw [Text.slice, Nat.add_sub_cancel_left]
  exact (List.prefix_iff_eq_take.mp begins).symm

/-- A slice without the blanks around it is written in the text, behind the blanks that it begins with. -/
theorem Text.written_trim {chars content : Text} {start stop : Nat} (cut : content = chars.slice start stop)
    (filled : content.allBlank = false) :
    chars.Written (start + (content.takeWhile isBlank).length)
        (start + (content.takeWhile isBlank).length + content.trim.length) content.trim ∧
      start + (content.takeWhile isBlank).length + content.trim.length ≤ stop := by
  obtain ⟨more, ends, -⟩ := exists_trimEnd content.trimStart
  have whole : content = content.takeWhile isBlank ++ (content.trim ++ more) :=
    List.takeWhile_append_dropWhile.symm.trans (congrArg _ ends)
  have solid := List.length_pos_of_ne_nil (trim_ne_nil filled)
  constructor
  · obtain ⟨beyond, within⟩ : content <+: chars.drop start := cut ▸ List.take_prefix _ _
    refine written_of_prefix (trim_ne_nil filled) ⟨more ++ beyond, ?_⟩
    rw [← List.drop_drop, ← within, congrArg (· ++ beyond) whole, List.append_assoc, List.drop_left,
      List.append_assoc]
  · have size : content.length ≤ stop - start := cut ▸ List.length_take_le _ _
    have parts := congrArg List.length whole
    simp only [List.length_append] at parts
    omega

/-- The word around the cursor has the character at the cursor, and is the text between its bounds. -/
theorem Word.of_around? [Alphabets] {chars : Text} {offset : Nat} {word : Word}
    (found : around? chars offset = some word) :
    chars.Written word.start word.stop word.name ∧ word.start ≤ offset ∧ offset < word.stop := by
  obtain ⟨⟨start, stop⟩, bounded, rfl⟩ := Option.map_eq_some_iff.mp found
  unfold bounds? at bounded
  split at bounded
  case h_1 => contradiction
  case h_2 c here =>
    split at bounded
    case isFalse => contradiction
    case isTrue part =>
      obtain ⟨rfl, rfl⟩ := Prod.mk.inj (Option.some.inj bounded)
      obtain ⟨short, rfl⟩ := List.getElem?_eq_some_iff.mp here
      have run : 0 < ((chars.drop offset).takeWhile Identifier.isPart).length := by
        rw [List.drop_eq_getElem_cons short, List.takeWhile_cons_of_pos part]
        exact Nat.succ_pos _
      have most := (List.takeWhile_prefix Identifier.isPart (l := chars.drop offset)).length_le
      rw [List.length_drop] at most
      exact ⟨⟨by dsimp only; omega, by dsimp only; omega, rfl⟩, Nat.sub_le _ _, by dsimp only; omega⟩

namespace Literal

variable {chars text content : Text} {offset here opening close : Nat} {opened : Option Nat}

/-- A string that is found opens before the cursor and closes behind it. -/
structure Encloses (chars : Text) (offset opening close : Nat) : Prop where
  opens : chars[opening]? = some '"'
  closes : chars[close]? = some '"'
  behind : opening < offset
  apart : opening < close
  before : offset ≤ close

theorem encloses_of_stringFrom (found : stringFrom offset here opened text = some (opening, close))
    (rest : chars.drop here = text)
    (opens : ∀ quote ∈ opened, chars[quote]? = some '"' ∧ quote < offset ∧ quote < here) :
    Encloses chars offset opening close := by
  fun_induction stringFrom offset here opened text with
  | case4 here c text line ahead ih =>
    obtain ⟨char, below⟩ := Text.of_drop_eq_cons rest
    refine ih found below fun quote member => ?_
    split at member
    case isTrue same =>
      obtain rfl := Option.mem_some.mp member
      exact ⟨same ▸ char, Nat.lt_of_not_le ahead, Nat.lt_succ_self _⟩
    case isFalse => contradiction
  | case6 here c line quote escapes d text ih =>
    obtain ⟨-, below⟩ := Text.of_drop_eq_cons rest
    refine ih found (Text.of_drop_eq_cons below).2 fun quote member => ?_
    obtain ⟨char, behind, before⟩ := opens quote member
    exact ⟨char, behind, by omega⟩
  | case7 here text quote behind line escapes =>
    obtain ⟨rfl, rfl⟩ := Prod.mk.inj (Option.some.inj found)
    obtain ⟨char, ahead, apart⟩ := opens _ rfl
    exact ⟨char, (Text.of_drop_eq_cons rest).1, ahead, apart, behind⟩
  | case8 here text quote ahead line escapes ih => exact ih found (Text.of_drop_eq_cons rest).2 nofun
  | case9 here c text line quote escapes other ih =>
    refine ih found (Text.of_drop_eq_cons rest).2 fun quote member => ?_
    obtain ⟨char, behind, before⟩ := opens quote member
    exact ⟨char, behind, Nat.lt_succ_of_lt before⟩
  | _ => contradiction

/-- The string around the cursor is what stands between its quotes. -/
theorem encloses_of_stringAround? (found : stringAround? chars offset = some (content, opening)) :
    ∃ close, Encloses chars (min offset chars.length) opening close ∧
      content = chars.slice (opening + 1) close := by
  unfold stringAround? at found
  obtain ⟨⟨opening', close⟩, reads, same⟩ := Option.map_eq_some_iff.mp found
  obtain ⟨rfl, rfl⟩ := Prod.mk.inj same
  exact ⟨close, encloses_of_stringFrom reads rfl nofun, rfl⟩

end Literal

namespace Query

variable {chars name : Text} {offset start stop : Nat} {scope : Scope} {cursor : Cursor}
  {reference : Reference}

theorem onDeclaration_eq_false_iff {file : SourceId} {span : Span} :
    onDeclaration cursor file span = false ↔
      (file = cursor.file → span.start.line ≠ cursor.position.line) := by
  simp [onDeclaration]

variable [Alphabets]

/--
The cursor is on a name: in it, or in the string around it, if the name is that of a callable and a function
takes the string which registers callbacks.
-/
inductive Reaches (chars : Text) (offset start stop : Nat) : Symbol → Prop where
  | word {symbol : Symbol} (behind : start ≤ offset) (before : offset < stop) :
      Reaches chars offset start stop symbol
  | callback {callable : Callable} {call : Call} {opening close : Nat}
      (string : Literal.Encloses chars (min offset chars.length) opening close)
      (behind : opening < start) (before : stop ≤ close) (taken : Call.around? chars opening = some call)
      (registers : call.name ∈ callbackRegistrars) : Reaches chars offset start stop (.callable callable)

/-- A callback is the text of its string without the blanks around it. -/
theorem of_callbackAt? (found : callbackAt? chars offset = some (name, start)) (callable : Callable) :
    chars.Written start (start + name.length) name ∧
      Reaches chars offset start (start + name.length) (.callable callable) := by
  unfold callbackAt? at found
  split at found
  case h_1 => contradiction
  case h_2 content opening string =>
    split at found
    case h_1 => contradiction
    case h_2 call taken =>
      split at found
      case isFalse => contradiction
      case isTrue registers =>
        obtain ⟨rfl, rfl⟩ := Prod.mk.inj (Option.some.inj found)
        rw [Bool.and_eq_true, List.contains_iff_mem, Bool.not_eq_true'] at registers
        obtain ⟨registers, filled⟩ := registers
        obtain ⟨close, encloses, same⟩ := Literal.encloses_of_stringAround? string
        obtain ⟨written, before⟩ := Text.written_trim same filled
        refine ⟨written, .callback encloses ?_ before taken registers⟩
        exact Nat.lt_of_lt_of_le (Nat.lt_succ_self opening) (Nat.le_add_right _ _)

/-! ## References -/

/--
A reference from the cursor is to a symbol of the scope, by a name that is written at its bounds and that
the cursor is on, and not from the line that declares the symbol.
-/
structure Reference.Refers (reference : Reference) (scope : Scope) (cursor : Cursor) : Prop where
  shown : reference.symbol ∈ scope.symbols
  named : ∃ name, cursor.chars.Written reference.start reference.stop name ∧
    Scope.Names name reference.symbol
  reached : Reaches cursor.chars cursor.offset reference.start reference.stop reference.symbol
  elsewhere : reference.symbol.file = cursor.file →
    reference.symbol.span.start.line ≠ cursor.position.line

theorem of_reference? (found : reference? scope cursor = some reference) : reference.Refers scope cursor := by
  obtain ⟨there, away⟩ := Option.filter_eq_some_iff.mp found
  rw [Bool.not_eq_true'] at away
  have elsewhere := onDeclaration_eq_false_iff.mp away
  unfold referenceAt? at there
  split at there
  case h_1 name start callback =>
    obtain ⟨callable, looked, rfl⟩ := Option.map_eq_some_iff.mp there
    obtain ⟨written, reached⟩ := of_callbackAt? callback callable
    obtain ⟨shown, names⟩ := Scope.of_callable? looked
    exact ⟨shown, ⟨name, written, names⟩, reached, elsewhere⟩
  case h_2 =>
    split at there
    case h_1 => contradiction
    case h_2 word around =>
      obtain ⟨symbol, looked, rfl⟩ := Option.map_eq_some_iff.mp there
      obtain ⟨written, behind, before⟩ := Word.of_around? around
      obtain ⟨shown, names⟩ := Scope.of_lookup? looked
      exact ⟨shown, ⟨word.name, written, names⟩, .word behind before, elsewhere⟩

/--
Wherever the cursor is in a name that stands outside of strings, it refers to what the name stands for, if
another line declares that.
-/
theorem reference?_of_around {above rest : Text} (around : Identifier.Around cursor.chars name above rest)
    (ends : ∀ c ∈ rest.head?, Identifier.isPart c = false) (behind : above.length ≤ cursor.offset)
    (before : cursor.offset < above.length + name.length)
    (outside : Literal.stringAround? cursor.chars cursor.offset = none) (symbol : Symbol) :
    reference? scope cursor = some ⟨symbol, above.length, above.length + name.length⟩ ↔
      scope.lookup? name = some symbol ∧
        (symbol.file = cursor.file → symbol.span.start.line ≠ cursor.position.line) := by
  obtain ⟨word, found, rfl, start, stop⟩ := around.word_of_ends ends behind before
  have callback : callbackAt? cursor.chars cursor.offset = none := by
    unfold callbackAt?
    rw [outside]
  have there : referenceAt? scope cursor.chars cursor.offset =
      (scope.lookup? word.name).map fun symbol =>
        ⟨symbol, above.length, above.length + word.name.length⟩ := by
    unfold referenceAt?
    rw [callback, found]
    dsimp only
    rw [start, stop]
  unfold reference?
  rw [there, Option.filter_eq_some_iff, ← onDeclaration_eq_false_iff, Bool.not_eq_true']
  simp [Option.map_eq_some_iff]

/-! ## Declarations and hovers -/

/-- A declaration is found for what the cursor refers to, and says where that is declared. -/
theorem of_target? {target : Target} (found : target? scope cursor = some target) :
    ∃ reference : Reference, reference.Refers scope cursor ∧
      target =
        ⟨reference.symbol.file, reference.symbol.span, reference.symbol.kind, reference.symbol.name⟩ := by
  obtain ⟨reference, there, same⟩ := Option.map_eq_some_iff.mp found
  exact ⟨reference, of_reference? there, same.symm⟩

/-- What is shown at the cursor is what the declaration is looked up for, and nothing else is. -/
theorem hover?_target? (scope : Scope) (cursor : Cursor) :
    (hover? scope cursor).map (fun hover => (hover.name, hover.file)) =
      (target? scope cursor).map fun target => (target.name, target.file) := by
  unfold hover? target?
  rw [Option.map_map, Option.map_map]
  rfl

/-- The span of a hover is where the name of its symbol is written, which the cursor is on. -/
theorem of_hover? {text : Text} {hover : Hover} (buffer : cursor.document = .ofText text)
    (found : hover? scope cursor = some hover) :
    ∃ reference : Reference, reference.Refers scope cursor ∧
      hover.contents = hoverText reference.symbol ∧
      cursor.document.lines.offset hover.span.start = reference.start ∧
      cursor.document.lines.offset hover.span.stop = reference.stop := by
  obtain ⟨reference, there, rfl⟩ := Option.map_eq_some_iff.mp found
  have refers := of_reference? there
  obtain ⟨name, written, -⟩ := refers.named
  have inside : reference.stop ≤ text.length := by
    have inside := written.inside
    rwa [Cursor.chars, buffer] at inside
  have start := LineTable.offset_position (Nat.le_trans (Nat.le_of_lt written.filled) inside)
  have stop := LineTable.offset_position inside
  refine ⟨reference, refers, rfl, ?_, ?_⟩
  · rw [buffer]
    exact start
  · rw [buffer]
    exact stop

end Query

open scoped Identifier.European

/-- A callback is found from the blanks around it, and its bounds are those of the name. -/
example :
    let callable : Callable :=
      ⟨"@Go".toList, "@Go()".toList, false, ⟨"m.sma".toList⟩, .onLine 4 0 3, [], none, false, false⟩
    Query.reference? ⟨[callable], [], []⟩
        ⟨⟨"m.sma".toList⟩, .ofText "set_task(1.0, \"  go \")".toList, ⟨0, 16⟩⟩ =
      some ⟨.callable callable, 17, 19⟩ := by
  decide +kernel

end PawnScope
