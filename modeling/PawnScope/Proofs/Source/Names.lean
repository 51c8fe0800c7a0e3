import PawnScope.Cursor.Basic
import PawnScope.Identifier.European
import PawnScope.Proofs.Declaration.Names
import PawnScope.Proofs.Source.Blanking
import PawnScope.Proofs.Source.Entries
import PawnScope.Proofs.Text.LineTable
/-!
The span of a variable or a function is where its name stands in the text of its file, and a cursor in
it is on that name: `Outline.ofText_span_found`. That takes the same characters in tokens and in words;
whatever characters these know, `Outline.ofText_span_word` says when it holds.
-/

namespace PawnScope

open Identifier (Around isPart isTokenPart)

/-! ## Names of a line in the text -/

namespace Line

variable {opened : Opened} {raws : List Text} {line : Line} {number : Nat} {text name : Text}

/-- The code of a line is what is left of it, read with what is open above it. -/
theorem code_ofText [Alphabets] (member : line ∈ ofText text) :
    line.code = blankComments line.raw ((openedAt text line.number).comment.mode.regions line.raw) := by
  obtain ⟨index, found⟩ := List.mem_iff_getElem?.mp member
  obtain ⟨raw, -, rfl⟩ := exists_ofRaw found
  rfl

theorem withoutReturn_append (raw : Text) :
    ∃ tail, raw = withoutReturn raw ++ tail ∧ ∀ c ∈ tail.head?, c = '\r' := by
  rw [withoutReturn]
  split
  case isTrue last => exact ⟨['\r'], (List.dropLast_append_getLast? _ last).symm, by simp⟩
  case isFalse => exact ⟨[], (List.append_nil raw).symm, by simp⟩

/-- A line begins in code, or inside a block comment. -/
theorem mode_fits (comment : OpenComment) (line : Text) : comment.mode.Fits line := by
  intro isDoc closes
  cases comment <;> contradiction

/-- Where a line stands in the text, with what its line end leaves of a carriage return. -/
theorem exists_lineAt [Alphabets] (member : line ∈ ofText text) :
    ∃ tail upper lower, LineTable.LineAt 0 text line.number (line.raw ++ tail) upper lower ∧
      ∀ c ∈ tail.head?, c = '\r' := by
  obtain ⟨index, found⟩ := List.mem_iff_getElem?.mp member
  obtain rfl := number_ofText found
  obtain ⟨piece, split, raw⟩ : ∃ piece, (Text.split '\n' text)[line.number]? = some piece ∧
      withoutReturn piece = line.raw := by
    have written := congrArg (·[line.number]?) (raw_ofText text)
    rw [List.getElem?_map, found, List.getElem?_map] at written
    exact Option.map_eq_some_iff.mp written.symm
  obtain ⟨tail, ends, returns⟩ := withoutReturn_append piece
  obtain ⟨upper, lower, stands⟩ := LineTable.lineAt split
  rw [ends, raw] at stands
  exact ⟨tail, upper, lower, stands, returns⟩

/-- A name in the code of a line stands in the text at the offset of its position. -/
theorem around_ofText [Alphabets] (member : line ∈ ofText text) {start : Nat}
    (named : Declaration.NamedIn line.code name start) :
    ∃ above rest, Around text name above rest ∧
      (LineTable.ofText text).offset ⟨line.number, start⟩ = above.length ∧
      (LineTable.ofText text).offset ⟨line.number, start + name.length⟩ =
        above.length + name.length := by
  have code := code_ofText member
  obtain ⟨above, rest, around, rfl⟩ := named
  rw [code] at around
  obtain ⟨above', rest', around', same⟩ :=
    around.unblank (mode_fits (openedAt text line.number).comment line.raw)
  obtain ⟨tail, upper, lower, stands, returns⟩ := exists_lineAt member
  have inPiece : Around (line.raw ++ tail) name above' (rest' ++ tail) := by
    refine around'.append tail fun _ c first => ?_
    rw [returns c first]
    rfl
  have inText : Around text name (upper ++ above') (rest' ++ tail ++ lower) := by
    rw [stands.whole]
    refine Around.prepend (inPiece.append lower fun _ c first => ?_) upper fun _ c last => ?_
    · rw [stands.after c first]
      rfl
    · rw [stands.before c last]
      rfl
  have long : above.length + name.length ≤ (line.raw ++ tail).length := by
    rw [inPiece.whole, List.length_append, List.length_append, same]
    omega
  refine ⟨_, _, inText, ?_, ?_⟩
  · rw [stands.offset_eq (Nat.le_trans (Nat.le_add_right _ _) long), List.length_append, same]
  · rw [stands.offset_eq long, List.length_append, same, Nat.add_assoc]

end Line

/-! ## What statements declare -/

namespace Outline

/-- What joined lines declare is recognized in their code, which begins with an open list. -/
theorem recognize_of_joinList [Alphabets] {joined : Text} {count : Nat} {lines : List Line}
    {declaration : Declaration} (found : (joinList joined count lines).2 = some declaration) :
    ∃ more complete, Declaration.recognize (joined ++ more) true = .found declaration ∧
      (more = [] ∨ Declaration.recognize joined complete = .unfinished) := by
  induction lines generalizing joined count with
  | nil =>
    rw [joinList] at found
    split at found
    case h_1 other recognized =>
      cases found
      exact ⟨[], true, by rwa [List.append_nil], .inl rfl⟩
    case h_2 => contradiction
  | cons next rest ih =>
    rw [joinList] at found
    split at found
    case h_1 other recognized =>
      cases found
      rcases Declaration.recognize_complete joined (maxListLines ≤ count) with
        ⟨same, -⟩ | ⟨waits, -⟩
      · rw [same] at recognized
        exact ⟨[], true, by rwa [List.append_nil], .inl rfl⟩
      · rw [waits] at recognized
        contradiction
    case h_2 => contradiction
    case h_3 waits =>
      split at found
      case isTrue =>
        obtain ⟨more, _, recognized, -⟩ := ih found
        rw [List.append_assoc] at recognized
        exact ⟨_, _, recognized, .inr waits⟩
      case isFalse =>
        split at found
        case h_1 other recognized =>
          cases found
          exact ⟨[], true, by rwa [List.append_nil], .inl rfl⟩
        case h_2 => contradiction

/-- Joined lines declare what is named in the first of them. -/
theorem allNamedIn_of_joinList [Alphabets] {joined : Text} {count : Nat} {lines : List Line}
    {declaration : Declaration} (found : (joinList joined count lines).2 = some declaration) :
    Declaration.AllNamedIn joined declaration := by
  obtain ⟨more, complete, recognized, rfl | waits⟩ := recognize_of_joinList found
  · rw [List.append_nil] at recognized
    exact Declaration.allNamedIn_of_found recognized
  · exact Declaration.allNamedIn_of_joined waits more recognized

end Outline

theorem Statement.joinList_of_read [Alphabets] {line : Line} {following : List Line}
    {declared : Declaration} (found : (read line following).2 = declaration declared) :
    (Outline.joinList line.code 0 following).2 = some declared := by
  rw [read] at found
  split at found
  · contradiction
  · split at found
    · dsimp only at found
      cases recognized : Directive.recognize?
        (Outline.joinDirective (Text.trimEnd line.code) following).2 with
      | none =>
        rw [recognized] at found
        contradiction
      | some directive =>
        rw [recognized] at found
        contradiction
    · dsimp only at found
      cases joined : (Outline.joinList line.code 0 following).2 with
      | none =>
        rw [joined] at found
        contradiction
      | some other =>
        rw [joined] at found
        cases found
        rfl

theorem Statement.allNamedIn_of_read [Alphabets] {line : Line} {following : List Line}
    {declared : Declaration} (found : (read line following).2 = declaration declared) :
    Declaration.AllNamedIn line.code declared :=
  Outline.allNamedIn_of_joinList (joinList_of_read found)

theorem Statement.of_global_mem {site : Site} {statement : Statement} {found : Global}
    (member : .global found ∈ statement.entries site) :
    ∃ heads, statement = declaration (.globals heads) ∧ ∃ head ∈ heads,
      found = site.global head := by
  cases Statement.mem_entries_iff.mp member with
  | global inside => exact ⟨_, rfl, _, inside, rfl⟩

theorem Statement.of_callable_mem {site : Site} {statement : Statement} {found : Callable}
    (member : .callable found ∈ statement.entries site) (plain : found.kind = .function) :
    ∃ head, statement = declaration (.function head) ∧ found = site.callable head := by
  cases Statement.mem_entries_iff.mp member with
  | template => contradiction
  | function => exact ⟨_, rfl, rfl⟩

/-- An entry comes from the statement on one of the lines. -/
theorem Progress.mem_all [Alphabets] {file : SourceId} {skipStatic : Bool} {progress : Progress}
    {lines : List Line} {entry : Entry} (member : entry ∈ progress.all file skipStatic lines) :
    ∃ line ∈ lines, ∃ following doc,
      entry ∈ (Statement.read line following).2.entries ⟨file, skipStatic, line, doc⟩ := by
  induction lines generalizing progress with
  | nil => simp [all] at member
  | cons line rest ih =>
    rw [all] at member
    rcases List.mem_append.mp member with member | member
    · rw [Progress.entries] at member
      split at member
      · simp at member
      · exact ⟨line, List.mem_cons_self, rest, _, member⟩
    · obtain ⟨other, inside, found⟩ := ih member
      exact ⟨other, List.mem_cons_of_mem _ inside, found⟩

/-! ## Spans -/

namespace Outline

/-- A variable or a function, but no macro, with its span. -/
def Declares (outline : Outline) (name : Text) (span : Span) : Prop :=
  (∃ global ∈ outline.globals, global.name = name ∧ global.span = span) ∨
    ∃ callable ∈ outline.callables,
      callable.kind = .function ∧ callable.name = name ∧ callable.span = span

instance (outline : Outline) (name : Text) (span : Span) : Decidable (outline.Declares name span) :=
  inferInstanceAs (Decidable (_ ∨ _))

variable {file : SourceId} {text name : Text} {skipStatic : Bool} {span : Span}

/-- What is declared is named in the code of the line of its span. -/
theorem named_of_declares [Alphabets] (declares : (ofText file text skipStatic).Declares name span) :
    ∃ line ∈ Line.ofText text, ∃ start, Declaration.NamedIn line.code name start ∧
      span = .onLine line.number start name.length := by
  rw [ofText_eq] at declares
  rcases declares with ⟨global, member, rfl, rfl⟩ | ⟨callable, member, kind, rfl, rfl⟩
  · obtain ⟨line, inside, following, doc, entry⟩ := Progress.mem_all (global_mem_of_putAll member)
    obtain ⟨heads, declared, head, among, rfl⟩ := Statement.of_global_mem entry
    exact ⟨line, inside, _, Statement.allNamedIn_of_read declared head among, rfl⟩
  · obtain ⟨line, inside, following, doc, entry⟩ := Progress.mem_all (callable_mem_of_putAll member)
    obtain ⟨head, declared, rfl⟩ := Statement.of_callable_mem entry kind
    exact ⟨line, inside, _, Statement.allNamedIn_of_read declared, rfl⟩

/-- The name that is declared stands in the text at its span. -/
theorem around_of_declares [Alphabets] (declares : (ofText file text skipStatic).Declares name span) :
    ∃ above rest, Around text name above rest ∧
      (LineTable.ofText text).offset span.start = above.length ∧
      (LineTable.ofText text).offset span.stop = above.length + name.length := by
  obtain ⟨line, member, column, named, rfl⟩ := named_of_declares declares
  exact Line.around_ofText member named

/--
The span of a variable or a function holds its name, and a cursor in it is on the name and on no more,
if and only if no word goes on with the character that follows.
-/
theorem ofText_span_word [Alphabets] (declares : (ofText file text skipStatic).Declares name span) :
    let buffer := Buffer.ofText text
    let start := buffer.lines.offset span.start
    let stop := buffer.lines.offset span.stop
    start < stop ∧ buffer.chars.slice start stop = name ∧
      ((∀ offset, start ≤ offset → offset < stop →
          ∃ word, Word.around? buffer.chars offset = some word ∧ word.name = name ∧
            word.start = start ∧ word.stop = stop) ↔
        ∀ c ∈ buffer.chars[stop]?, isPart c = false) := by
  obtain ⟨above, rest, around, starts, upto⟩ := around_of_declares declares
  dsimp only [Buffer.ofText]
  rw [starts, upto]
  have size : 0 < name.length := List.length_pos_of_ne_nil around.filled
  have next : text[above.length + name.length]? = rest.head? := by
    rw [around.whole, ← List.append_assoc, List.getElem?_append_right (by simp),
      List.length_append, Nat.sub_self, List.head?_eq_getElem?]
  rw [next]
  refine ⟨by omega, ?_, ?_, fun ends offset => around.word_of_ends ends⟩
  · rw [Text.slice, around.whole, List.drop_left, Nat.add_sub_cancel_left, List.take_left]
  · intro agrees c first
    obtain ⟨word, found, -, -, stop⟩ := agrees above.length (Nat.le_refl _) (by omega)
    obtain ⟨word', found', -, -, stop'⟩ := around.word (Nat.le_refl _) (by omega)
    obtain rfl := Option.some.inj (found.symm.trans found')
    have nothing : rest.takeWhile isPart = [] := List.length_eq_zero_iff.mp (by omega)
    rw [← List.nil_append rest] at nothing
    exact (Text.stop_of_takeWhile nothing).2 c first

/--
The span of a variable or a function is where a cursor is on its name: at every offset of the span the
word is the name, from the start of the span to its end. Tokens and words go on with the same characters.
-/
theorem ofText_span_found [Alphabets] (agree : Alphabets.Agree)
    (declares : (ofText file text skipStatic).Declares name span) :
    let buffer := Buffer.ofText text
    let start := buffer.lines.offset span.start
    let stop := buffer.lines.offset span.stop
    start < stop ∧ ∀ offset, start ≤ offset → offset < stop →
      ∃ word, Word.around? buffer.chars offset = some word ∧ word.name = name ∧
        word.start = start ∧ word.stop = stop := by
  obtain ⟨above, rest, around, starts, upto⟩ := around_of_declares declares
  dsimp only [Buffer.ofText]
  rw [starts, upto]
  have size : 0 < name.length := List.length_pos_of_ne_nil around.filled
  have ends : ∀ c ∈ rest.head?, isPart c = false := fun c next =>
    (agree c).symm.trans (around.after c next)
  exact ⟨by omega, fun offset => around.word_of_ends ends⟩

open scoped Identifier.European

/-- A cursor in the name of a function whose parameter list goes on over two lines. -/
theorem ofText_span_joined :
    let text := "stock größe(a,\n\tb) return a;".toList
    (ofText ⟨"f.sma".toList⟩ text false).Declares "größe".toList ⟨⟨0, 6⟩, ⟨0, 11⟩⟩ ∧
      ∀ offset, 6 ≤ offset → offset < 11 →
        ∃ word, Word.around? text offset = some word ∧ word.name = "größe".toList ∧
          word.start = 6 ∧ word.stop = 11 := by
  intro text
  have declares : (ofText ⟨"f.sma".toList⟩ text false).Declares "größe".toList ⟨⟨0, 6⟩, ⟨0, 11⟩⟩ := by
    decide +kernel
  have start : (LineTable.ofText text).offset ⟨0, 6⟩ = 6 := by decide +kernel
  have stop : (LineTable.ofText text).offset ⟨0, 11⟩ = 11 := by decide +kernel
  obtain ⟨-, found⟩ := ofText_span_found (fun _ => rfl) declares
  dsimp only [Buffer.ofText] at found
  rw [start, stop] at found
  exact ⟨declares, found⟩

end Outline

end PawnScope
