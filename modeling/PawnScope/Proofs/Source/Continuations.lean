import PawnScope.Identifier.European
import PawnScope.Proofs.Source.Defines
import PawnScope.Proofs.Source.Quiet
/-!
A `#define` that goes on over several lines. Behind its name any blank can give way to a backslash and a
line break without a change in what is defined: `Outline.ofText_continued`. `Rows` is where the broken line
and the lines that are read meet.
-/

namespace PawnScope

/-- A text with a backslash and a line end in the place of each character for which `breaks` has one. -/
def continued (breaks : Nat → Option Text) (offset : Nat) : Text → Text
  | [] => []
  | c :: rest =>
    match breaks offset with
    | some ending => '\\' :: (ending ++ continued breaks (offset + 1) rest)
    | none => c :: continued breaks (offset + 1) rest

/-- A blank of a line that can give way to a line break: behind `start`, in no literal, and before more. -/
structure Breakable (raw : Text) (start offset : Nat) : Prop where
  blank : raw[offset]? = some ' '
  behind : start ≤ offset
  outside : (Mode.code.regions raw)[offset]? = some .code
  more : ∃ c ∈ raw[offset + 1]?, isBlank c = false

/-- How a line ends. -/
def IsLineEnd (ending : Text) : Prop :=
  ending = ['\n'] ∨ ending = ['\r', '\n']

/-! ## Rows -/

/--
A line that is entered in `mode`, the text that it gives way to, and the rows of that text. Each row but the
last one ends in the backslash that stands for a blank of the line.
-/
inductive Rows : Mode → Text → Text → List Text → Prop where
  | last {mode : Mode} {line : Text} (kept : ∀ region ∈ mode.regions line, region.isKept = true) :
      Rows mode line line [line]
  | more {mode : Mode} {front line text ending : Text} {rows : List Text}
      (kept : ∀ region ∈ mode.regions (front ++ ['\\']), region.isKept = true)
      (ends : IsLineEnd ending) (solid : ∃ c ∈ line.head?, isBlank c = false)
      (below : Rows .code line text rows) :
      Rows mode (front ++ ' ' :: line) (front ++ '\\' :: (ending ++ text)) ((front ++ ['\\']) :: rows)

namespace Mode

variable {mode : Mode} {c : Char} {rest line : Text}

/-- Only code is read as code. -/
theorem eq_code_of_step (outside : (mode.step ' ' rest).1 = .code) :
    mode = .code ∧ (mode.step ' ' rest).2 = .code := by
  unfold step at *
  grind [isQuote]

/-- Where no comment opens, only the next character matters to how one is read. -/
theorem step_cons_congr {d : Char} (kept : (mode.step c (d :: rest)).1.isKept = true) (other : Text) :
    mode.step c (d :: other) = mode.step c (d :: rest) := by
  cases mode <;> simp only [step, List.head?_cons] at kept ⊢ <;> grind [Region.isKept]

/-- Where no comment opens, a backslash is read as the blank that it stands for. -/
theorem step_backslash (front line : Text)
    (kept : (mode.step c (front ++ ' ' :: line)).1.isKept = true) :
    mode.step c (front ++ ['\\']) = mode.step c (front ++ ' ' :: line) := by
  cases front with
  | nil =>
    cases mode <;> simp only [step, List.nil_append, List.head?_cons] at kept ⊢ <;> grind [Region.isKept]
  | cons d front => exact step_cons_congr kept _

/-- A text without comments has none if a carriage return behind it is left out. -/
theorem kept_of_return {line : Text}
    (kept : ∀ region ∈ mode.regions (line ++ ['\r']), region.isKept = true) :
    ∀ region ∈ mode.regions line, region.isKept = true := by
  induction line generalizing mode with
  | nil => simp [regions]
  | cons c line ih =>
    rw [List.cons_append, regions_cons] at kept
    obtain ⟨here, behind⟩ := List.forall_mem_cons.mp kept
    rw [regions_cons]
    cases line with
    | nil =>
      refine List.forall_mem_cons.mpr ⟨?_, by simp [regions]⟩
      cases mode <;> simp only [step, List.nil_append, List.head?_cons] at here ⊢ <;> grind [Region.isKept]
    | cons d line =>
      have same : mode.step c (d :: line) = mode.step c (d :: line ++ ['\r']) :=
        step_cons_congr here line
      rw [← same] at here behind
      exact List.forall_mem_cons.mpr ⟨here, ih behind⟩

theorem isKeeping_after (keeps : mode.isKeeping = true)
    (kept : ∀ region ∈ mode.regions line, region.isKept = true) : (mode.after line).isKeeping = true := by
  induction line generalizing mode with
  | nil => exact keeps
  | cons c line ih =>
    obtain ⟨here, behind⟩ := List.forall_mem_cons.mp kept
    exact ih (isKeeping_of_kept here).2 behind

end Mode

namespace Rows

variable {mode : Mode} {c : Char} {line text row : Text} {rows : List Text}

/-- One more character in front of the first row. -/
theorem cons (kept : (mode.step c line).1.isKept = true)
    (behind : Rows (mode.step c line).2 line text (row :: rows)) :
    Rows mode (c :: line) (c :: text) ((c :: row) :: rows) := by
  cases behind with
  | last kept' => exact .last (List.forall_mem_cons.mpr ⟨kept, kept'⟩)
  | @more _ front line text ending rows kept' ends solid below =>
    have kept'' : ∀ region ∈ mode.regions ((c :: front) ++ ['\\']), region.isKept = true := by
      rw [List.cons_append, Mode.regions_cons, Mode.step_backslash front line kept]
      exact List.forall_mem_cons.mpr ⟨kept, kept'⟩
    exact .more kept'' ends solid below

/-- A line of which only blanks give way comes in rows, and the first one has all before the first of them. -/
theorem exists_of_continued {raw : Text} {breaks : Nat → Option Text} {offset : Nat}
    (kept : ∀ region ∈ mode.regions raw, region.isKept = true)
    (ends : ∀ index, ∀ ending ∈ breaks index, IsLineEnd ending)
    (blank : ∀ index, (breaks (offset + index)).isSome → raw[index]? = some ' ' ∧
      (mode.regions raw)[index]? = some .code ∧ ∃ c ∈ raw[index + 1]?, isBlank c = false) :
    ∃ row rows, Rows mode raw (continued breaks offset raw) (row :: rows) ∧
      ∀ count, (∀ index < count, breaks (offset + index) = none) → raw.take count <+: row := by
  induction raw generalizing mode offset with
  | nil => exact ⟨_, _, .last kept, fun count _ => by simp⟩
  | cons c rest ih =>
    obtain ⟨here, behind⟩ := List.forall_mem_cons.mp kept
    have shift (index : Nat) : offset + 1 + index = offset + (index + 1) := by omega
    obtain ⟨row, rows, found, begins⟩ := ih behind fun index breaks => by
      rw [shift] at breaks
      simpa [Mode.regions_cons] using blank (index + 1) breaks
    rw [continued]
    cases broken : breaks offset with
    | none =>
      refine ⟨_, _, found.cons here, fun count unbroken => ?_⟩
      cases count with
      | zero => exact List.nil_prefix
      | succ count =>
        refine List.cons_prefix_cons.mpr ⟨rfl, begins count fun index short => ?_⟩
        rw [shift]
        exact unbroken (index + 1) (by omega)
    | some ending =>
      obtain ⟨same, outside, solid⟩ := blank 0 (by simp [broken])
      obtain rfl : c = ' ' := by simpa using same
      obtain ⟨rfl, after⟩ := Mode.eq_code_of_step (Option.some.inj outside)
      rw [after] at found
      have first : Rows .code ([] ++ ' ' :: rest)
          ([] ++ '\\' :: (ending ++ continued breaks (offset + 1) rest)) (([] ++ ['\\']) :: row :: rows) :=
        .more (by decide) (ends offset ending broken) (by simpa [List.head?_eq_getElem?] using solid) found
      refine ⟨_, _, first, fun count unbroken => ?_⟩
      cases count with
      | zero => exact List.nil_prefix
      | succ count =>
        have none := unbroken 0 (Nat.succ_pos count)
        rw [Nat.add_zero, broken] at none
        contradiction

/-- The first row begins as the line does. -/
theorem head?_row (broken : Rows mode line text (row :: rows))
    (solid : ∀ d ∈ line.head?, isBlank d = false) : ∀ d ∈ row.head?, isBlank d = false := by
  cases broken with
  | last kept => exact solid
  | @more _ front line text ending rows kept ends solid' below =>
    cases front with
    | nil => exact absurd (solid ' ' rfl) (by decide)
    | cons c front => exact solid

theorem kept_of_mem (broken : Rows mode line text (row :: rows)) :
    (∀ region ∈ mode.regions row, region.isKept = true) ∧
      ∀ other ∈ rows, ∀ region ∈ Mode.code.regions other, region.isKept = true := by
  generalize whole : row :: rows = all at broken
  induction broken generalizing row rows with
  | last kept =>
    obtain ⟨rfl, rfl⟩ := List.cons.inj whole
    exact ⟨kept, by simp⟩
  | @more mode front line text ending rows' kept ends solid below ih =>
    obtain ⟨rfl, rfl⟩ := List.cons.inj whole
    refine ⟨kept, fun other member => ?_⟩
    obtain ⟨next, further, rfl⟩ := List.exists_cons_of_ne_nil (List.ne_nil_of_mem member)
    obtain ⟨here, behind⟩ := ih rfl
    rcases List.mem_cons.mp member with rfl | member
    · exact here
    · exact behind other member

/-- The lines of the text are the rows. -/
theorem withoutReturn_split (broken : Rows mode line text rows) (single : '\n' ∉ line) :
    (Text.split '\n' text).map Line.withoutReturn = rows.map Line.withoutReturn := by
  induction broken with
  | last kept => rw [Text.split_of_not_mem single]
  | @more mode front line text ending rows kept ends solid below ih =>
    rw [List.mem_append, List.mem_cons, not_or, not_or] at single
    obtain ⟨apart, -, behind⟩ := single
    rw [List.map_cons, ← ih behind]
    rcases ends with rfl | rfl
    · have piece : '\n' ∉ front ++ ['\\'] := by simp [apart]
      have whole : front ++ '\\' :: (['\n'] ++ text) = (front ++ ['\\']) ++ '\n' :: text := by simp
      rw [whole, Text.split_append piece, List.map_cons]
    · have piece : '\n' ∉ front ++ ['\\', '\r'] := by simp [apart]
      have whole : front ++ '\\' :: (['\r', '\n'] ++ text) = (front ++ ['\\', '\r']) ++ '\n' :: text := by
        simp
      rw [whole, Text.split_append piece, List.map_cons]
      simp [Line.withoutReturn]

end Rows

/-! ## Reading the rows -/

namespace Line

theorem head?_withoutReturn {raw : Text} {c : Char} (first : c ∈ (withoutReturn raw).head?) :
    c ∈ raw.head? := by
  obtain ⟨tail, whole, -⟩ := withoutReturn_append raw
  rw [whole, List.head?_append, first]
  rfl

theorem exists_withoutReturn {c : Char} (other : c ≠ '\r') (front rest : Text) :
    ∃ rest', withoutReturn (front ++ c :: rest) = front ++ c :: rest' := by
  rw [withoutReturn]
  split
  case isFalse => exact ⟨rest, rfl⟩
  case isTrue last =>
    have filled : rest ≠ [] := by
      rintro rfl
      rw [List.getLast?_concat] at last
      exact other (Option.some.inj last)
    refine ⟨rest.dropLast, ?_⟩
    rw [List.dropLast_append_of_ne_nil (List.cons_ne_nil _ _), List.dropLast_cons_of_ne_nil filled]

theorem trimEnd_withoutReturn (raw : Text) : Text.trimEnd (withoutReturn raw) = Text.trimEnd raw := by
  rw [withoutReturn]
  split
  case isTrue last =>
    have blank : ∀ c ∈ ['\r'], isBlank c = true := List.forall_mem_singleton.mpr (by decide)
    conv_rhs => rw [← List.dropLast_append_getLast? _ last, Text.trimEnd_append_blanks blank]
  case isFalse => rfl

theorem kept_withoutReturn {raw : Text} {mode : Mode}
    (kept : ∀ region ∈ mode.regions raw, region.isKept = true) :
    ∀ region ∈ mode.regions (withoutReturn raw), region.isKept = true := by
  rw [withoutReturn]
  split
  case isTrue last =>
    rw [← List.dropLast_append_getLast? _ last] at kept
    exact Mode.kept_of_return kept
  case isFalse => exact kept

theorem ofMode_of_isKeeping {mode : Mode} (keeps : mode.isKeeping = true) (body : Text) :
    OpenComment.ofMode mode body = .none := by
  cases mode <;> first | rfl | contradiction

theorem leadingDoc_ofRaw {raw : Text} (number depth : Nat)
    (kept : ∀ region ∈ Mode.code.regions raw, region.isKept = true) :
    (ofRaw number depth .none raw).1.leadingDoc = none := by
  have ended : (ofRaw number depth .none raw).1.doc = none := Doc.ended_read kept [] raw
  rw [leadingDoc, ended]
  rfl

/-- The code of lines in which no comment opens is what is written. -/
theorem code_readFrom [Alphabets] {raws : List Text}
    (kept : ∀ raw ∈ raws, ∀ region ∈ Mode.code.regions raw, region.isKept = true)
    (number depth : Nat) :
    (readFrom number ⟨depth, .none⟩ raws).map code = raws.map withoutReturn := by
  induction raws generalizing number depth with
  | nil => rfl
  | cons raw rest ih =>
    obtain ⟨here, behind⟩ := List.forall_mem_cons.mp kept
    have uncommented := kept_withoutReturn here
    have next : Opened.next ⟨depth, .none⟩ raw = ⟨(Opened.next ⟨depth, .none⟩ raw).depth, .none⟩ :=
      congrArg (Opened.mk _) (ofMode_of_isKeeping (Mode.isKeeping_after rfl uncommented) _)
    rw [readFrom_cons, next, List.map_cons, List.map_cons, ih behind]
    exact congrArg (· :: _) (blankComments_of_kept (Mode.length_regions _ _) uncommented)

end Line

/-- The rows join to the line. -/
theorem Rows.joinDirective {mode : Mode} {line text row : Text} {rows : List Text} {lines : List Line}
    (broken : Rows mode line text (row :: rows))
    (codes : lines.map Line.code = rows.map Line.withoutReturn) (front : Text) (more : List Line) :
    Outline.joinDirective (front ++ Text.trimEnd row) (lines ++ more) =
      (lines.length + (Outline.joinDirective (front ++ Text.trimEnd line) more).1,
        (Outline.joinDirective (front ++ Text.trimEnd line) more).2) := by
  generalize whole : row :: rows = all at broken
  induction broken generalizing row rows lines front with
  | last kept =>
    obtain ⟨rfl, rfl⟩ := List.cons.inj whole
    obtain rfl := List.map_eq_nil_iff.mp codes
    simp
  | @more mode before line text ending rows' kept ends solid below ih =>
    obtain ⟨rfl, rfl⟩ := List.cons.inj whole
    obtain ⟨c, head, filled⟩ := solid
    obtain ⟨next, further, rfl⟩ : ∃ next further, rows = next :: further := by
      cases below <;> exact ⟨_, _, rfl⟩
    obtain ⟨first, lines, rfl⟩ : ∃ first others, lines = first :: others := by
      cases lines with
      | nil => simp at codes
      | cons first others => exact ⟨first, others, rfl⟩
    obtain ⟨code, codes⟩ := List.cons.inj codes
    have slashed : Text.trimEnd (before ++ ['\\']) = before ++ ['\\'] :=
      Text.trimEnd_eq_self fun d last => by
        rw [List.getLast?_concat] at last
        exact Option.some.inj last ▸ by decide
    have trimmed : Text.trim first.code = Text.trimEnd next := by
      have start := below.head?_row fun d first => Option.mem_unique head first ▸ filled
      rw [code, Text.trim, Text.trimStart_eq_self fun d first => start d (Line.head?_withoutReturn first),
        Line.trimEnd_withoutReturn]
    have onward : Text.trimEnd (before ++ ' ' :: line) = (before ++ [' ']) ++ Text.trimEnd line := by
      rw [← List.singleton_append, ← List.append_assoc,
        Text.trimEnd_append (Text.trimEnd_ne_nil (List.mem_of_head? head) filled)]
    rw [slashed, List.cons_append, Outline.joinDirective, if_pos (by simp), ← List.append_assoc,
      List.dropLast_concat, trimmed, onward, ← List.append_assoc, ← List.append_assoc]
    have step : front ++ before ++ ' ' :: Text.trimEnd next =
        front ++ before ++ [' '] ++ Text.trimEnd next := by simp
    rw [step, ih codes (front ++ before ++ [' ']) rfl, List.length_cons]
    exact congrArg (·, _) (Nat.add_right_comm _ _ _)

/-! ## What is defined -/

namespace Outline

/-- One constant or one macro, of this name and with this span, and nothing else. -/
def DefinesOnly (outline : Outline) (name : Text) (span : Span) : Prop :=
  (∃ constant, outline = { empty with constants := [constant] } ∧ constant.name = name ∧
      constant.span = span) ∨
    ∃ callable, outline = { empty with callables := [callable] } ∧ callable.kind = .template ∧
      callable.name = name ∧ callable.span = span

/-- What a directive says if it begins on the first line of a file, below no doc comment. -/
def ofDirective (file : SourceId) (directive : Directive) : Outline :=
  empty.putAll ((Statement.directive directive).entries ⟨file, false, Line.quiet 0 [], none⟩)

theorem definesOnly_ofDirective {directive : Directive} {name : Text} {start : Nat}
    (defined : directive.defined? = some (name, start)) (file : SourceId) :
    (ofDirective file directive).DefinesOnly name (.onLine 0 start name.length) := by
  cases directive with
  | inclusion => contradiction
  | template =>
    cases defined
    exact .inr ⟨_, rfl, rfl, rfl, rfl⟩
  | constant =>
    cases defined
    exact .inl ⟨_, rfl, rfl, rfl⟩

theorem entries_eq_of_defined {directive : Directive} {name : Text} {start : Nat}
    (defined : directive.defined? = some (name, start)) (file : SourceId) (skipStatic : Bool)
    {line : Line} (top : line.number = 0) :
    empty.putAll ((Statement.directive directive).entries ⟨file, skipStatic, line, none⟩) =
      ofDirective file directive := by
  cases directive with
  | inclusion => contradiction
  | template => simp only [ofDirective, Statement.entries, Site.nameSpan, top]; rfl
  | constant => simp only [ofDirective, Statement.entries, Site.nameSpan, top]; rfl

variable {line text final : Text} {rows : List Text} {first name : Token} {tokens : List Token}
  {row : Text}

/-- The first row begins with the directive. -/
theorem hash_of_row [Alphabets] (opening : Token.ofLine line = first :: name :: tokens)
    (directive : first.kind = .directive) (begins : line.take name.stop <+: row) :
    (Text.trimStart (Line.withoutReturn row)).head? = some '#' := by
  obtain ⟨gap, c, word, rest, whole, gaps, same, found, later⟩ := (opening ▸ Token.lexed_ofLine _).head
  rw [directive] at found
  obtain rfl := Token.hash_of_directive found
  have front : gap ++ ['#'] <+: line.take name.stop := by
    refine List.prefix_take_iff.mpr ⟨⟨word ++ rest, by rw [whole]; simp⟩, ?_⟩
    have order := later.le_start name List.mem_cons_self
    rw [Token.stop, congrArg Token.start same, congrArg Token.text same] at order
    simp only [List.length_append, List.length_cons, List.length_nil, Token.stop] at order ⊢
    omega
  obtain ⟨more, rfl⟩ := front.trans begins
  obtain ⟨more', shorter⟩ := Line.exists_withoutReturn (by decide : '#' ≠ '\r') gap more
  rw [List.append_assoc, List.singleton_append, shorter, Text.trimStart,
    List.dropWhile_append_of_pos fun c member => Token.isBlank_of_isGap (gaps c member),
    List.dropWhile_cons_of_neg (by decide)]
  rfl

/-- A text in rows is read as the line that the rows come from. -/
theorem ofText_rows [Alphabets] (broken : Rows .code line text (row :: rows))
    (opening : Token.ofLine line = first :: name :: tokens) (opens : Directive.Opens first name)
    (begins : line.take name.stop <+: row) {ends : List Text} (blank : ends = [] ∨ ends = [[]])
    {whole : Text} (split : (Text.split '\n' whole).map Line.withoutReturn =
      (row :: (rows ++ ends)).map Line.withoutReturn)
    {directive : Directive} (recognized : Directive.recognize? (joinDirective (Text.trimEnd line)
      (ends.map (Line.quiet 0))).2 = some directive)
    (defined : directive.defined? = some (name.text, name.start))
    (file : SourceId) (skipStatic : Bool) :
    ofText file whole skipStatic = ofDirective file directive := by
  obtain ⟨here, below⟩ := broken.kept_of_mem
  have nothing : ∀ raw ∈ ends, raw = [] := by rcases blank with rfl | rfl <;> simp
  have kept : ∀ raw ∈ row :: (rows ++ ends), ∀ region ∈ Mode.code.regions raw,
      region.isKept = true := by
    simp only [List.forall_mem_cons, List.forall_mem_append]
    refine ⟨here, below, fun raw member => ?_⟩
    rw [nothing raw member]
    simp [Mode.regions]
  have codes := Line.code_readFrom kept 0 0
  rw [ofText_eq, Line.ofText_eq, (Line.readFrom_congr split 0 .nothing).1]
  rw [← Opened.nothing] at codes
  rw [Line.readFrom_cons] at codes ⊢
  generalize Line.readFrom (0 + 1) (Opened.nothing.next row) (rows ++ ends) = following at codes ⊢
  obtain ⟨code, codes⟩ := List.cons.inj codes
  rw [List.map_append] at codes
  obtain ⟨lines, closing, rfl, codes, closes⟩ := List.map_eq_append_iff.mp codes
  have void : ∀ other ∈ closing, other.code = [] := by
    intro other member
    have listed := closes ▸ List.mem_map_of_mem (f := Line.code) member
    obtain ⟨raw, among, same⟩ := List.mem_map.mp listed
    rw [← same, nothing raw among]
    rfl
  have joins := broken.joinDirective codes [] closing
  have hash := hash_of_row opening opens.directive begins
  rw [← code] at hash
  rw [List.nil_append, ← Line.trimEnd_withoutReturn, ← code] at joins
  have same : closing.map Line.code = (ends.map (Line.quiet 0)).map Line.code := by
    rw [closes, List.map_map]
    exact List.map_congr_left fun raw member => by rw [nothing raw member]; rfl
  rw [← joinDirective_congr same] at recognized
  have undocumented := Line.leadingDoc_ofRaw 0 0 (Line.kept_withoutReturn here)
  have rest : ∀ other ∈ (lines ++ closing).drop (lines.length +
      (joinDirective ([] ++ Text.trimEnd line) closing).1), other.code.allBlank = true := by
    intro other member
    rw [List.drop_length_add_append] at member
    rw [void other (List.mem_of_mem_drop member)]
    rfl
  rw [Progress.all_directive file skipStatic rfl hash joins recognized,
    Progress.all_of_blank file skipStatic rest, List.append_nil]
  simp only [Opened.nothing, undocumented]
  exact entries_eq_of_defined defined file skipStatic rfl

/--
Line breaks behind the name of a definition do not matter. A `#define` in which no comment opens is all that a
text holds, the line feed at its end aside. Blanks of it outside literals, before something that is no blank,
give way to a backslash and a line break. Then the same constant or the same macro is defined as on one line,
with the same span, and nothing else is.
-/
theorem ofText_continued [Alphabets] {breaks : Nat → Option Text} {final : Text} (single : '\n' ∉ line)
    (uncommented : ∀ region ∈ Mode.code.regions line, region.isKept = true)
    (opening : Token.ofLine line = first :: name :: tokens) (opens : Directive.Opens first name)
    (breakable : ∀ offset, ∀ ending ∈ breaks offset,
      IsLineEnd ending ∧ Breakable line name.stop offset)
    (ended : final = [] ∨ final = ['\n']) (file : SourceId) (skipStatic : Bool) :
    ∃ outline : Outline, outline.DefinesOnly name.text (.onLine 0 name.start name.text.length) ∧
      ofText file (line ++ final) skipStatic = outline ∧
      ofText file (continued breaks 0 line ++ final) skipStatic = outline := by
  obtain ⟨ends, blank, split⟩ : ∃ ends, (ends = [] ∨ ends = [[]]) ∧
      ∀ text, Text.split '\n' (text ++ final) = Text.split '\n' text ++ ends := by
    rcases ended with rfl | rfl
    · exact ⟨[], .inl rfl, by simp⟩
    · exact ⟨[[]], .inr rfl, fun text => Text.split_append_cons text []⟩
  obtain ⟨front, behind, other, joined⟩ := exists_joined line (ends.map (Line.quiet 0))
  obtain ⟨-, tokens', opening'⟩ := joined.opening_of_names opening opens
  obtain ⟨directive, recognized, defined⟩ := Directive.recognize?_of_opens opens opening'
  have read {text row : Text} {rows : List Text} (broken : Rows .code line text (row :: rows))
      (begins : line.take name.stop <+: row) :
      ofText file (text ++ final) skipStatic = ofDirective file directive := by
    refine ofText_rows broken opening opens begins blank ?_ recognized defined file skipStatic
    rw [split, List.map_append, broken.withoutReturn_split single, ← List.map_append, List.cons_append]
  obtain ⟨row, rows, broken, begins⟩ := @Rows.exists_of_continued .code line breaks 0 uncommented
    (fun index ending found => (breakable index ending found).1) fun index found => by
      obtain ⟨ending, found⟩ := Option.isSome_iff_exists.mp found
      rw [Nat.zero_add] at found
      obtain ⟨-, place⟩ := breakable index ending found
      exact ⟨place.blank, place.outside, place.more⟩
  refine ⟨_, definesOnly_ofDirective defined file, read (.last uncommented) (List.take_prefix _ _),
    read broken (begins name.stop fun index short => ?_)⟩
  rw [Nat.zero_add, Option.eq_none_iff_forall_not_mem]
  intro ending found
  exact absurd (breakable index ending found).2.behind (Nat.not_le_of_lt short)

open scoped Identifier.European

/-- A macro over three lines, with a blank in a literal and with both kinds of line ends. -/
theorem ofText_continued_macro :
    let line := "#define MAX(%1) (%1 > \"a b\" ? 1 : 2)".toList
    let broken := "#define MAX(%1)\\\r\n(%1 >\\\n\"a b\" ? 1 : 2)\n".toList
    let file : SourceId := ⟨"f.sma".toList⟩
    (ofText file broken false).DefinesOnly "MAX".toList (.onLine 0 8 3) ∧
      ofText file broken false = ofText file (line ++ ['\n']) false := by
  intro line broken file
  have opening : Token.ofLine line = ⟨.directive, "#define".toList, 0⟩ ::
      ⟨.identifier, "MAX".toList, 8⟩ :: (Token.ofLine line).drop 2 := by decide +kernel
  have uncommented : ∀ region ∈ Mode.code.regions line, region.isKept = true := by decide +kernel
  have breakable : ∀ offset, ∀ ending ∈ (fun offset : Nat => if offset = 15 then some ['\r', '\n']
      else if offset = 21 then some ['\n'] else none) offset,
      IsLineEnd ending ∧ Breakable line 11 offset := by
    intro offset ending found
    dsimp only at found
    split at found
    case isTrue same =>
      subst same
      obtain rfl := Option.some.inj found
      exact ⟨.inr rfl, rfl, by decide, by decide +kernel, '(', rfl, by decide⟩
    case isFalse =>
      split at found
      case isFalse => contradiction
      case isTrue same =>
        subst same
        obtain rfl := Option.some.inj found
        exact ⟨.inl rfl, rfl, by decide, by decide +kernel, '"', rfl, by decide⟩
  obtain ⟨outline, defines, same, same'⟩ := ofText_continued (by decide) uncommented opening
    ⟨rfl, by decide, rfl⟩ breakable (.inr rfl) file false
  have text : continued (fun offset : Nat => if offset = 15 then some ['\r', '\n']
      else if offset = 21 then some ['\n'] else none) 0 line ++ ['\n'] = broken := by decide
  rw [text] at same'
  exact ⟨same' ▸ defines, same'.trans same.symm⟩

end Outline

end PawnScope
