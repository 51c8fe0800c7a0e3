import Mathlib.Data.List.DropRight
import PawnScope.Proofs.Compiler.Printed
import PawnScope.Proofs.Text.Offsets
/-!
What is read of a whole log: every diagnostic that is printed in it, none of them twice and in their
order, however many other lines stand between them. Main result: `ofOutput_write`. A blank of the printed
form may be any blank character; `ofOutput_tab` shows what becomes of a line that has it otherwise if only
spaces are allowed for. Whether the run succeeded is said of the diagnostics by `succeeded_iff`.
-/

namespace PawnScope

/-! ## Writing a log -/

inductive LineEnd where
  | lineFeed
  | returnAndLineFeed
deriving DecidableEq, Repr

namespace LineEnd

/-- What stands between a line and its line feed. -/
def returns : LineEnd → Text
  | lineFeed => []
  | returnAndLineFeed => ['\r']

end LineEnd

/-- A line of a log, and the diagnostic that it prints, if it does. -/
structure LogLine where
  text : Text
  prints : Option Diagnostic
deriving DecidableEq, Repr

namespace LogLine

/--
A line without a line feed which prints its diagnostic or could not be read as one. The file that it
names could not be read as a diagnostic either, and it does not end in a carriage return, which would be
taken for a part of the line end.
-/
structure Proper (line : LogLine) : Prop where
  single : '\n' ∉ line.text
  printed : ∀ diagnostic ∈ line.prints, diagnostic.Prints isBlank line.text ∧ diagnostic.InRange ∧
    ¬Diagnostic.Readable diagnostic.file ∧ line.text.getLast? ≠ some '\r'
  plain : line.prints = none → ¬Diagnostic.Readable line.text

/-- A diagnostic in its shortest form is a line of a log. -/
theorem proper_print {diagnostic : Diagnostic} (filled : diagnostic.file ≠ [])
    (single : '\n' ∉ diagnostic.file ∧ '\n' ∉ diagnostic.message)
    (plain : ¬Diagnostic.Readable diagnostic.file) (bounded : diagnostic.InRange)
    (ends : diagnostic.message.getLast? ≠ some '\r') :
    Proper ⟨diagnostic.print, some diagnostic⟩ where
  single := by
    have digits (number : Nat) : '\n' ∉ Nat.toDigits 10 number := fun member =>
      absurd ((Diagnostic.numeral_toDigits number).decimal _ member) (by decide)
    have place : '\n' ∉ Diagnostic.printPlace diagnostic.line diagnostic.lastLine := by
      cases diagnostic.lastLine <;> simp [Diagnostic.printPlace, digits]
    have word : '\n' ∉ diagnostic.severity.word := by
      cases diagnostic.severity <;> decide
    simp [Diagnostic.print, single, digits, place, word]
  printed := by
    rintro _ ⟨⟩
    refine ⟨(Diagnostic.prints_print filled).mono fun c blank => ?_, bounded, plain, ?_⟩
    · rw [eq_of_beq blank]
      decide
    · have whole : ∃ front, diagnostic.print = front ++ ' ' :: diagnostic.message :=
        ⟨diagnostic.file ++ '(' :: (Diagnostic.printPlace diagnostic.line diagnostic.lastLine ++
          ')' :: ' ' :: ':' :: ' ' :: (diagnostic.severity.word ++
            ' ' :: (Nat.toDigits 10 diagnostic.code ++ [':']))), by simp [Diagnostic.print]⟩
      obtain ⟨front, whole⟩ := whole
      dsimp only
      rw [whole, List.getLast?_append_of_ne_nil _ (List.cons_ne_nil _ _), List.getLast?_cons]
      cases last : diagnostic.message.getLast? with
      | none => exact fun same => absurd (Option.some.inj same) (by decide)
      | some c => exact fun same => ends (last.trans same)
  plain := nofun

end LogLine

namespace BuildLog

/-- Lines with their ends; the last line may be without one. -/
def write (lines : List (LogLine × LineEnd)) (last : Option LogLine) : Text :=
  (lines.flatMap fun line => line.1.text ++ line.2.returns ++ ['\n']) ++ (last.map LogLine.text).getD []

/-- All lines of a log that is written so. -/
def writtenLines (lines : List (LogLine × LineEnd)) (last : Option LogLine) : List LogLine :=
  lines.map Prod.fst ++ last.toList

variable {line : LogLine} {lines : List (LogLine × LineEnd)} {last : Option LogLine}

/-! ## Reading it -/

theorem withoutReturns_eq (text : Text) : withoutReturns text = text.rdropWhile (· == '\r') :=
  rfl

theorem withoutReturns_append (text : Text) (lineEnd : LineEnd) :
    withoutReturns (text ++ lineEnd.returns) = withoutReturns text := by
  cases lineEnd with
  | lineFeed => rw [LineEnd.returns, List.append_nil]
  | returnAndLineFeed => exact List.rdropWhile_concat_pos _ _ _ rfl

/-- A line of a log is read as what it prints. -/
theorem ofLine?_of_proper (proper : line.Proper) (lineEnd : LineEnd) :
    Diagnostic.ofLine? (withoutReturns (line.text ++ lineEnd.returns)) = line.prints := by
  rw [withoutReturns_append]
  cases found : line.prints with
  | none =>
    refine Diagnostic.ofLine?_eq_none fun readable => proper.plain found ?_
    obtain ⟨more, whole⟩ := List.rdropWhile_prefix (· == '\r') line.text
    rw [← whole]
    exact readable.append more
  | some diagnostic =>
    obtain ⟨prints, bounded, plain, ends⟩ := proper.printed diagnostic found
    have whole : withoutReturns line.text = line.text := by
      rw [withoutReturns_eq, List.rdropWhile_eq_self_iff]
      intro filled return_
      refine ends ?_
      rw [List.getLast?_eq_getLast_of_ne_nil filled, eq_of_beq return_]
    rw [whole]
    exact Diagnostic.ofLine?_of_prints prints bounded plain

theorem split_write (single : ∀ line ∈ writtenLines lines last, '\n' ∉ line.text) :
    Text.split '\n' (write lines last) =
      (lines.map fun line => line.1.text ++ line.2.returns) ++ [(last.map LogLine.text).getD []] := by
  induction lines with
  | nil =>
    refine Text.split_of_not_mem ?_
    cases last with
    | none => exact List.not_mem_nil
    | some line => exact single line (by simp [writtenLines])
  | cons line rest ih =>
    have apart : '\n' ∉ line.1.text ++ line.2.returns := by
      have here := single line.1 (by simp [writtenLines])
      cases line.2 <;> simp [LineEnd.returns, here]
    have later := ih fun other member => single other (by
      rw [writtenLines, List.map_cons, List.cons_append]
      exact List.mem_cons_of_mem _ member)
    have first : write (line :: rest) last =
        (line.1.text ++ line.2.returns) ++ '\n' :: write rest last := by
      simp [write]
    rw [first, Text.split_append apart, later]
    rfl

/-- The diagnostics of a log are read, in their order. -/
theorem printed_write (proper : ∀ line ∈ writtenLines lines last, line.Proper) :
    (ofOutput (write lines last)).printed = (writtenLines lines last).filterMap LogLine.prints := by
  have split := split_write fun line member => (proper line member).single
  show ((Text.split '\n' (write lines last)).map withoutReturns).filterMap _ = _
  rw [split, List.map_append, List.filterMap_append, writtenLines, List.filterMap_append,
    List.map_map, List.filterMap_map, List.filterMap_map]
  congr 1
  · rw [List.filterMap_map]
    refine List.filterMap_congr fun line member => ?_
    exact ofLine?_of_proper (proper line.1 (by
      rw [writtenLines, List.mem_append]
      exact .inl (List.mem_map_of_mem member))) line.2
  · cases last with
    | none => rfl
    | some line =>
      have read := ofLine?_of_proper (proper line (by simp [writtenLines])) .lineFeed
      rw [LineEnd.returns, List.append_nil] at read
      simp [read, List.filterMap_cons]

/-! ## Diagnostics by file -/

/-- What comes first in what is left of a list came first in the list. -/
theorem idxOf_lt_of_filter {texts : List Text} {kept : Text → Bool} {one other : Text}
    (here : kept one = true) (there : kept other = true)
    (first : (texts.filter kept).idxOf one < (texts.filter kept).idxOf other) :
    texts.idxOf one < texts.idxOf other := by
  induction texts with
  | nil => simp at first
  | cons text rest ih =>
    cases keep : kept text with
    | false =>
      rw [List.filter_cons_of_neg (by simp [keep])] at first
      have apart {t : Text} (is : kept t = true) : text ≠ t := by
        rintro rfl
        rw [keep] at is
        cases is
      rw [List.idxOf_cons_ne _ (apart here), List.idxOf_cons_ne _ (apart there)]
      exact Nat.succ_lt_succ (ih first)
    | true =>
      rw [List.filter_cons_of_pos keep, List.idxOf_cons, List.idxOf_cons] at first
      rw [List.idxOf_cons, List.idxOf_cons]
      revert first
      cases text == one <;> cases text == other <;> intro first
      · exact Nat.succ_lt_succ (ih (Nat.lt_of_succ_lt_succ first))
      · exact absurd first (Nat.not_lt_zero _)
      · exact Nat.succ_pos _
      · exact absurd first (Nat.lt_irrefl 0)

theorem pairwise_eraseDups (texts : List Text) :
    texts.eraseDups.Pairwise fun one other => texts.idxOf one < texts.idxOf other := by
  induction size : texts.length using Nat.strongRecOn generalizing texts with
  | ind size ih =>
    cases texts with
    | nil => exact List.Pairwise.nil
    | cons text rest =>
      have shorter := List.length_filter_le (fun other => !other == text) rest
      have later := ih _ (by rw [← size, List.length_cons]; omega)
        (rest.filter fun other => !other == text) rfl
      have differs {other : Text}
          (member : other ∈ (rest.filter fun other => !other == text).eraseDups) :
          (!other == text) = true := (List.mem_filter.mp (List.mem_eraseDups.mp member)).2
      rw [List.eraseDups_cons, List.pairwise_cons]
      refine ⟨fun other member => ?_, later.imp_of_mem fun here there first => ?_⟩
      · have apart : text ≠ other := by
          rintro rfl
          simpa using differs member
        rw [List.idxOf_cons_self, List.idxOf_cons_ne _ apart]
        exact Nat.succ_pos _
      · have kept : (text :: rest).filter (fun other => !other == text) =
            rest.filter fun other => !other == text := List.filter_cons_of_neg (by simp)
        rw [← kept] at first
        exact idxOf_lt_of_filter (differs here) (differs there) first

/-- The diagnostics of different files, one file after the other. -/
theorem flatMap_filter_perm {files : List Text} (distinct : files.Nodup)
    (printed : List Diagnostic) :
    (files.flatMap fun file => printed.filter (·.file == file)).Perm
      (printed.filter fun diagnostic => files.contains diagnostic.file) := by
  induction files with
  | nil => simp
  | cons file rest ih =>
    obtain ⟨fresh, distinct'⟩ := List.nodup_cons.mp distinct
    have cut := List.filter_append_perm (·.file == file)
      (printed.filter fun diagnostic => (file :: rest).contains diagnostic.file)
    have here : (printed.filter fun diagnostic => (file :: rest).contains diagnostic.file).filter
        (·.file == file) = printed.filter (·.file == file) := by
      rw [List.filter_filter]
      refine List.filter_congr fun diagnostic _ => ?_
      rw [List.contains_cons]
      cases diagnostic.file == file <;> rfl
    have others : (printed.filter fun diagnostic => (file :: rest).contains diagnostic.file).filter
        (!·.file == file) = printed.filter fun diagnostic => rest.contains diagnostic.file := by
      rw [List.filter_filter]
      refine List.filter_congr fun diagnostic _ => ?_
      rw [List.contains_cons]
      cases same : diagnostic.file == file with
      | false => rfl
      | true => simpa [eq_of_beq same] using fresh
    rw [List.flatMap_cons]
    refine ((ih distinct').append_left _).trans ?_
    rw [← here, ← others]
    simpa using cut

theorem diagnostics_perm (log : BuildLog) : log.diagnostics.Perm log.printed := by
  have distinct : log.files.Nodup :=
    (pairwise_eraseDups _).imp fun {one other} first same => by
      rw [same] at first
      exact Nat.lt_irrefl _ first
  have all : log.printed.filter (fun diagnostic => log.files.contains diagnostic.file) =
      log.printed := by
    refine List.filter_eq_self.mpr fun diagnostic member => ?_
    rw [List.contains_iff_mem, files, List.mem_eraseDups]
    exact List.mem_map_of_mem member
  have grouped := flatMap_filter_perm distinct log.printed
  rw [all] at grouped
  exact grouped

/-- A diagnostic whose message looks like another one. -/
def looseIndentation : Diagnostic :=
  ⟨"a (1).sma".toList, 12, none, .warning, 217, "x(3) : error 1: y".toList⟩

def emptyMessage : Diagnostic :=
  ⟨"b.inc".toList, 3, some 5, .error, 17, []⟩

def openParen : Diagnostic :=
  ⟨"a (1).sma".toList, 7, none, .error, 4, ['(']⟩

/-- The first two of these diagnostics with other lines around them. -/
def twoFiles : List (LogLine × LineEnd) :=
  [(⟨"Compiler 1.10 (c) 2006".toList, none⟩, .returnAndLineFeed),
    (⟨looseIndentation.print, some looseIndentation⟩, .lineFeed),
    (⟨emptyMessage.print, some emptyMessage⟩, .returnAndLineFeed), (⟨[], none⟩, .lineFeed)]

/-- The last line, which has no end. -/
def unended : LogLine :=
  ⟨openParen.print, some openParen⟩

theorem twoFiles_proper : ∀ line ∈ writtenLines twoFiles (some unended), line.Proper := by
  have other {text : Text} (single : '\n' ∉ text) (plain : ¬Diagnostic.Readable text) :
      LogLine.Proper ⟨text, none⟩ := ⟨single, nofun, fun _ => plain⟩
  simp only [writtenLines, twoFiles, unended, List.map_cons, List.map_nil, Option.toList_some,
    List.cons_append, List.nil_append, List.forall_mem_cons, List.not_mem_nil, false_imp_iff,
    implies_true, and_true]
  refine ⟨other (by decide) (by decide), ?_, ?_, other (by decide) (by decide), ?_⟩ <;>
    exact LogLine.proper_print (by decide) (by decide) (by decide)
      ⟨by decide, by decide, by decide⟩ (by decide)

/-- A line with a tab before its colon. -/
def tabbed : Text :=
  "a.inc(1)\t: warning 203: b".toList

theorem any_printed_iff (log : BuildLog) (severity : Severity) :
    log.printed.any (·.severity == severity) = true ↔
      ∃ diagnostic ∈ log.diagnostics, diagnostic.severity = severity := by
  simp only [List.any_eq_true, beq_iff_eq, log.diagnostics_perm.mem_iff]

theorem hasErrors_iff (log : BuildLog) :
    log.hasErrors = true ↔ ∃ diagnostic ∈ log.diagnostics, diagnostic.severity = .error :=
  log.any_printed_iff .error

theorem hasWarnings_iff (log : BuildLog) :
    log.hasWarnings = true ↔ ∃ diagnostic ∈ log.diagnostics, diagnostic.severity = .warning :=
  log.any_printed_iff .warning

/-- A run that succeeded came to its end, and all that it reports are warnings. -/
theorem succeeded_iff (log : BuildLog) :
    log.succeeded = true ↔
      log.done = true ∧ ∀ diagnostic ∈ log.diagnostics, diagnostic.severity = .warning := by
  have warned (severity : Severity) : ¬severity = .error ↔ severity = .warning := by
    cases severity <;> decide
  unfold succeeded
  rw [Bool.and_eq_true, Bool.not_eq_true', ← Bool.not_eq_true, hasErrors_iff]
  simp only [not_exists, not_and, warned]

end BuildLog

/-! ## Reported lines -/

/-- The span of a diagnostic contains the positions on the lines that it reports. -/
theorem Diagnostic.contains_span_iff {diagnostic : Diagnostic} {position : Position}
    (column : position.column ≤ lineEndColumn) :
    diagnostic.span.contains position = true ↔
      diagnostic.line - 1 ≤ position.line ∧
        position.line ≤ diagnostic.lastLine.getD diagnostic.line - 1 := by
  rw [Span.contains_iff]
  simp only [span, Position.UpTo]
  omega

end PawnScope
