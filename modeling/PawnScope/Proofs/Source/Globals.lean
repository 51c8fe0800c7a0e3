import PawnScope.Identifier.European
import PawnScope.Proofs.Declaration.Globals
import PawnScope.Proofs.Source.Prototype
/-!
A printed declaration of variables is read back, with one variable for each declarator in the order of
the declarators: `Outline.ofText_print_globals`.
-/

namespace PawnScope

variable {globals : Globals} {spacing : Spacing} {text : Text}

/-- A text of one line in which no comment opens. -/
theorem Line.ofText_quiet [Alphabets] (still : Quiet text) (single : '\n' ∉ text)
    (unended : text.getLast? ≠ some '\r') : Line.ofText text = [Line.quiet 0 text] := by
  have written : Line.withoutReturn text = text := if_neg unended
  rw [Line.ofText_eq, Text.split_of_not_mem single, Line.readFrom_cons, written]
  exact congrArg (Prod.fst · :: []) (Line.ofRaw_quiet still 0)

theorem Declaration.hasOneOf_singleton (word : String) (specifiers : List Text) :
    Declaration.hasOneOf [word] specifiers = decide (word.toList ∈ specifiers) := by
  rw [Bool.eq_iff_iff]
  simp [Declaration.hasOneOf]

namespace Globals

/-- A printed declaration begins with a letter. -/
theorem Proper.print_cons [Alphabets] (proper : globals.Proper) (spacing : Spacing) :
    ∃ c rest, globals.print spacing = c :: rest ∧ Identifier.isTokenPart c = true := by
  obtain ⟨word, head, -⟩ := proper.begins
  obtain ⟨words, all⟩ := List.head?_eq_some_iff.mp head
  obtain ⟨c, rest, rfl, -, parts, -⟩ := (proper.isIdentifier word (by simp [all])).cons
  rw [print, all, printWords]
  exact ⟨c, _, rfl, parts c List.mem_cons_self⟩

/-- The variables that a printed declaration is read as. -/
theorem Proper.exists_entries [Alphabets] (proper : globals.Proper) (blank : spacing.Proper)
    (single : '\n' ∉ globals.print spacing) (still : Quiet (globals.print spacing))
    (file : SourceId) (skipStatic : Bool) :
    ∃ heads : List GlobalHead, heads.map GlobalHead.stated =
        globals.declarators.map (Declarator.stated globals.specifiers) ∧
      Progress.start.all file skipStatic (Line.ofText (globals.print spacing)) =
        ((heads.filter fun head => !(head.isStatic && skipStatic)).map
          (Site.global ⟨file, skipStatic, .quiet 0 (globals.print spacing), none⟩)).map
            Entry.global := by
  obtain ⟨heads, found, stated⟩ := proper.recognize blank single still true
  obtain ⟨c, rest, begins, part⟩ := proper.print_cons spacing
  have unended : (globals.print spacing).getLast? ≠ some '\r' := by
    rw [print, ← List.append_assoc, List.getLast?_concat]
    decide
  have joined : Outline.joinList (globals.print spacing) 0 [] = (0, some (.globals heads)) := by
    rw [Outline.joinList, found]
  refine ⟨heads, stated, ?_⟩
  rw [Line.ofText_quiet still single unended, Progress.all_word file skipStatic begins part joined,
    List.map_map]
  exact List.append_nil _

end Globals

namespace Outline

/-- Variables with different names are all listed. -/
theorem putAll_globals {symbols : List Global} (distinct : (symbols.map Global.key).Nodup) :
    empty.putAll (symbols.map Entry.global) = { empty with globals := symbols } := by
  have kept : symbols.foldl (keepFirst Global.key) [] = symbols :=
    foldl_of_distinct keepFirst_of_not_mem distinct
  have all : (symbols.map Entry.global).filterMap Entry.global? = symbols := by
    rw [List.filterMap_map]
    exact List.filterMap_some
  have inclusions : (symbols.map Entry.global).filterMap Entry.inclusion? = [] := by
    simp [List.filterMap_eq_nil_iff, Entry.inclusion?]
  have callables : (symbols.map Entry.global).filterMap Entry.callable? = [] := by
    simp [List.filterMap_eq_nil_iff, Entry.callable?]
  have constants : (symbols.map Entry.global).filterMap Entry.constant? = [] := by
    simp [List.filterMap_eq_nil_iff, Entry.constant?]
  rw [putAll_eq, all, inclusions, callables, constants]
  simp [empty, kept]

/--
No declarator is lost or invented: a declaration of variables that is printed on one line, and in which no
comment opens, is read back as these variables in their order, and as nothing else. A variable is constant
if the specifiers or its declarator say so, and static if the specifiers do.
-/
theorem ofText_print_globals [Alphabets] (proper : globals.Proper) (blank : spacing.Proper)
    (single : '\n' ∉ globals.print spacing)
    (uncommented : ∀ region ∈ Mode.code.regions (globals.print spacing), region.isKept = true)
    (file : SourceId) (skipStatic : Bool) :
    let found := ofText file (globals.print spacing) skipStatic
    found.inclusions = [] ∧ found.callables = [] ∧ found.constants = [] ∧
      found.globals.map (fun global => (global.name, global.isConst, global.isStatic)) =
        if skipStatic ∧ "static".toList ∈ globals.specifiers then []
        else globals.declarators.map fun declarator =>
          (declarator.name, declarator.isConst || decide ("const".toList ∈ globals.specifiers),
            decide ("static".toList ∈ globals.specifiers)) := by
  obtain ⟨heads, stated, entries⟩ := proper.exists_entries blank single
    (proper.quiet blank uncommented) file skipStatic
  have keys : (heads.map fun head => Identifier.key head.name).Nodup := by
    have same := congrArg (List.map fun triple => Identifier.key triple.1) stated
    rw [List.map_map, List.map_map] at same
    exact same ▸ proper.distinct
  have distinct : (((heads.filter fun head => !(head.isStatic && skipStatic)).map (Site.global
      ⟨file, skipStatic, .quiet 0 (globals.print spacing), none⟩)).map Global.key).Nodup := by
    rw [List.map_map]
    exact keys.sublist (List.filter_sublist.map _)
  have static : ∀ head ∈ heads, head.isStatic = decide ("static".toList ∈ globals.specifiers) := by
    intro head member
    have listed := stated ▸ List.mem_map_of_mem (f := GlobalHead.stated) member
    obtain ⟨declarator, -, same⟩ := List.mem_map.mp listed
    rw [← Declaration.hasOneOf_singleton]
    exact (congrArg (fun triple => triple.2.2) same).symm
  have shown : (heads.filter fun head => !(head.isStatic && skipStatic)) =
      if skipStatic ∧ "static".toList ∈ globals.specifiers then [] else heads := by
    split
    case isTrue skipped =>
      refine List.filter_eq_nil_iff.mpr fun head member => ?_
      simp only [static head member, skipped, decide_true, Bool.and_self, Bool.not_true,
        Bool.false_eq_true, not_false_eq_true]
    case isFalse kept =>
      refine List.filter_eq_self.mpr fun head member => ?_
      rw [static head member, Bool.not_eq_true', Bool.and_eq_false_iff, decide_eq_false_iff_not,
        Bool.eq_false_iff, or_comm]
      exact not_and_or.mp kept
  rw [ofText_eq, entries, putAll_globals distinct, shown]
  refine ⟨rfl, rfl, rfl, ?_⟩
  split
  · rfl
  · simp only [← Declaration.hasOneOf_singleton]
    exact (List.map_map ..).trans stated

/-- Commas, braces, a call and literals in dimensions and initializers. -/
def crowded : Globals where
  specifiers := ["static", "stock"].map String.toList
  declarators :=
    [⟨false, some "Float".toList, "grid".toList, ["2", "size(1, 2)"].map String.toList,
        some " \x7b\x7b1.0, f(2, 3)\x7d, \x7b4.0, 5.0\x7d\x7d".toList⟩,
      ⟨true, none, "text".toList, [[]], some "\"a,;)//\"".toList⟩,
      ⟨false, none, "mark".toList, [], some "-';'".toList⟩,
      ⟨true, some "bool".toList, "last".toList, [], none⟩]

open scoped Identifier.European

theorem ofText_print_globals_crowded :
    let spacing : Spacing := ⟨[' '], [' ']⟩
    crowded.Proper ∧ spacing.Proper ∧ '\n' ∉ crowded.print spacing ∧
      (∀ region ∈ Mode.code.regions (crowded.print spacing), region.isKept = true) ∧
      crowded.print spacing = ("static stock Float:grid[2][size(1, 2)] = ".toList ++
        "\x7b\x7b1.0, f(2, 3)\x7d, \x7b4.0, 5.0\x7d\x7d, const text[] =\"a,;)//\", ".toList ++
        "mark =-';', const bool:last;".toList) ∧
      (ofText ⟨"f.sma".toList⟩ (crowded.print spacing) false).callables = [] ∧
      (ofText ⟨"f.sma".toList⟩ (crowded.print spacing) false).globals.map
          (fun global => (global.name, global.isConst, global.isStatic)) =
        [("grid".toList, false, true), ("text".toList, true, true), ("mark".toList, false, true),
          ("last".toList, true, true)] := by
  have proper : crowded.Proper := by decide +kernel
  have blank : Spacing.Proper ⟨[' '], [' ']⟩ := by decide
  have single : '\n' ∉ crowded.print ⟨[' '], [' ']⟩ := by decide
  have uncommented : ∀ region ∈ Mode.code.regions (crowded.print ⟨[' '], [' ']⟩),
      region.isKept = true := by decide +kernel
  obtain ⟨-, callables, -, globals⟩ :=
    ofText_print_globals proper blank single uncommented ⟨"f.sma".toList⟩ false
  exact ⟨proper, blank, single, uncommented, by decide, callables, globals.trans (by decide)⟩

end Outline

end PawnScope
