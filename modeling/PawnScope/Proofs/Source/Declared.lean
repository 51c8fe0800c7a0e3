import PawnScope.Identifier.European
import PawnScope.Proofs.Scope.Merge
import PawnScope.Proofs.Source.Statics
import PawnScope.Proofs.Symbol.Selection
/-!
What of the declarations in a text its outline lists. Skipping static declarations is no choice among
the entries of an outline: it takes them out of what the outline is made of, and a name may then stand
for another of its declarations. Main results:

* `Outline.ofText_lists`: an outline has one entry for each name, and the scope of a file that
  includes nothing has these entries.
* `Outline.ofText_agrees`: with static declarations skipped or not, the outlines of a text agree on
  all that is not static.
-/

namespace PawnScope

/-! ## What is declared -/

namespace Entry

/-- The entry of a symbol that is visible only in its own file. -/
def isStatic : Entry → Bool
  | callable found => found.isStatic
  | global found => found.isStatic
  | _ => false

end Entry

namespace Outline

/-- All that a text declares, in the order of its declarations. -/
def declared [Alphabets] (file : SourceId) (text : Text) : List Entry :=
  Progress.start.all file false (Line.ofText text)

/-- Of what is declared the entries that count: static ones do not if they are skipped. -/
def shown (skipStatic : Bool) (entries : List Entry) : List Entry :=
  entries.filter fun entry => !(entry.isStatic && skipStatic)

theorem shown_false (entries : List Entry) : shown false entries = entries := by
  simp [shown]

theorem shown_append (skipStatic : Bool) (entries more : List Entry) :
    shown skipStatic (entries ++ more) = shown skipStatic entries ++ shown skipStatic more :=
  List.filter_append ..

end Outline

open Outline (declared shown)

theorem Statement.entries_shown (file : SourceId) (skipStatic : Bool) (line : Line)
    (doc : Option Text) (statement : Statement) :
    statement.entries ⟨file, skipStatic, line, doc⟩ =
      shown skipStatic (statement.entries ⟨file, false, line, doc⟩) := by
  match statement with
  | .nothing => rfl
  | .directive (.inclusion ..) => rfl
  | .directive (.template ..) => rfl
  | .directive (.constant ..) => rfl
  | .declaration (.function head) =>
    have same : Entry.isStatic (.callable (Site.callable ⟨file, false, line, doc⟩ head)) =
        head.isStatic := rfl
    rw [entries, entries, Bool.and_false, if_neg Bool.false_ne_true, shown, List.filter_singleton,
      same]
    cases head.isStatic && skipStatic <;> rfl
  | .declaration (.globals heads) =>
    rw [entries, entries, shown, List.filter_map, List.filter_filter]
    refine congrArg _ (List.filter_congr fun head _ => ?_)
    simp [Entry.isStatic, Site.global]

namespace Progress

/-- Which lines belong together does not depend on what counts, so each statement can be judged alone. -/
theorem all_shown [Alphabets] (file : SourceId) (skipStatic : Bool) (progress : Progress)
    (lines : List Line) :
    progress.all file skipStatic lines = shown skipStatic (progress.all file false lines) := by
  induction lines generalizing progress with
  | nil => rfl
  | cons line rest ih =>
    rw [all, all, Outline.shown_append, ih, entries, entries]
    split
    · rfl
    · rw [Statement.entries_shown]

end Progress

namespace Outline

variable {callable : Callable} {global : Global}

theorem ofText_eq_shown [Alphabets] (file : SourceId) (text : Text) (skipStatic : Bool) :
    ofText file text skipStatic = empty.putAll (shown skipStatic (declared file text)) := by
  rw [ofText_eq, Progress.all_shown, declared]

/-! ## One entry for each name -/

theorem visited_of_no_dependencies {records : RecordTable} {self : Option Handle}
    {record : FileRecord} (alone : record.dependencies = []) :
    Scope.visited records self record = [] := by
  refine List.eq_nil_iff_forall_not_mem.mpr fun handle member => ?_
  induction Scope.mem_visited_iff.mp member with
  | direct edge _ => simp [alone] at edge
  | further led _ _ _ ih => exact ih (Scope.mem_visited_iff.mpr led)

/-- The scope of a file that includes nothing has the entries of its outline as they are. -/
theorem ofRecord_of_no_dependencies (records : RecordTable) (self : Option Handle)
    {record : FileRecord} (alone : record.dependencies = [])
    (distinct : DistinctKeys record.callables) :
    Scope.ofRecord records self record = ⟨record.callables, record.globals, record.constants⟩ := by
  rw [Scope.ofRecord_eq, visited_of_no_dependencies alone]
  show Scope.own record = _
  rw [← Scope.own_callables distinct]
  rfl

/--
An outline has one entry for each name that a text declares, static declarations aside if they are
skipped: of the callables the last prototype or else the last one, of the variables and of the
constants the first one, in the order of their first declarations. The scope of a file that includes
nothing has just these entries.
-/
theorem ofText_lists [Alphabets] (file : SourceId) (text : Text) (skipStatic : Bool) :
    Lists (shown skipStatic (declared file text)) (ofText file text skipStatic) ∧
      ∀ (records : RecordTable) (self : Option Handle) (inclusions : List FoundInclusion),
        Scope.ofRecord records self (.ofOutline file (ofText file text skipStatic) inclusions) =
          ⟨(ofText file text skipStatic).callables, (ofText file text skipStatic).globals,
            (ofText file text skipStatic).constants⟩ := by
  have lists : Lists (shown skipStatic (declared file text)) (ofText file text skipStatic) := by
    rw [ofText_eq_shown]
    exact putAll_lists _
  exact ⟨lists, fun records self inclusions =>
    ofRecord_of_no_dependencies records self rfl lists.callables.distinct⟩

open scoped Identifier.European

/-- A static declaration that is skipped does not keep a place for the later ones of its name. -/
theorem ofText_not_lists_declared :
    ¬ ∀ (file : SourceId) (text : Text) (skipStatic : Bool),
      Lists (declared file text) (ofText file text skipStatic) := by
  intro claimed
  have ordered := (claimed ⟨"/srv/plugins/test.sma".toList⟩
    "static b() {}\nstock a() {}\nstock b() {}".toList true).callables.ordered
  exact absurd ordered (by decide +kernel)

/-! ## Static declarations skipped or not -/

theorem filterMap_shown {α : Type} {select : Entry → Option α} {isStatic : α → Bool}
    (same : ∀ entry symbol, select entry = some symbol → isStatic symbol = entry.isStatic)
    (skipStatic : Bool) (entries : List Entry) :
    (shown skipStatic entries).filterMap select =
      (entries.filterMap select).filter fun symbol => !(isStatic symbol && skipStatic) := by
  induction entries with
  | nil => rfl
  | cons entry rest ih =>
    rw [shown] at ih ⊢
    cases chosen : select entry with
    | none =>
      rw [List.filter_cons, List.filterMap_cons_none chosen, ← ih]
      split
      · rw [List.filterMap_cons_none chosen]
      · rfl
    | some symbol =>
      rw [List.filter_cons, List.filterMap_cons_some chosen, List.filter_cons,
        same entry symbol chosen, ← ih]
      split
      · rw [List.filterMap_cons_some chosen]
      · rfl

theorem callables_shown (skipStatic : Bool) (entries : List Entry) :
    (shown skipStatic entries).filterMap Entry.callable? =
      (entries.filterMap Entry.callable?).filter fun callable =>
        !(callable.isStatic && skipStatic) :=
  filterMap_shown (fun entry _ found => by cases entry <;> cases found; rfl) skipStatic entries

theorem globals_shown (skipStatic : Bool) (entries : List Entry) :
    (shown skipStatic entries).filterMap Entry.global? =
      (entries.filterMap Entry.global?).filter fun global => !(global.isStatic && skipStatic) :=
  filterMap_shown (fun entry _ found => by cases entry <;> cases found; rfl) skipStatic entries

theorem constants_shown (skipStatic : Bool) (entries : List Entry) :
    (shown skipStatic entries).filterMap Entry.constant? = entries.filterMap Entry.constant? := by
  have none : ∀ entry constant, Entry.constant? entry = some constant → false = entry.isStatic :=
    fun entry _ found => by cases entry <;> cases found; rfl
  rw [filterMap_shown none]
  simp

/-- The outlines of a text with all its declarations and without static ones agree on the others. -/
structure AgreeOutsideStatics (whole skipped : Outline) : Prop where
  inclusions : skipped.inclusions = whole.inclusions
  constants : skipped.constants = whole.constants
  public_callables : ∀ callable ∈ skipped.callables, callable.isStatic = false
  public_globals : ∀ global ∈ skipped.globals, global.isStatic = false
  callables : ∀ callable ∈ whole.callables, callable.isStatic = false → callable ∈ skipped.callables
  globals : ∀ global ∈ whole.globals, global.isStatic = false → global ∈ skipped.globals
  callable_keys : skipped.callables.map Callable.key ⊆ whole.callables.map Callable.key
  global_keys : skipped.globals.map Global.key ⊆ whole.globals.map Global.key

theorem ofText_agrees [Alphabets] (file : SourceId) (text : Text) :
    AgreeOutsideStatics (ofText file text false) (ofText file text true) := by
  obtain ⟨whole, -⟩ := ofText_lists file text false
  obtain ⟨skipped, -⟩ := ofText_lists file text true
  rw [shown_false] at whole
  refine ⟨inclusions_ofText file text true false, ?_, fun _ member => (of_callable_mem member).2 rfl,
    fun _ member => (of_global_mem member).2 rfl, fun callable member isPublic => ?_,
    fun global member isPublic => ?_, fun key member => ?_, fun key member => ?_⟩
  · rw [ofText_eq_shown, ofText_eq_shown, putAll_eq, putAll_eq, constants_shown, constants_shown]
  · -- What is chosen of all callables with a key is chosen of any of them that it is among.
    rw [skipped.callables.mem_iff, callables_shown]
    exact latest?_filter (whole.callables.mem_iff.mp member) (by simp [isPublic])
  · rw [skipped.globals.mem_iff, globals_shown]
    exact find?_filter_of_find? (whole.globals.mem_iff.mp member) (by simp [isPublic])
  · rw [skipped.callables.mem_keys_iff, callables_shown] at member
    exact whole.callables.mem_keys_iff.mpr (List.filter_sublist.map _ |>.subset member)
  · rw [skipped.globals.mem_keys_iff, globals_shown] at member
    exact whole.globals.mem_keys_iff.mpr (List.filter_sublist.map _ |>.subset member)

-- With the last `f` skipped its name stands for the first one, which nothing listed before.
example :
    let text := "stock f(a) {}\nstatic f() {}\nnew x;".toList
    (ofText ⟨[]⟩ text false).callables.map Callable.label = ["static f()".toList] ∧
      (ofText ⟨[]⟩ text true).callables.map Callable.label = ["stock f(a)".toList] := by
  decide +kernel

end Outline

end PawnScope
