import PawnScope.Proofs.Source.Names
/-!
What skipping static declarations does to an outline: nothing static is left of it, and the include
directives are the same. Main results: `Outline.of_callable_mem` and `Outline.of_global_mem`, that
every symbol belongs to the file of the outline, and `Outline.inclusions_ofText`.
-/

namespace PawnScope

/-! ## Entries of a statement -/

namespace Entry

/-- The entry of a symbol of a file, and not of a static one if these are skipped. -/
def BelongsTo (file : SourceId) (skipStatic : Bool) : Entry → Prop
  | inclusion _ => True
  | callable found => found.file = file ∧ (skipStatic = true → found.isStatic = false)
  | global found => found.file = file ∧ (skipStatic = true → found.isStatic = false)
  | constant found => found.file = file

end Entry

namespace Statement

theorem entries_belong {site : Site} {statement : Statement} {entry : Entry}
    (member : entry ∈ statement.entries site) : entry.BelongsTo site.file site.skipStatic := by
  cases mem_entries_iff.mp member with
  | inclusion => trivial
  | template => exact ⟨rfl, fun _ => rfl⟩
  | constant => rfl
  | function shown => exact ⟨rfl, fun skipped => by simpa [skipped, Site.callable] using shown⟩
  | global _ shown => exact ⟨rfl, fun skipped => by simpa [skipped, Site.global] using shown⟩

/-- A declaration includes nothing. -/
theorem inclusions_declaration (declared : Declaration) (site : Site) :
    ((declaration declared).entries site).filterMap Entry.inclusion? = [] := by
  rw [List.filterMap_eq_nil_iff]
  intro entry member
  cases mem_entries_iff.mp member with
  | function | global => rfl

/-- Only its line matters to the include directive that a statement is. -/
theorem inclusions_entries (statement : Statement) {site site' : Site}
    (same : site.line = site'.line) :
    (statement.entries site).filterMap Entry.inclusion? =
      (statement.entries site').filterMap Entry.inclusion? := by
  match statement with
  | nothing => rfl
  | directive (.inclusion ..) => simp [entries, same, Entry.inclusion?]
  | directive (.template ..) => rfl
  | directive (.constant ..) => rfl
  | declaration declared => rw [inclusions_declaration, inclusions_declaration]

end Statement

theorem Progress.inclusions_all [Alphabets] (file : SourceId) (skipStatic skipStatic' : Bool)
    (progress : Progress) (lines : List Line) :
    (progress.all file skipStatic lines).filterMap Entry.inclusion? =
      (progress.all file skipStatic' lines).filterMap Entry.inclusion? := by
  induction lines generalizing progress with
  | nil => rfl
  | cons line rest ih =>
    rw [all, all, List.filterMap_append, List.filterMap_append, ih, Progress.entries,
      Progress.entries]
    split
    · rfl
    · exact congrArg (· ++ _) (Statement.inclusions_entries _ rfl)

/-! ## Outlines -/

namespace Outline

variable {file : SourceId} {text : Text} {skipStatic : Bool}

theorem entries_belong [Alphabets] {entry : Entry}
    (member : entry ∈ Progress.start.all file skipStatic (Line.ofText text)) :
    entry.BelongsTo file skipStatic := by
  obtain ⟨line, _, following, doc, stated⟩ := Progress.mem_all member
  exact Statement.entries_belong stated

/-- A callable belongs to the file of the outline, and is not static if these are skipped. -/
theorem of_callable_mem [Alphabets] {callable : Callable}
    (member : callable ∈ (ofText file text skipStatic).callables) :
    callable.file = file ∧ (skipStatic = true → callable.isStatic = false) := by
  rw [ofText_eq] at member
  exact entries_belong (callable_mem_of_putAll member)

/-- A variable belongs to the file of the outline, and is not static if these are skipped. -/
theorem of_global_mem [Alphabets] {global : Global}
    (member : global ∈ (ofText file text skipStatic).globals) :
    global.file = file ∧ (skipStatic = true → global.isStatic = false) := by
  rw [ofText_eq] at member
  exact entries_belong (global_mem_of_putAll member)

/-- A constant belongs to the file of the outline. -/
theorem of_constant_mem [Alphabets] {constant : Constant}
    (member : constant ∈ (ofText file text skipStatic).constants) : constant.file = file := by
  rw [ofText_eq] at member
  exact entries_belong (constant_mem_of_putAll member)

theorem inclusions_ofText [Alphabets] (file : SourceId) (text : Text) (skipStatic skipStatic' : Bool) :
    (ofText file text skipStatic).inclusions = (ofText file text skipStatic').inclusions := by
  rw [ofText_eq, ofText_eq, putAll_eq, putAll_eq]
  exact congrArg ([] ++ ·) (Progress.inclusions_all file skipStatic skipStatic' .start _)

end Outline

end PawnScope
