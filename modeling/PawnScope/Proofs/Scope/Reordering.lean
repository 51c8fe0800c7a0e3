import PawnScope.Proofs.Scope.Merge
/-!
The order of inclusions. It decides in which order files are visited and which of two bodies is met
first, but not what there is: `ofRecord_reordered`.
-/

namespace PawnScope

/-- Two records that differ in the order of their edges only. -/
structure FileRecord.Reordered (one two : FileRecord) : Prop where
  same : { one with dependencies := two.dependencies } = two
  dependencies : one.dependencies.Perm two.dependencies

/-- The same nodes have records, which differ in the order of their edges only. -/
def RecordTable.Reordered (one two : RecordTable) : Prop :=
  ∀ handle, Option.Rel FileRecord.Reordered (one.get? handle) (two.get? handle)

theorem FileRecord.Reordered.symm {one two : FileRecord} (root : one.Reordered two) :
    two.Reordered one where
  same := by rw [← root.same]
  dependencies := root.dependencies.symm

theorem FileRecord.Reordered.callables {one two : FileRecord} (root : one.Reordered two) :
    one.callables = two.callables := by
  rw [← root.same]

theorem FileRecord.Reordered.globals {one two : FileRecord} (root : one.Reordered two) :
    one.globals = two.globals := by
  rw [← root.same]

theorem FileRecord.Reordered.constants {one two : FileRecord} (root : one.Reordered two) :
    one.constants = two.constants := by
  rw [← root.same]

theorem RecordTable.Reordered.both {one two : RecordTable} (tables : one.Reordered two)
    (handle : Handle) :
    (one.get? handle = none ∧ two.get? handle = none) ∨
      ∃ first second, one.get? handle = some first ∧ two.get? handle = some second ∧
        first.Reordered second := by
  have related := tables handle
  generalize one.get? handle = first at related ⊢
  generalize two.get? handle = second at related ⊢
  cases related with
  | some reordered => exact .inr ⟨_, _, rfl, rfl, reordered⟩
  | none => exact .inl ⟨rfl, rfl⟩

theorem RecordTable.Reordered.symm {one two : RecordTable} (tables : one.Reordered two) :
    two.Reordered one := by
  intro handle
  rcases tables.both handle with ⟨first, second⟩ | ⟨_, _, first, second, reordered⟩
  · rw [first, second]
    exact .none
  · rw [first, second]
    exact .some reordered.symm

namespace Scope

open Outline (DistinctKeys hasPrototype)

variable {records records' : RecordTable} {self : Option Handle} {record record' : FileRecord}
  {handle : Handle} {callables : List Callable} {callable : Callable}

/-- What a file leads to does not depend on the order of edges. -/
theorem LeadsTo.reordered (led : LeadsTo records self record handle)
    (root : record.Reordered record') (tables : records.Reordered records') :
    LeadsTo records' self record' handle := by
  induction led with
  | direct edge fresh => exact .direct (root.dependencies.mem_iff.mp edge) fresh
  | @further between _ _ _ stored edge fresh ih =>
    rcases tables.both between with ⟨absent, _⟩ | ⟨included, _, stored', follows, reordered⟩
    · rw [absent] at stored
      cases stored
    · cases stored.symm.trans stored'
      exact .further ih follows (reordered.dependencies.mem_iff.mp edge) fresh

theorem visited_perm (root : record.Reordered record') (tables : records.Reordered records') :
    (visited records self record).Perm (visited records' self record') := by
  rw [List.perm_ext_iff_of_nodup (visited_nodup ..) (visited_nodup ..)]
  intro handle
  rw [mem_visited_iff, mem_visited_iff]
  exact ⟨fun led => led.reordered root tables, fun led => led.reordered root.symm tables.symm⟩

/-- The files of a walk contribute the same in any order of edges, but not in the same order. -/
theorem contributed_perm {α : Type} (self : Option Handle) (part : FileRecord → List α)
    (apart : ∀ {one two : FileRecord}, one.Reordered two → part one = part two)
    (root : record.Reordered record') (tables : records.Reordered records') :
    (((visited records self record).filterMap records.get?).flatMap part).Perm
      (((visited records' self record').filterMap records'.get?).flatMap part) := by
  have each : ∀ (records : RecordTable) (order : List Handle),
      (order.filterMap records.get?).flatMap part =
        order.flatMap fun handle => (records.get? handle).elim [] part := by
    intro records order
    induction order with
    | nil => rfl
    | cons first rest ih => cases stored : records.get? first <;> simp [stored, ih]
  have same : (fun handle => (records.get? handle).elim [] part) =
      fun handle => (records'.get? handle).elim [] part := by
    funext handle
    rcases tables.both handle with ⟨first, second⟩ | ⟨_, _, first, second, reordered⟩
    · rw [first, second]
    · rw [first, second]
      exact apart reordered
  rw [each, each, same]
  exact (visited_perm root tables).flatMap_right _

/-- With distinct keys a callable is a prototype if there is one under its key. -/
theorem isPrototype_eq (distinct : DistinctKeys callables) (member : callable ∈ callables) :
    callable.isPrototype = hasPrototype callables callable.key := by
  rw [Bool.eq_iff_iff, Outline.hasPrototype_iff]
  constructor
  · exact fun marked => ⟨callable, member, rfl, marked⟩
  · rintro ⟨found, held, same, marked⟩
    exact List.inj_on_of_nodup_map distinct held member same ▸ marked

theorem hasPrototype_ofRecord (records : RecordTable) (self : Option Handle) (record : FileRecord)
    (key : Text) :
    hasPrototype (ofRecord records self record).callables key =
      (hasPrototype (own record).callables key ||
        hasPrototype (((visited records self record).filterMap records.get?).flatMap
          FileRecord.callables) key) := by
  rw [ofRecord_eq, foldl_add, hasPrototype_absorbAll]

/--
Whatever the order of the edges of a file and of the nodes, its scope has the same keys, the same of
them belong to prototypes, and variables and constants are the same up to order.
-/
theorem ofRecord_reordered (self : Option Handle) (root : record.Reordered record')
    (tables : records.Reordered records') :
    (∀ key, key ∈ (ofRecord records self record).callables.map Callable.key ↔
      key ∈ (ofRecord records' self record').callables.map Callable.key) ∧
    (∀ one ∈ (ofRecord records self record).callables,
      ∀ two ∈ (ofRecord records' self record').callables,
        one.key = two.key → one.isPrototype = two.isPrototype) ∧
    (ofRecord records self record).globals.Perm (ofRecord records' self record').globals ∧
    (ofRecord records self record).constants.Perm (ofRecord records' self record').constants := by
  have itself : own record = own record' := by
    rw [← root.same]
    rfl
  have callables := contributed_perm self FileRecord.callables (·.callables) root tables
  have globals := contributed_perm self FileRecord.globals (·.globals) root tables
  have constants := contributed_perm self FileRecord.constants (·.constants) root tables
  refine ⟨fun key => ?_, fun one member two member' same => ?_, ?_, ?_⟩
  · rw [ofRecord_eq, ofRecord_eq, foldl_add, foldl_add, absorbAll, absorbAll,
      mem_keys_foldl mem_keys_absorb, mem_keys_foldl mem_keys_absorb, itself,
      (callables.map Callable.key).mem_iff]
  · rw [isPrototype_eq (distinctKeys_ofRecord ..) member,
      isPrototype_eq (distinctKeys_ofRecord ..) member', same, hasPrototype_ofRecord,
      hasPrototype_ofRecord, itself]
    exact congrArg _ callables.any_eq
  · rw [ofRecord_eq, ofRecord_eq, foldl_add, foldl_add, itself]
    exact globals.append_left _
  · rw [ofRecord_eq, ofRecord_eq, foldl_add, foldl_add, itself]
    exact constants.append_left _

end Scope

/-! ## The edges of all files turned round -/

def FileRecord.reversed (record : FileRecord) : FileRecord :=
  { record with dependencies := record.dependencies.reverse }

def RecordTable.reversed (records : RecordTable) : RecordTable :=
  ⟨records.entries.map fun entry => (entry.1, entry.2.reversed)⟩

theorem FileRecord.reordered_reversed (record : FileRecord) : record.Reordered record.reversed where
  same := rfl
  dependencies := (List.reverse_perm record.dependencies).symm

theorem RecordTable.reordered_reversed (records : RecordTable) :
    records.Reordered records.reversed := by
  intro handle
  have turned : records.reversed.get? handle = (records.get? handle).map FileRecord.reversed := by
    simp [RecordTable.reversed, Table.get?, List.find?_map, Function.comp_def]
  rw [turned]
  cases records.get? handle with
  | none => exact .none
  | some included => exact .some included.reordered_reversed

namespace Scope

theorem ofRecord_reordered_tangled :
    tangledFile.Reordered tangledFile.reversed ∧ tangled.Reordered tangled.reversed ∧
    (∀ key, key ∈ (ofRecord tangled (some ⟨0, 0⟩) tangledFile).callables.map Callable.key ↔
      key ∈ (ofRecord tangled.reversed (some ⟨0, 0⟩) tangledFile.reversed).callables.map
        Callable.key) ∧
    (∀ one ∈ (ofRecord tangled (some ⟨0, 0⟩) tangledFile).callables,
      ∀ two ∈ (ofRecord tangled.reversed (some ⟨0, 0⟩) tangledFile.reversed).callables,
        one.key = two.key → one.isPrototype = two.isPrototype) ∧
    (ofRecord tangled (some ⟨0, 0⟩) tangledFile).globals.Perm
      (ofRecord tangled.reversed (some ⟨0, 0⟩) tangledFile.reversed).globals ∧
    (ofRecord tangled (some ⟨0, 0⟩) tangledFile).constants.Perm
      (ofRecord tangled.reversed (some ⟨0, 0⟩) tangledFile.reversed).constants :=
  ⟨tangledFile.reordered_reversed, tangled.reordered_reversed,
    ofRecord_reordered (some ⟨0, 0⟩) tangledFile.reordered_reversed tangled.reordered_reversed⟩

/-- The second file comes first now. -/
example : (ofRecord tangled.reversed (some ⟨0, 0⟩) tangledFile.reversed).globals =
    [tangledGlobal "/m.sma" "count", tangledGlobal "/b.inc" "total",
      tangledGlobal "/a.inc" "count"] := by decide

end Scope

end PawnScope
