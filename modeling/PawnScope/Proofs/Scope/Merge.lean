import PawnScope.Proofs.Graph.Preorder
import PawnScope.Proofs.Scope.Callables
import PawnScope.Proofs.Table
/-!
The scope of a file, whatever the records and the edges between them. Main results:

* `ofRecord_each_once`: a scope has the symbols of the file and of all that it leads to, each file
  once and in depth-first preorder.
* `ofRecord_prefers_prototypes`: of the callables with one key it has the first prototype, or else
  the first one.
-/

namespace PawnScope

namespace Scope

open Outline (DistinctKeys)

/--
What a file leads to along the edges of nodes with records, without passing through `self`, the node
that stands for the file.
-/
inductive LeadsTo (records : RecordTable) (self : Option Handle) (record : FileRecord) :
    Handle → Prop where
  | direct {handle : Handle} :
      handle ∈ record.dependencies → self ≠ some handle → LeadsTo records self record handle
  | further {between handle : Handle} {included : FileRecord} :
      LeadsTo records self record between → records.get? between = some included →
      handle ∈ included.dependencies → self ≠ some handle → LeadsTo records self record handle

/-- The callables that go into a scope, in the order in which they are met. -/
def met (records : RecordTable) (record : FileRecord) (order : List Handle) : List Callable :=
  record.callables ++ (order.filterMap records.get?).flatMap FileRecord.callables

variable {records : RecordTable} {self : Option Handle} {record : FileRecord} {handle : Handle}
  {key : Text} {callables : List Callable} {callable : Callable}

/-! ## The walk -/

theorem mem_edges_iff {between : Handle} :
    handle ∈ records.edges between ↔
      ∃ included, records.get? between = some included ∧ handle ∈ included.dependencies := by
  unfold RecordTable.edges
  cases found : records.get? between with
  | none => simp
  | some included => simp

/-- The bound on the walk of a scope never cuts it off. -/
theorem visits_visited (records : RecordTable) (self : Option Handle) (record : FileRecord) :
    Visits records.edges self.toList record.dependencies
      (self.toList ++ visited records self record) := by
  -- Nodes without a record have no edges, so the nodes that lead on are those of the table.
  have inner : ∀ handle, records.edges handle ≠ [] → handle ∈ records.entries.map Prod.fst := by
    intro handle leads
    obtain ⟨other, edge⟩ := List.exists_mem_of_ne_nil _ leads
    obtain ⟨included, stored, _⟩ := mem_edges_iff.mp edge
    exact List.mem_map.mpr ⟨_, Table.mem_of_get? stored, rfl⟩
  have visits : Visits records.edges self.toList record.dependencies
      (preorder records.edges (records.entries.length + 1) self.toList record.dependencies) := by
    refine preorder_visits (fun _ => True) (fun handle _ => inner handle) (fun _ _ _ _ => trivial)
      _ _ _ (fun _ _ => trivial) ?_
    exact Nat.lt_succ_of_le (Nat.le_trans (unseen_le _ _) (Nat.le_of_eq (List.length_map _)))
  have whole : self.toList ++ visited records self record =
      preorder records.edges (records.entries.length + 1) self.toList record.dependencies :=
    visits.append_drop
  exact whole ▸ visits

theorem visited_nodup (records : RecordTable) (self : Option Handle) (record : FileRecord) :
    (visited records self record).Nodup :=
  ((visits_visited records self record).nodup (Option.toList_nodup self)).of_append_right

theorem mem_visited_iff :
    handle ∈ visited records self record ↔ LeadsTo records self record handle := by
  have visits := visits_visited records self record
  have apart : ∀ other ∈ visited records self record, other ∉ self.toList := fun other member =>
    (visits.reach_of_fresh (Option.toList_nodup self) member).1
  constructor
  · intro member
    refine visits.fresh_of_closed ?_ ?_ handle (List.mem_append_right _ member) (apart _ member)
    · intro other edge fresh
      exact .direct edge (by simpa using fresh)
    · intro between led other edge fresh
      obtain ⟨included, stored, edge⟩ := mem_edges_iff.mp edge
      exact .further led stored edge (by simpa using fresh)
  · intro led
    have inside : ∀ {other}, other ∈ self.toList ++ visited records self record →
        self ≠ some other → other ∈ visited records self record := fun member fresh =>
      (List.mem_append.mp member).resolve_left (by simpa using fresh)
    induction led with
    | direct edge fresh => exact inside (visits.todo_subset edge) fresh
    | further _ stored edge fresh ih =>
      have followed := visits.closed _ (List.mem_append_right _ ih) (apart _ ih)
      exact inside (followed (mem_edges_iff.mpr ⟨_, stored, edge⟩)) fresh

/-! ## What is merged along the walk -/

theorem foldl_add (files : List FileRecord) (scope : Scope) :
    files.foldl add scope =
      ⟨absorbAll scope.callables (files.flatMap FileRecord.callables),
        scope.globals ++ files.flatMap FileRecord.globals,
        scope.constants ++ files.flatMap FileRecord.constants⟩ := by
  induction files generalizing scope with
  | nil => simp [absorbAll]
  | cons first rest ih =>
    rw [List.foldl_cons, ih]
    simp [add, absorbAll, List.foldl_append]

theorem ofRecord_eq (records : RecordTable) (self : Option Handle) (record : FileRecord) :
    ofRecord records self record =
      ((visited records self record).filterMap records.get?).foldl add (own record) := rfl

theorem mem_keys_own (record : FileRecord) :
    key ∈ (own record).callables.map Callable.key ↔ key ∈ record.callables.map Callable.key := by
  rw [own, mem_keys_foldl mem_keys_place, List.map_nil]
  exact or_iff_right List.not_mem_nil

theorem distinctKeys_own (record : FileRecord) : DistinctKeys (own record).callables :=
  Outline.distinctKeys_foldl DistinctKeys.place Outline.distinctKeys_nil record.callables

theorem distinctKeys_ofRecord (records : RecordTable) (self : Option Handle) (record : FileRecord) :
    DistinctKeys (ofRecord records self record).callables := by
  rw [ofRecord_eq, foldl_add]
  exact Outline.distinctKeys_foldl distinctKeys_absorb (distinctKeys_own record) _

/-- What is listed of some nodes is listed in the record of one of them. -/
theorem exists_included {α : Type} {list : FileRecord → List α} {found : α} {handles : List Handle}
    (member : found ∈ (handles.filterMap records.get?).flatMap list) :
    ∃ handle ∈ handles, ∃ included, records.get? handle = some included ∧ found ∈ list included := by
  obtain ⟨included, contributes, declared⟩ := List.mem_flatMap.mp member
  obtain ⟨handle, visited, stored⟩ := List.mem_filterMap.mp contributes
  exact ⟨handle, visited, included, stored, declared⟩

theorem mem_keys_ofRecord :
    key ∈ (ofRecord records self record).callables.map Callable.key ↔
      key ∈ record.callables.map Callable.key ∨
        ∃ handle included, LeadsTo records self record handle ∧
          records.get? handle = some included ∧ key ∈ included.callables.map Callable.key := by
  rw [ofRecord_eq, foldl_add, absorbAll, mem_keys_foldl mem_keys_absorb, mem_keys_own]
  refine or_congr_right ⟨fun member => ?_, fun member => ?_⟩
  · obtain ⟨callable, member, same⟩ := List.mem_map.mp member
    obtain ⟨handle, visited, included, stored, declared⟩ := exists_included member
    exact ⟨handle, included, mem_visited_iff.mp visited, stored,
      List.mem_map.mpr ⟨callable, declared, same⟩⟩
  · obtain ⟨handle, included, led, stored, declared⟩ := member
    obtain ⟨callable, declared, same⟩ := List.mem_map.mp declared
    have contributes : included ∈ (visited records self record).filterMap records.get? :=
      List.mem_filterMap.mpr ⟨handle, mem_visited_iff.mpr led, stored⟩
    exact List.mem_map.mpr ⟨callable, List.mem_flatMap.mpr ⟨included, contributes, declared⟩, same⟩

/-- What the file and the visited nodes list is listed in the file or in the record of a node. -/
theorem own_or_included {α : Type} {list : FileRecord → List α} {found : α}
    (member : found ∈ list record ++
      ((visited records self record).filterMap records.get?).flatMap list) :
    found ∈ list record ∨
      ∃ handle included, records.get? handle = some included ∧ found ∈ list included := by
  rcases List.mem_append.mp member with own | met
  · exact .inl own
  · obtain ⟨handle, _, included, listed⟩ := exists_included met
    exact .inr ⟨handle, included, listed⟩

/-- A callable of a scope comes from the file itself or from the record of a node. -/
theorem callable_mem_of_ofRecord (member : callable ∈ (ofRecord records self record).callables) :
    callable ∈ record.callables ∨
      ∃ handle included, records.get? handle = some included ∧ callable ∈ included.callables := by
  rw [ofRecord_eq, foldl_add] at member
  rcases Outline.mem_foldl (fun _ _ _ => mem_absorb) member with own | met
  · exact .inl ((Outline.mem_foldl (fun _ _ _ found => (Outline.mem_place found).symm) own).resolve_left
      List.not_mem_nil)
  · obtain ⟨handle, _, included, listed⟩ := exists_included met
    exact .inr ⟨handle, included, listed⟩

theorem globals_ofRecord (records : RecordTable) (self : Option Handle) (record : FileRecord) :
    (ofRecord records self record).globals = record.globals ++
      ((visited records self record).filterMap records.get?).flatMap FileRecord.globals := by
  rw [ofRecord_eq, foldl_add]
  rfl

theorem constants_ofRecord (records : RecordTable) (self : Option Handle) (record : FileRecord) :
    (ofRecord records self record).constants = record.constants ++
      ((visited records self record).filterMap records.get?).flatMap FileRecord.constants := by
  rw [ofRecord_eq, foldl_add]
  rfl

/--
Whatever the records are, the walk ends, and a scope has the symbols of the file and then those of
every file with a record that it leads to, each file once and in the preorder of the walk.
-/
theorem ofRecord_each_once (records : RecordTable) (self : Option Handle) (record : FileRecord) :
    ∃ order : List Handle,
      Visits records.edges self.toList record.dependencies (self.toList ++ order) ∧
      order.Nodup ∧
      (∀ handle, handle ∈ order ↔ LeadsTo records self record handle) ∧
      (ofRecord records self record).globals =
        record.globals ++ (order.filterMap records.get?).flatMap FileRecord.globals ∧
      (ofRecord records self record).constants =
        record.constants ++ (order.filterMap records.get?).flatMap FileRecord.constants ∧
      ∀ key, key ∈ (ofRecord records self record).callables.map Callable.key ↔
        key ∈ record.callables.map Callable.key ∨
          ∃ handle included, LeadsTo records self record handle ∧
            records.get? handle = some included ∧ key ∈ included.callables.map Callable.key := by
  refine ⟨visited records self record, visits_visited records self record,
    visited_nodup records self record, fun _ => mem_visited_iff, ?_, ?_, fun _ => mem_keys_ofRecord⟩
  · rw [ofRecord_eq, foldl_add]
    rfl
  · rw [ofRecord_eq, foldl_add]
    rfl

/-! ## Prototypes first -/

theorem absorbAll_self (distinct : DistinctKeys callables) : absorbAll [] callables = callables :=
  Outline.foldl_of_distinct absorb_of_not_mem distinct

theorem own_callables (distinct : DistinctKeys record.callables) :
    (own record).callables = record.callables :=
  Outline.foldl_of_distinct Outline.place_of_not_mem distinct

theorem ofRecord_callables (distinct : DistinctKeys record.callables) :
    (ofRecord records self record).callables =
      absorbAll [] (met records record (visited records self record)) := by
  rw [ofRecord_eq, foldl_add, own_callables distinct, met, absorbAll, absorbAll, List.foldl_append]
  exact congrArg (List.foldl _ · _) (absorbAll_self distinct).symm

/--
If no key has two callables in the file itself, a scope has one callable for each key that is met
on the walk: the first prototype, or the first of all if none is a prototype. Keys stand in the
order in which they are met first.
-/
theorem ofRecord_prefers_prototypes (records : RecordTable) (self : Option Handle)
    (record : FileRecord) (distinct : DistinctKeys record.callables) :
    ∃ order : List Handle,
      Visits records.edges self.toList record.dependencies (self.toList ++ order) ∧
      (ofRecord records self record).callables.map Callable.key =
        ((met records record order).map Callable.key).eraseDups ∧
      ∀ key ∈ (met records record order).map Callable.key,
        ∃ callable, preferred? (met records record order) key = some callable ∧
          (ofRecord records self record).callables.filter (·.key == key) = [callable] := by
  refine ⟨visited records self record, visits_visited records self record, ?_, ?_⟩
  · rw [ofRecord_callables distinct, keys_absorbAll]
  · intro key member
    have held : key ∈ (ofRecord records self record).callables.map Callable.key := by
      rw [ofRecord_callables distinct, keys_absorbAll]
      exact List.mem_eraseDups.mpr member
    obtain ⟨other, held, same⟩ := List.mem_map.mp held
    cases found : (ofRecord records self record).callables.find? (·.key == key) with
    | none => exact absurd same (by simpa using List.find?_eq_none.mp found other held)
    | some callable =>
      refine ⟨callable, ?_, ?_⟩
      · rw [← find?_absorbAll, ← ofRecord_callables distinct, found]
      · rw [Outline.filter_eq_find? (distinctKeys_ofRecord records self record), found]
        rfl

/-! ## Files that include each other -/

def tangledCallable (file name : String) (isPrototype : Bool) : Callable :=
  ⟨name.toList, name.toList, false, ⟨file.toList⟩, ⟨⟨0, 0⟩, ⟨0, 0⟩⟩, [], none, isPrototype, false⟩

def tangledGlobal (file name : String) : Global :=
  ⟨name.toList, name.toList, false, ⟨file.toList⟩, ⟨⟨0, 0⟩, ⟨0, 0⟩⟩, none, false⟩

def tangledConstant (file name : String) : Constant :=
  ⟨name.toList, [], name.toList, ⟨file.toList⟩, ⟨⟨0, 0⟩, ⟨0, 0⟩⟩⟩

/-- Includes two files, and is included by the first of them. -/
def tangledFile : FileRecord :=
  ⟨⟨"/m.sma".toList⟩, [],
    [tangledCallable "/m.sma" "run" false, tangledCallable "/m.sma" "stop" false],
    [tangledGlobal "/m.sma" "count"], [], [⟨1, 0⟩, ⟨1, 0⟩, ⟨2, 0⟩]⟩

/-- Two files that include each other; the first one includes itself, the second one a file that
could not be read. -/
def tangled : RecordTable :=
  ⟨[(⟨0, 0⟩, tangledFile),
    (⟨1, 0⟩, ⟨⟨"/a.inc".toList⟩, [],
      [tangledCallable "/a.inc" "hook" false, tangledCallable "/a.inc" "RUN" false],
      [tangledGlobal "/a.inc" "count"], [tangledConstant "/a.inc" "SIZE"],
      [⟨1, 0⟩, ⟨0, 0⟩, ⟨2, 0⟩]⟩),
    (⟨2, 0⟩, ⟨⟨"/b.inc".toList⟩, [],
      [tangledCallable "/b.inc" "run" true, tangledCallable "/b.inc" "hook" true],
      [tangledGlobal "/b.inc" "total"], [tangledConstant "/b.inc" "SIZE"],
      [⟨3, 0⟩, ⟨1, 0⟩]⟩)]⟩

theorem ofRecord_prefers_prototypes_tangled :
    DistinctKeys tangledFile.callables ∧
    ∃ order : List Handle,
      Visits tangled.edges [⟨0, 0⟩] tangledFile.dependencies (⟨0, 0⟩ :: order) ∧
      (ofRecord tangled (some ⟨0, 0⟩) tangledFile).callables.map Callable.key =
        ((met tangled tangledFile order).map Callable.key).eraseDups ∧
      ∀ key ∈ (met tangled tangledFile order).map Callable.key,
        ∃ callable, preferred? (met tangled tangledFile order) key = some callable ∧
          (ofRecord tangled (some ⟨0, 0⟩) tangledFile).callables.filter (·.key == key) =
            [callable] :=
  ⟨by decide, ofRecord_prefers_prototypes tangled (some ⟨0, 0⟩) tangledFile (by decide)⟩

example : (ofRecord tangled (some ⟨0, 0⟩) tangledFile).callables =
    [tangledCallable "/b.inc" "run" true, tangledCallable "/m.sma" "stop" false,
      tangledCallable "/b.inc" "hook" true] := by decide

end Scope

end PawnScope
