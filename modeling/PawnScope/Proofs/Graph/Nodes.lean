import Mathlib.Data.List.Nodup
import PawnScope.Graph.Basic
import PawnScope.Proofs.Table
/-!
The nodes of an include graph. All that matters of a graph is which node each handle names, so every
operation is described by what it does to `node?`; slots, the free list and the table of files are
tied to it by `WellFormed` once.
-/

namespace PawnScope.IncludeGraph

/-! ## Live nodes -/

/-- The file of a live node. -/
def file? (graph : IncludeGraph) (handle : Handle) : Option SourceId :=
  (graph.node? handle).map Node.file

/-- The slots agree with the free list and with the table of files, and a node is referred to. -/
structure WellFormed (graph : IncludeGraph) : Prop where
  free_nodup : graph.free.Nodup
  mem_free : ∀ {index}, index ∈ graph.free ↔ ∃ generation, graph.slots[index]? = some ⟨generation, none⟩
  files_distinct : graph.byFile.Distinct
  byFile_iff : ∀ {file handle},
    graph.byFile.get? file = some handle ↔ graph.file? handle = some file
  positive : ∀ {handle node}, graph.node? handle = some node → 1 ≤ node.references

variable {graph : IncludeGraph} {handle other : Handle} {node : Node} {file : SourceId}

theorem node?_eq_some_iff :
    graph.node? handle = some node ↔
      graph.slots[handle.index]? = some ⟨handle.generation, some node⟩ := by
  unfold node?
  cases found : graph.slots[handle.index]? with
  | none => simp
  | some slot =>
    obtain ⟨generation, content⟩ := slot
    by_cases same : generation = handle.generation
    · simp [same]
    · simp [same]

theorem file?_eq_some_iff :
    graph.file? handle = some file ↔ ∃ node, graph.node? handle = some node ∧ node.file = file := by
  simp [file?]

theorem file?_of_node? (named : graph.node? handle = some node) :
    graph.file? handle = some node.file := by
  simp [file?, named]

theorem isAlive_iff_node? : graph.isAlive handle = true ↔ ∃ node, graph.node? handle = some node := by
  simp [isAlive, Option.isSome_iff_exists]

theorem not_alive_of_none (dead : graph.node? handle = none) : ¬ graph.isAlive handle = true := by
  rw [isAlive, dead]
  exact Bool.false_ne_true

theorem isAlive_iff_file? : graph.isAlive handle = true ↔ ∃ file, graph.file? handle = some file := by
  simp [isAlive, file?, Option.isSome_iff_exists]

theorem isAlive_of_file? (named : graph.file? handle = some file) : graph.isAlive handle = true :=
  isAlive_iff_file?.mpr ⟨file, named⟩

theorem index_lt_of_node? (named : graph.node? handle = some node) :
    handle.index < graph.slots.length :=
  (List.getElem?_eq_some_iff.mp (node?_eq_some_iff.mp named)).1

/-! ## Listing the nodes -/

theorem mem_nodesFrom_iff {slots : List Slot} {base : Nat} :
    (handle, node) ∈ nodesFrom base slots ↔
      ∃ offset, handle.index = base + offset ∧
        slots[offset]? = some ⟨handle.generation, some node⟩ := by
  induction slots generalizing base with
  | nil => simp [nodesFrom]
  | cons slot rest ih =>
    obtain ⟨generation, content⟩ := slot
    have later : (∃ offset, handle.index = base + 1 + offset ∧
          rest[offset]? = some ⟨handle.generation, some node⟩) ↔
        ∃ offset, handle.index = base + (offset + 1) ∧
          rest[offset]? = some ⟨handle.generation, some node⟩ := by
      constructor
      · rintro ⟨offset, index, found⟩
        exact ⟨offset, by omega, found⟩
      · rintro ⟨offset, index, found⟩
        exact ⟨offset, by omega, found⟩
    have split : ∀ holds : Nat → Prop, (∃ offset, holds offset) ↔
        holds 0 ∨ ∃ offset, holds (offset + 1) := by
      intro holds
      constructor
      · rintro ⟨offset, found⟩
        cases offset with
        | zero => exact .inl found
        | succ offset => exact .inr ⟨offset, found⟩
      · rintro (found | ⟨offset, found⟩)
        · exact ⟨0, found⟩
        · exact ⟨offset + 1, found⟩
    -- offset zero is the first slot, every other one is an offset into the rest
    rw [split]
    cases content with
    | none => simp [nodesFrom, ih, later]
    | some first =>
      obtain ⟨index, generation'⟩ := handle
      simp only [nodesFrom, List.mem_cons, ih, later, List.getElem?_cons_zero,
        List.getElem?_cons_succ, Prod.mk.injEq, Handle.mk.injEq, Option.some.injEq, Slot.mk.injEq,
        Nat.add_zero]
      constructor
      · rintro (⟨⟨rfl, rfl⟩, rfl⟩ | tail)
        · exact .inl ⟨rfl, rfl, rfl⟩
        · exact .inr tail
      · rintro (⟨rfl, rfl, rfl⟩ | tail)
        · exact .inl ⟨⟨rfl, rfl⟩, rfl⟩
        · exact .inr tail

theorem mem_nodes_iff : (handle, node) ∈ graph.nodes ↔ graph.node? handle = some node := by
  rw [nodes, mem_nodesFrom_iff, node?_eq_some_iff]
  simp

theorem mem_handles_iff : handle ∈ graph.handles ↔ graph.isAlive handle = true := by
  simp [handles, isAlive_iff_node?, mem_nodes_iff]

theorem length_nodesFrom_le (base : Nat) (slots : List Slot) :
    (nodesFrom base slots).length ≤ slots.length := by
  induction slots generalizing base with
  | nil => exact Nat.le_refl 0
  | cons slot rest ih =>
    obtain ⟨generation, content⟩ := slot
    cases content with
    | none => exact Nat.le_succ_of_le (ih (base + 1))
    | some first => exact Nat.succ_le_succ (ih (base + 1))

theorem length_handles_le (graph : IncludeGraph) : graph.handles.length ≤ graph.slots.length := by
  rw [handles, List.length_map]
  exact length_nodesFrom_le 0 graph.slots

theorem nodesFrom_index (base : Nat) (slots : List Slot) :
    (nodesFrom base slots).Pairwise fun one two => one.1.index < two.1.index := by
  induction slots generalizing base with
  | nil => exact .nil
  | cons slot rest ih =>
    obtain ⟨generation, content⟩ := slot
    cases content with
    | none => exact ih (base + 1)
    | some first =>
      refine .cons (fun entry member => ?_) (ih (base + 1))
      obtain ⟨offset, index, _⟩ := mem_nodesFrom_iff.mp member
      show base < entry.1.index
      omega

theorem handles_nodup (graph : IncludeGraph) : graph.handles.Nodup := by
  refine List.pairwise_map.mpr ((nodesFrom_index 0 graph.slots).imp fun before same => ?_)
  rw [same] at before
  exact Nat.lt_irrefl _ before

theorem handleOf?_eq_some_iff (good : graph.WellFormed) :
    graph.handleOf? file = some handle ↔ graph.file? handle = some file :=
  good.byFile_iff

theorem WellFormed.file_unique (good : graph.WellFormed) (first : graph.file? handle = some file)
    (second : graph.file? other = some file) : handle = other :=
  Option.some.inj ((good.byFile_iff.mpr first).symm.trans (good.byFile_iff.mpr second))

theorem handleOf?_eq_none_iff (good : graph.WellFormed) :
    graph.handleOf? file = none ↔ ∀ handle, graph.file? handle ≠ some file := by
  rw [Option.eq_none_iff_forall_ne_some]
  exact forall_congr' fun handle => not_congr (handleOf?_eq_some_iff good)

/-- The table of files has one entry for each live node. -/
theorem WellFormed.size_eq (good : graph.WellFormed) : graph.size = graph.nodes.length := by
  have entry : ∀ {file handle},
      (file, handle) ∈ graph.byFile.entries ↔ graph.file? handle = some file := fun {_ _} =>
    (Table.mem_entries_iff good.files_distinct).trans good.byFile_iff
  have listed : (graph.byFile.entries.map Prod.snd).Perm graph.handles := by
    rw [List.perm_ext_iff_of_nodup _ graph.handles_nodup]
    · intro handle
      rw [mem_handles_iff, isAlive_iff_file?, List.mem_map]
      constructor
      · rintro ⟨⟨file, _⟩, member, rfl⟩
        exact ⟨file, entry.mp member⟩
      · rintro ⟨file, known⟩
        exact ⟨(file, handle), entry.mpr known, rfl⟩
    · refine List.Nodup.map_on ?_ (List.Nodup.of_map _ good.files_distinct)
      rintro ⟨first, handle⟩ member ⟨second, _⟩ member' rfl
      rw [Option.some.inj ((entry.mp member).symm.trans (entry.mp member'))]
  have length := listed.length_eq
  rw [handles, List.length_map, List.length_map] at length
  exact length

/-! ## What the operations do to the nodes -/

/-- A slot with content knows its one handle. -/
theorem node?_eq_none_of_index_eq (named : graph.node? handle = some node)
    (index : other.index = handle.index) (differ : other ≠ handle) : graph.node? other = none := by
  have slot := node?_eq_some_iff.mp named
  have generation : handle.generation ≠ other.generation := by
    intro same
    apply differ
    cases other
    cases handle
    simp_all
  simp [node?, index, slot, generation]

theorem node?_setNode (alive : graph.isAlive handle = true) :
    (graph.setNode handle (some node)).node? other =
      if other = handle then some node else graph.node? other := by
  obtain ⟨before, named⟩ := isAlive_iff_node?.mp alive
  have inside := index_lt_of_node? named
  by_cases same : other = handle
  · simp [setNode, node?, same, inside]
  · rw [if_neg same]
    by_cases index : other.index = handle.index
    · rw [node?_eq_none_of_index_eq named index same]
      have set : (graph.setNode handle (some node)).node? handle = some node := by
        simp [setNode, node?, inside]
      exact node?_eq_none_of_index_eq set index same
    · simp [setNode, node?, List.getElem?_set_ne (Ne.symm index)]

theorem node?_delete (alive : graph.isAlive handle = true) :
    (graph.delete handle).node? other = if other = handle then none else graph.node? other := by
  obtain ⟨before, named⟩ := isAlive_iff_node?.mp alive
  have inside := index_lt_of_node? named
  by_cases index : other.index = handle.index
  · have gone : (graph.delete handle).node? other = none := by
      simp [delete, node?, index, inside]
    rw [gone]
    by_cases same : other = handle
    · rw [if_pos same]
    · rw [if_neg same, node?_eq_none_of_index_eq named index same]
  · have differ : other ≠ handle := fun same => index (by rw [same])
    simp [delete, node?, List.getElem?_set_ne (Ne.symm index), differ]

theorem create_of_full (free : graph.free = []) :
    graph.create file =
      (⟨graph.slots ++ [⟨0, some ⟨file, 1⟩⟩], [], graph.byFile.insert file ⟨graph.slots.length, 0⟩⟩,
        ⟨graph.slots.length, 0⟩) := by
  simp [create, free]

theorem create_of_free {index : Nat} {rest : List Nat} {generation : UInt32}
    (free : graph.free = index :: rest)
    (slot : graph.slots[index]? = some ⟨generation, none⟩) :
    graph.create file =
      (⟨graph.slots.set index ⟨generation, some ⟨file, 1⟩⟩, rest,
        graph.byFile.insert file ⟨index, generation⟩⟩, ⟨index, generation⟩) := by
  rw [create, free]
  simp only [slot]
  rfl

theorem create_dead (good : graph.WellFormed) (file : SourceId) :
    graph.node? (graph.create file).2 = none := by
  cases free : graph.free with
  | nil => simp [create_of_full free, node?]
  | cons index rest =>
    obtain ⟨generation, slot⟩ := good.mem_free.mp (free ▸ List.mem_cons_self)
    simp [create_of_free free slot, node?, slot]

theorem node?_create (good : graph.WellFormed) :
    (graph.create file).1.node? other =
      if other = (graph.create file).2 then some ⟨file, 1⟩ else graph.node? other := by
  cases free : graph.free with
  | nil =>
    rw [create_of_full free]
    by_cases same : other = ⟨graph.slots.length, 0⟩
    · simp [node?, same]
    · rw [if_neg same]
      rcases Nat.lt_trichotomy other.index graph.slots.length with inside | equal | outside
      · simp [node?, List.getElem?_append_left inside]
      · have generation : (0 : UInt32) ≠ other.generation := by
          intro zero
          apply same
          cases other
          simp_all
        simp [node?, equal, generation]
      · have beyond : (graph.slots ++ [⟨0, some ⟨file, 1⟩⟩])[other.index]? = none := by
          simp
          omega
        have beyond' : graph.slots[other.index]? = none := by
          simp
          omega
        simp [node?, beyond, beyond']
  | cons index rest =>
    obtain ⟨generation, slot⟩ := good.mem_free.mp (free ▸ List.mem_cons_self)
    have inside : index < graph.slots.length := (List.getElem?_eq_some_iff.mp slot).1
    rw [create_of_free free slot]
    by_cases same : other = ⟨index, generation⟩
    · simp [node?, same, inside]
    · rw [if_neg same]
      by_cases equal : other.index = index
      · have differ : generation ≠ other.generation := by
          intro equal'
          apply same
          cases other
          simp_all
        have before : graph.node? other = none := by
          simp [node?, equal, slot]
        rw [before]
        simp [node?, equal, inside, differ]
      · simp [node?, List.getElem?_set_ne (Ne.symm equal)]

theorem byFile_create (good : graph.WellFormed) :
    (graph.create file).1.byFile = graph.byFile.insert file (graph.create file).2 := by
  cases free : graph.free with
  | nil => rw [create_of_full free]
  | cons index rest =>
    obtain ⟨generation, slot⟩ := good.mem_free.mp (free ▸ List.mem_cons_self)
    rw [create_of_free free slot]

theorem file?_create (good : graph.WellFormed) :
    (graph.create file).1.file? other =
      if other = (graph.create file).2 then some file else graph.file? other := by
  unfold file?
  rw [node?_create good]
  split <;> rfl

/-! ## The operations keep the graph well-formed -/

theorem empty_wellFormed : WellFormed empty where
  free_nodup := List.nodup_nil
  mem_free := by simp [empty]
  files_distinct := Table.empty_distinct
  byFile_iff := by simp [empty, file?, node?]
  positive := by simp [empty, node?]

theorem file?_setNode (named : graph.node? handle = some node) (references : Nat) :
    (graph.setNode handle (some { node with references })).file? other = graph.file? other := by
  unfold file?
  rw [node?_setNode (isAlive_iff_node?.mpr ⟨node, named⟩)]
  by_cases same : other = handle
  · simp [same, named]
  · rw [if_neg same]

/-- Changing the count of a node, but not to zero. -/
theorem WellFormed.setNode (good : graph.WellFormed) (named : graph.node? handle = some node)
    {references : Nat} (positive : 1 ≤ references) :
    (graph.setNode handle (some { node with references })).WellFormed where
  free_nodup := good.free_nodup
  mem_free := by
    intro index
    have slot := node?_eq_some_iff.mp named
    rw [show (graph.setNode handle (some { node with references })).free = graph.free from rfl,
      good.mem_free]
    by_cases same : handle.index = index
    · subst same
      rw [slot]
      simp [IncludeGraph.setNode, index_lt_of_node? named]
    · simp [IncludeGraph.setNode, List.getElem?_set_ne same]
  files_distinct := good.files_distinct
  byFile_iff := by
    intro file other
    rw [file?_setNode named]
    exact good.byFile_iff
  positive := by
    intro other node' named'
    rw [node?_setNode (isAlive_iff_node?.mpr ⟨node, named⟩)] at named'
    by_cases same : other = handle
    · rw [if_pos same] at named'
      cases named'
      exact positive
    · rw [if_neg same] at named'
      exact good.positive named'

theorem file?_delete (alive : graph.isAlive handle = true) :
    (graph.delete handle).file? other = if other = handle then none else graph.file? other := by
  unfold file?
  rw [node?_delete alive]
  split <;> rfl

theorem byFile_delete (named : graph.node? handle = some node) :
    (graph.delete handle).byFile = graph.byFile.erase node.file := by
  simp [delete, named]

theorem WellFormed.delete (good : graph.WellFormed) (alive : graph.isAlive handle = true) :
    (graph.delete handle).WellFormed where
  free_nodup := by
    obtain ⟨node, named⟩ := isAlive_iff_node?.mp alive
    refine List.nodup_cons.mpr ⟨?_, good.free_nodup⟩
    rw [good.mem_free]
    rintro ⟨generation, slot⟩
    simp [node?_eq_some_iff.mp named] at slot
  mem_free := by
    intro index
    obtain ⟨node, named⟩ := isAlive_iff_node?.mp alive
    have inside := index_lt_of_node? named
    by_cases same : handle.index = index
    · subst same
      simp [IncludeGraph.delete, inside]
    · simp [IncludeGraph.delete, good.mem_free, Ne.symm same, List.getElem?_set_ne same]
  files_distinct := by
    obtain ⟨node, named⟩ := isAlive_iff_node?.mp alive
    rw [byFile_delete named]
    exact good.files_distinct.erase node.file
  byFile_iff := by
    intro file other
    obtain ⟨node, named⟩ := isAlive_iff_node?.mp alive
    rw [byFile_delete named, Table.get?_erase, file?_delete alive]
    have own := file?_of_node? named
    by_cases self : other = handle
    · subst self
      have elsewhere : file ≠ node.file → graph.byFile.get? file ≠ some other := fun differ known =>
        differ (Option.some.inj ((good.byFile_iff.mp known).symm.trans own))
      by_cases same : file = node.file <;> simp [same, elsewhere]
    · have alone : graph.file? other ≠ some node.file := fun known =>
        self (good.file_unique known own)
      by_cases same : file = node.file <;> simp [self, same, alone, good.byFile_iff]
  positive := by
    intro other node named
    rw [node?_delete alive] at named
    split at named
    · cases named
    · exact good.positive named

theorem isAlive_delete_of_ne (alive : graph.isAlive handle = true) (differ : other ≠ handle) :
    (graph.delete handle).isAlive other = graph.isAlive other := by
  rw [isAlive, node?_delete alive, if_neg differ, isAlive]

/-- Of different live nodes those that are left are alive still when one has been deleted. -/
theorem alive_of_delete_first {first : Handle} {rest : List Handle}
    (alive : ∀ handle ∈ first :: rest, graph.isAlive handle = true)
    (distinct : (first :: rest).Nodup) :
    ∀ handle ∈ rest, (graph.delete first).isAlive handle = true := by
  intro handle member
  have differ : handle ≠ first := fun same => (List.nodup_cons.mp distinct).1 (same ▸ member)
  rw [isAlive_delete_of_ne (alive first List.mem_cons_self) differ]
  exact alive handle (List.mem_cons_of_mem _ member)

theorem node?_foldl_delete {handles : List Handle}
    (alive : ∀ handle ∈ handles, graph.isAlive handle = true) (distinct : handles.Nodup) :
    (handles.foldl IncludeGraph.delete graph).node? other =
      if other ∈ handles then none else graph.node? other := by
  induction handles generalizing graph with
  | nil => simp
  | cons first rest ih =>
    have rest' := (List.nodup_cons.mp distinct).2
    rw [List.foldl_cons, ih (alive_of_delete_first alive distinct) rest',
      node?_delete (alive first List.mem_cons_self)]
    by_cases same : other = first <;> simp [same]

theorem WellFormed.foldl_delete {handles : List Handle} (good : graph.WellFormed)
    (alive : ∀ handle ∈ handles, graph.isAlive handle = true) (distinct : handles.Nodup) :
    (handles.foldl IncludeGraph.delete graph).WellFormed := by
  induction handles generalizing graph with
  | nil => exact good
  | cons first rest ih =>
    exact ih (good.delete (alive first List.mem_cons_self)) (alive_of_delete_first alive distinct)
      (List.nodup_cons.mp distinct).2

theorem WellFormed.create (good : graph.WellFormed) (absent : graph.handleOf? file = none) :
    (graph.create file).1.WellFormed where
  -- the new node takes the first free slot, or a slot behind all others if none is free
  free_nodup := by
    cases free : graph.free with
    | nil => simp [create_of_full free]
    | cons index rest =>
      obtain ⟨generation, slot⟩ := good.mem_free.mp (free ▸ List.mem_cons_self)
      have nodup := good.free_nodup
      rw [free] at nodup
      rw [create_of_free free slot]
      exact (List.nodup_cons.mp nodup).2
  mem_free := by
    intro index
    cases free : graph.free with
    | nil =>
      have full : ∀ generation, graph.slots[index]? ≠ some ⟨generation, none⟩ := by
        intro generation slot
        have listed := good.mem_free.mpr ⟨generation, slot⟩
        rw [free] at listed
        cases listed
      rw [create_of_full free]
      rcases Nat.lt_or_ge index graph.slots.length with inside | outside
      · simpa [List.getElem?_append_left inside] using full
      · simp [List.getElem?_append_right outside, List.getElem?_singleton]
    | cons first rest =>
      obtain ⟨generation, slot⟩ := good.mem_free.mp (free ▸ List.mem_cons_self)
      have inside : first < graph.slots.length := (List.getElem?_eq_some_iff.mp slot).1
      have nodup := good.free_nodup
      rw [free] at nodup
      rw [create_of_free free slot]
      by_cases same : first = index
      · subst same
        simpa [inside] using (List.nodup_cons.mp nodup).1
      · have listed : index ∈ graph.free ↔ _ := good.mem_free
        rw [free, List.mem_cons] at listed
        simpa [List.getElem?_set_ne same, Ne.symm same] using listed
  files_distinct := by
    rw [byFile_create good]
    exact good.files_distinct.insert file _
  byFile_iff := by
    intro file' other
    rw [byFile_create good, file?_create good]
    by_cases same : file' = file
    · have unnamed := (handleOf?_eq_none_iff good).mp absent other
      by_cases self : other = (graph.create file).2 <;> simp [same, self, unnamed, eq_comm]
    · rw [Table.get?_insert_of_ne _ _ same, good.byFile_iff]
      by_cases self : other = (graph.create file).2
      · have dead := create_dead good file
        simp [self, file?, dead, Ne.symm same]
      · rw [if_neg self]
  positive := by
    intro handle node named
    rw [node?_create good] at named
    split at named
    · cases named
      exact Nat.le_refl 1
    · exact good.positive named

/-! ## Giving one reference back -/

theorem release_of_dead (dead : graph.node? handle = none) :
    graph.release handle = (graph, false) := by
  simp [release, dead]

theorem release_of_last (named : graph.node? handle = some node) (once : node.references ≤ 1) :
    graph.release handle = (graph.delete handle, true) := by
  simp [release, named, once]

theorem release_of_more (named : graph.node? handle = some node) (more : 1 < node.references) :
    graph.release handle =
      (graph.setNode handle (some { node with references := node.references - 1 }), false) := by
  simp [release, named, more]

/-! ## Handles of the past -/

/-- The slot of a handle is free, and has moved on by one generation. -/
def Vacant (graph : IncludeGraph) (handle : Handle) : Prop :=
  graph.slots[handle.index]? = some ⟨handle.generation + 1, none⟩

/-- The slot of a handle has moved on by one generation. -/
def Past (graph : IncludeGraph) (handle : Handle) : Prop :=
  ∃ content, graph.slots[handle.index]? = some ⟨handle.generation + 1, content⟩

theorem Vacant.past (vacant : graph.Vacant handle) : graph.Past handle :=
  ⟨none, vacant⟩

theorem Past.dead (past : graph.Past handle) : graph.node? handle = none := by
  obtain ⟨content, slot⟩ := past
  have moved : handle.generation + 1 ≠ handle.generation := by
    intro same
    have zero : handle.generation + 1 = handle.generation + 0 := by rw [same, UInt32.add_zero]
    exact absurd ((UInt32.add_right_inj _).mp zero) (by decide)
  simp [node?, slot, moved]

theorem delete_vacant (alive : graph.isAlive handle = true) :
    (graph.delete handle).Vacant handle := by
  obtain ⟨node, named⟩ := isAlive_iff_node?.mp alive
  simp [Vacant, IncludeGraph.delete, index_lt_of_node? named]

theorem Vacant.index_ne (vacant : graph.Vacant other) (alive : graph.isAlive handle = true) :
    handle.index ≠ other.index := by
  intro same
  obtain ⟨node, named⟩ := isAlive_iff_node?.mp alive
  have slot := node?_eq_some_iff.mp named
  rw [same, vacant] at slot
  simp at slot

theorem Vacant.delete (vacant : graph.Vacant other) (alive : graph.isAlive handle = true) :
    (graph.delete handle).Vacant other := by
  rw [Vacant, IncludeGraph.delete, List.getElem?_set_ne (vacant.index_ne alive)]
  exact vacant

theorem Vacant.setNode (vacant : graph.Vacant other) (alive : graph.isAlive handle = true)
    (content : Option Node) : (graph.setNode handle content).Vacant other := by
  rw [Vacant, IncludeGraph.setNode, List.getElem?_set_ne (vacant.index_ne alive)]
  exact vacant

theorem Past.setNode (past : graph.Past other) (alive : graph.isAlive handle = true)
    (content : Option Node) : (graph.setNode handle content).Past other := by
  obtain ⟨before, slot⟩ := past
  by_cases same : handle.index = other.index
  · obtain ⟨node, named⟩ := isAlive_iff_node?.mp alive
    have slot' := node?_eq_some_iff.mp named
    rw [same, slot, Option.some.injEq, Slot.mk.injEq] at slot'
    have inside : other.index < graph.slots.length := (List.getElem?_eq_some_iff.mp slot).1
    exact ⟨content, by simp [IncludeGraph.setNode, same, inside, slot'.1]⟩
  · exact ⟨before, by rw [IncludeGraph.setNode, List.getElem?_set_ne same, slot]⟩

theorem Past.create (past : graph.Past other) (good : graph.WellFormed) (file : SourceId) :
    (graph.create file).1.Past other := by
  obtain ⟨before, slot⟩ := past
  have inside : other.index < graph.slots.length := (List.getElem?_eq_some_iff.mp slot).1
  cases free : graph.free with
  | nil =>
    rw [create_of_full free]
    exact ⟨before, by rw [List.getElem?_append_left inside, slot]⟩
  | cons index rest =>
    obtain ⟨generation, slot'⟩ := good.mem_free.mp (free ▸ List.mem_cons_self)
    rw [create_of_free free slot']
    by_cases same : index = other.index
    · rw [same, slot, Option.some.injEq, Slot.mk.injEq] at slot'
      exact ⟨some ⟨file, 1⟩, by simp [same, inside, slot'.1]⟩
    · exact ⟨before, by rw [List.getElem?_set_ne same, slot]⟩

/-! ## Further references -/

/-- What a further reference to a file does: its node, which may be new, gains one. -/
structure Gains (graph : IncludeGraph) (file : SourceId) (retained : Retained) : Prop where
  good : retained.graph.WellFormed
  named : retained.graph.file? retained.handle = some file
  frame : ∀ {other}, other ≠ retained.handle → retained.graph.node? other = graph.node? other
  isNew : retained.isNew = true ↔ graph.node? retained.handle = none
  absent : retained.isNew = true → ∀ other, graph.file? other ≠ some file
  kept : retained.isNew = false → graph.file? retained.handle = some file
  past : ∀ {other}, graph.Past other → retained.graph.Past other
  references : ∀ {node}, retained.graph.node? retained.handle = some node →
    node.references = (graph.node? retained.handle).elim 0 Node.references + 1

/-- Files keep their nodes. -/
theorem Gains.keeps {retained : Retained} {x : SourceId} (gains : Gains graph file retained)
    (known : graph.file? other = some x) : retained.graph.file? other = some x := by
  by_cases self : other = retained.handle
  · cases new : retained.isNew with
    | false =>
      rw [self, gains.kept new] at known
      rw [self, gains.named, known]
    | true =>
      obtain ⟨node, named, _⟩ := file?_eq_some_iff.mp known
      rw [self, gains.isNew.mp new] at named
      cases named
  · rw [file?, gains.frame self]
    exact known

theorem retain_of_absent (absent : graph.handleOf? file = none) :
    graph.retain file = ⟨(graph.create file).1, (graph.create file).2, true⟩ := by
  simp [retain, absent]

theorem retain_of_known (found : graph.handleOf? file = some handle)
    (named : graph.node? handle = some node) :
    graph.retain file =
      ⟨graph.setNode handle (some { node with references := node.references + 1 }), handle,
        false⟩ := by
  simp [retain, found, named]

theorem retain_gains (good : graph.WellFormed) (file : SourceId) :
    Gains graph file (graph.retain file) := by
  cases found : graph.handleOf? file with
  | none =>
    rw [retain_of_absent found]
    have dead := create_dead good file
    refine ⟨good.create found, ?_, ?_, by simp [dead], ?_, by simp,
      fun past => past.create good file, ?_⟩
    · simp [file?, node?_create good]
    · intro other differ
      rw [node?_create good, if_neg differ]
    · intro _
      exact (handleOf?_eq_none_iff good).mp found
    · intro node named
      rw [node?_create good, if_pos rfl] at named
      cases named
      simp [dead]
  | some handle =>
    have known := (handleOf?_eq_some_iff good).mp found
    obtain ⟨node, named, rfl⟩ := file?_eq_some_iff.mp known
    have alive : graph.isAlive handle = true := isAlive_of_file? known
    rw [retain_of_known found named]
    refine ⟨good.setNode named (by omega), ?_, ?_, by simp [named], by simp, fun _ => known,
      fun past => past.setNode alive _, ?_⟩
    · rw [file?_setNode named, known]
    · intro other differ
      rw [node?_setNode alive, if_neg differ]
    · intro node' named'
      rw [node?_setNode alive, if_pos rfl] at named'
      cases named'
      simp [named]

end PawnScope.IncludeGraph
