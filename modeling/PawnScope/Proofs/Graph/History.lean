import Mathlib.Logic.Relation
import PawnScope.Proofs.Graph.Teardown
/-!
Graphs over time: whatever is asked of a graph, its table of files, its free list and its count
agree with its slots, a node keeps its file, and a handle that has died stays dead although its slot
is used again. Every operation is a chain of three elementary changes (`Change`), and what the
changes keep is `Recorded`. Main result: `run_faithful`.
-/

namespace PawnScope.IncludeGraph

/-! ## Operations -/

/-- What can be asked of a graph. -/
inductive Operation where
  | retain (file : SourceId)
  | releaseFile (file : SourceId)
  | releaseAll (edges : Edges) (start : List Handle)
  | sweep (edges : Edges) (roots : List Handle)

/-- The graph after an operation, and the nodes that the operation deleted. -/
def apply (graph : IncludeGraph) : Operation → Deletion
  | .retain file => ⟨(graph.retain file).graph, []⟩
  | .releaseFile file =>
    let released := graph.releaseFile file
    ⟨released.1, if released.2 then (graph.handleOf? file).toList else []⟩
  | .releaseAll edges start => graph.releaseAll edges start
  | .sweep edges roots => graph.sweep edges roots

/-- A further operation on a graph with a past. -/
def Deletion.perform (past : Deletion) (operation : Operation) : Deletion :=
  let done := past.graph.apply operation
  ⟨done.graph, past.deleted ++ done.deleted⟩

/-- Operations on an empty graph, and all that they delete. -/
def run (operations : List Operation) : Deletion :=
  operations.foldl Deletion.perform ⟨empty, []⟩

/-- An elementary change of a graph with a past. -/
inductive Change : Deletion → Deletion → Prop where
  | retain {graph : IncludeGraph} {deleted : List Handle} (file : SourceId) :
      Change ⟨graph, deleted⟩ ⟨(graph.retain file).graph, deleted⟩
  | lower {graph : IncludeGraph} {deleted : List Handle} {handle : Handle} {node : Node} :
      graph.node? handle = some node → 1 < node.references →
      Change ⟨graph, deleted⟩
        ⟨graph.setNode handle (some { node with references := node.references - 1 }), deleted⟩
  | delete {graph : IncludeGraph} {deleted : List Handle} {handle : Handle} :
      graph.isAlive handle = true →
      Change ⟨graph, deleted⟩ ⟨graph.delete handle, deleted ++ [handle]⟩

/-- Several elementary changes. -/
abbrev Changes : Deletion → Deletion → Prop :=
  Relation.ReflTransGen Change

variable {graph : IncludeGraph} {edges : Edges} {handle : Handle} {file : SourceId}
  {deleted : List Handle} {past later : Deletion}

/-! ## Operations are chains of changes -/

theorem release_changes (graph : IncludeGraph) (handle : Handle) (deleted : List Handle) :
    Changes ⟨graph, deleted⟩
      ⟨(graph.release handle).1, deleted ++ if (graph.release handle).2 then [handle] else []⟩ := by
  cases named : graph.node? handle with
  | none =>
    rw [release_of_dead named]
    simpa using Relation.ReflTransGen.refl
  | some node =>
    rcases Nat.lt_or_ge 1 node.references with more | once
    · rw [release_of_more named more]
      simpa using Relation.ReflTransGen.single (Change.lower named more)
    · rw [release_of_last named once]
      exact .single (.delete (isAlive_iff_node?.mpr ⟨node, named⟩))

namespace Teardown

/-- What several visits change, if each visit only makes changes. -/
theorem visitAll_changes {visit : Teardown → Handle → Teardown} (deleted : List Handle)
    (each : ∀ teardown handle, Changes ⟨teardown.graph, deleted ++ teardown.deleted⟩
      ⟨(visit teardown handle).graph, deleted ++ (visit teardown handle).deleted⟩)
    (handles : List Handle) (teardown : Teardown) :
    Changes ⟨teardown.graph, deleted ++ teardown.deleted⟩
      ⟨(handles.foldl visit teardown).graph,
        deleted ++ (handles.foldl visit teardown).deleted⟩ := by
  induction handles generalizing teardown with
  | nil => exact .refl
  | cons handle rest ih => exact (each teardown handle).trans (ih (visit teardown handle))

theorem visit_changes (edges : Edges) (bound : Nat) (deleted : List Handle) (teardown : Teardown)
    (handle : Handle) :
    Changes ⟨teardown.graph, deleted ++ teardown.deleted⟩
      ⟨(visit edges bound teardown handle).graph,
        deleted ++ (visit edges bound teardown handle).deleted⟩ := by
  induction bound generalizing teardown handle with
  | zero => exact .refl
  | succ bound ih =>
    have released := release_changes teardown.graph handle (deleted ++ teardown.deleted)
    rw [visit]
    split
    · exact .refl
    · cases last : (teardown.graph.release handle).2 with
      | true =>
        rw [last, if_pos rfl, List.append_assoc] at released
        simp only [last, if_true]
        exact released.trans (visitAll_changes deleted ih _ ⟨_, _, _⟩)
      | false =>
        rw [last, if_neg Bool.false_ne_true, List.append_nil] at released
        simpa only [last, Bool.false_eq_true, if_false] using released

end Teardown

theorem foldl_delete_changes {handles : List Handle}
    (alive : ∀ handle ∈ handles, graph.isAlive handle = true) (distinct : handles.Nodup)
    (deleted : List Handle) :
    Changes ⟨graph, deleted⟩ ⟨handles.foldl delete graph, deleted ++ handles⟩ := by
  induction handles generalizing graph deleted with
  | nil => simpa using Relation.ReflTransGen.refl
  | cons first rest ih =>
    have others := ih (alive_of_delete_first alive distinct) (List.nodup_cons.mp distinct).2
      (deleted ++ [first])
    rw [List.append_assoc] at others
    exact .head (.delete (alive first List.mem_cons_self)) others

theorem perform_changes (past : Deletion) (operation : Operation) :
    Changes past (past.perform operation) := by
  obtain ⟨graph, deleted⟩ := past
  cases operation with
  | retain file =>
    simpa [Deletion.perform, apply] using Relation.ReflTransGen.single (Change.retain file)
  | releaseFile file =>
    cases found : graph.handleOf? file with
    | none => simpa [Deletion.perform, apply, releaseFile, found] using Relation.ReflTransGen.refl
    | some handle =>
      simpa [Deletion.perform, apply, releaseFile, found] using release_changes graph handle deleted
  | releaseAll edges start =>
    have visited := Teardown.visitAll_changes deleted
      (Teardown.visit_changes edges (graph.slots.length + 1) deleted) start ⟨graph, [], []⟩
    rw [List.append_nil] at visited
    exact visited
  | sweep edges roots =>
    exact foldl_delete_changes (fun _ orphan => (mem_orphans_iff.mp orphan).1)
      (graph.handles_nodup.filter _) deleted

theorem foldl_perform_changes (operations : List Operation) (past : Deletion) :
    Changes past (operations.foldl Deletion.perform past) := by
  induction operations generalizing past with
  | nil => exact .refl
  | cons operation rest ih => exact (perform_changes past operation).trans (ih _)

theorem run_changes (earlier later : List Operation) :
    Changes (run earlier) (run (earlier ++ later)) := by
  rw [run, run, List.foldl_append]
  exact foldl_perform_changes later _

/-! ## What every change keeps -/

/-- The generation that a slot has come to. -/
def generation? (graph : IncludeGraph) (index : Nat) : Option UInt32 :=
  (graph.slots[index]?).map Slot.generation

/--
Slots have moved on from every handle that died, and never further than there were deletions; the
latter keeps generations from coming round as long as there are fewer deletions than generations.
-/
structure Recorded (past : Deletion) : Prop where
  good : past.graph.WellFormed
  young : past.deleted.length < UInt32.size → ∀ {index generation},
    past.graph.generation? index = some generation → generation.toNat ≤ past.deleted.length
  outlived : past.deleted.length < UInt32.size → ∀ handle ∈ past.deleted,
    ∃ generation, past.graph.generation? handle.index = some generation ∧
      handle.generation < generation

theorem generation?_of_node? {node : Node} (named : graph.node? handle = some node) :
    graph.generation? handle.index = some handle.generation := by
  rw [generation?, node?_eq_some_iff.mp named]
  rfl

theorem generation?_setNode (alive : graph.isAlive handle = true) (content : Option Node)
    (index : Nat) : (graph.setNode handle content).generation? index = graph.generation? index := by
  obtain ⟨node, named⟩ := isAlive_iff_node?.mp alive
  by_cases same : handle.index = index
  · rw [← same, generation?_of_node? named]
    simp [generation?, setNode, index_lt_of_node? named]
  · simp [generation?, setNode, List.getElem?_set_ne same]

theorem generation?_delete (alive : graph.isAlive handle = true) (index : Nat) :
    (graph.delete handle).generation? index =
      if index = handle.index then some (handle.generation + 1) else graph.generation? index := by
  obtain ⟨node, named⟩ := isAlive_iff_node?.mp alive
  by_cases same : index = handle.index
  · simp [generation?, delete, same, index_lt_of_node? named]
  · simp [generation?, delete, same, List.getElem?_set_ne (Ne.symm same)]

/-- A new node takes its slot as it is, or one that begins with generation zero. -/
theorem generation?_create (good : graph.WellFormed) (file : SourceId) (index : Nat) :
    (graph.create file).1.generation? index = graph.generation? index ∨
      (graph.generation? index = none ∧ (graph.create file).1.generation? index = some 0) := by
  cases free : graph.free with
  | nil =>
    rw [create_of_full free]
    rcases Nat.lt_trichotomy index graph.slots.length with inside | equal | outside
    · exact .inl (by simp [generation?, List.getElem?_append_left inside])
    · exact .inr (by simp [generation?, equal])
    · have before : graph.slots[index]? = none := List.getElem?_eq_none (Nat.le_of_lt outside)
      have after : (graph.slots ++ [⟨0, some ⟨file, 1⟩⟩])[index]? = none :=
        List.getElem?_eq_none (by rw [List.length_append, List.length_singleton]; exact outside)
      exact .inl (by rw [generation?, generation?, before, after])
  | cons first rest =>
    obtain ⟨generation, slot⟩ := good.mem_free.mp (free ▸ List.mem_cons_self)
    have inside : first < graph.slots.length := (List.getElem?_eq_some_iff.mp slot).1
    rw [create_of_free free slot]
    by_cases same : first = index
    · subst same
      exact .inl (by rw [generation?, generation?, List.getElem?_set_self inside, slot]; rfl)
    · exact .inl (by simp [generation?, List.getElem?_set_ne same])

theorem generation?_retain (good : graph.WellFormed) (file : SourceId) (index : Nat) :
    (graph.retain file).graph.generation? index = graph.generation? index ∨
      (graph.generation? index = none ∧ (graph.retain file).graph.generation? index = some 0) := by
  cases found : graph.handleOf? file with
  | none =>
    rw [retain_of_absent found]
    exact generation?_create good file index
  | some handle =>
    obtain ⟨node, named, _⟩ := file?_eq_some_iff.mp ((handleOf?_eq_some_iff good).mp found)
    rw [retain_of_known found named]
    exact .inl (generation?_setNode (isAlive_iff_node?.mpr ⟨node, named⟩) _ index)

theorem outlived_dead {generation : UInt32}
    (moved : graph.generation? handle.index = some generation) (older : handle.generation < generation) :
    graph.node? handle = none := by
  rw [Option.eq_none_iff_forall_ne_some]
  intro node named
  rw [generation?_of_node? named] at moved
  cases moved
  exact absurd older (UInt32.lt_irrefl _)

theorem toNat_succ {generation : UInt32} {count : Nat} (few : count + 1 < UInt32.size)
    (young : generation.toNat ≤ count) : (generation + 1).toNat = generation.toNat + 1 := by
  rw [UInt32.toNat_add]
  exact Nat.mod_eq_of_lt (Nat.lt_of_le_of_lt (Nat.succ_le_succ young) few)

theorem Recorded.delete (recorded : Recorded ⟨graph, deleted⟩)
    (alive : graph.isAlive handle = true) :
    Recorded ⟨graph.delete handle, deleted ++ [handle]⟩ := by
  obtain ⟨node, named⟩ := isAlive_iff_node?.mp alive
  have own := generation?_of_node? named
  have fewer : (deleted ++ [handle]).length < UInt32.size → deleted.length + 1 < UInt32.size := by
    rw [List.length_append, List.length_singleton]
    exact id
  have reached : deleted.length + 1 < UInt32.size → handle.generation.toNat ≤ deleted.length :=
    fun few => recorded.young (Nat.lt_of_succ_lt few) own
  have moved : deleted.length + 1 < UInt32.size →
      (handle.generation + 1).toNat = handle.generation.toNat + 1 :=
    fun few => toNat_succ few (reached few)
  refine ⟨recorded.good.delete alive, fun few index generation slot => ?_,
    fun few other dead => ?_⟩
  · have few' := fewer few
    rw [List.length_append, List.length_singleton]
    rw [generation?_delete alive] at slot
    split at slot
    · cases slot
      rw [moved few']
      exact Nat.succ_le_succ (reached few')
    · exact Nat.le_succ_of_le (recorded.young (Nat.lt_of_succ_lt few') slot)
  · have few' := fewer few
    -- The one place where a generation grows, and could come round to a handle that has died.
    have further : handle.generation < handle.generation + 1 :=
      UInt32.lt_iff_toNat_lt.mpr (by rw [moved few']; exact Nat.lt_succ_self _)
    rw [generation?_delete alive]
    rcases List.mem_append.mp dead with early | here
    · obtain ⟨generation, slot, older⟩ := recorded.outlived (Nat.lt_of_succ_lt few') other early
      split
      · next same =>
        rw [same, own] at slot
        cases slot
        exact ⟨_, rfl, UInt32.lt_trans older further⟩
      · exact ⟨generation, slot, older⟩
    · rw [List.mem_singleton.mp here, if_pos rfl]
      exact ⟨_, rfl, further⟩

theorem Change.recorded (change : Change past later) (recorded : Recorded past) :
    Recorded later := by
  cases change with
  | retain file =>
    refine ⟨(retain_gains recorded.good file).good, fun few index generation slot => ?_,
      fun few handle dead => ?_⟩
    · rcases generation?_retain recorded.good file index with same | ⟨_, begins⟩
      · exact recorded.young few (same ▸ slot)
      · rw [begins] at slot
        cases slot
        exact Nat.zero_le _
    · obtain ⟨generation, slot, older⟩ := recorded.outlived few handle dead
      rcases generation?_retain recorded.good file handle.index with same | ⟨absent, _⟩
      · exact ⟨generation, same ▸ slot, older⟩
      · rw [absent] at slot
        cases slot
  | lower named more =>
    have alive := isAlive_iff_node?.mpr ⟨_, named⟩
    refine ⟨recorded.good.setNode named (by omega), fun few index generation slot => ?_,
      fun few handle dead => ?_⟩
    · rw [generation?_setNode alive] at slot
      exact recorded.young few slot
    · rw [generation?_setNode alive]
      exact recorded.outlived few handle dead
  | delete alive => exact recorded.delete alive

theorem Changes.recorded (changes : Changes past later) (recorded : Recorded past) :
    Recorded later := by
  induction changes with
  | refl => exact recorded
  | tail _ change ih => exact change.recorded ih

theorem empty_recorded : Recorded ⟨empty, []⟩ where
  good := empty_wellFormed
  young := by
    intro _ index generation slot
    simp [generation?, empty] at slot
  outlived := fun _ _ dead => nomatch dead

theorem run_recorded (operations : List Operation) : Recorded (run operations) :=
  (foldl_perform_changes operations _).recorded empty_recorded

/-- What a past state says of a later one: what died is recorded, and what lives has its file. -/
structure Continues (past later : Deletion) : Prop where
  recorded : past.deleted ⊆ later.deleted
  file : ∀ {handle file}, past.graph.file? handle = some file →
    handle ∈ later.deleted ∨ later.graph.file? handle = some file

theorem Change.continues (change : Change past later) (good : past.graph.WellFormed) :
    Continues past later := by
  cases change with
  | retain file =>
    exact ⟨List.Subset.refl _, fun known => .inr ((retain_gains good file).keeps known)⟩
  | lower named more =>
    exact ⟨List.Subset.refl _, fun known => .inr ((file?_setNode named _).trans known)⟩
  | @delete _ _ gone alive =>
    refine ⟨List.subset_append_left _ _, fun {handle _} known => ?_⟩
    by_cases same : handle = gone
    · exact .inl (List.mem_append_right _ (List.mem_singleton.mpr same))
    · exact .inr (by rw [file?_delete alive, if_neg same, known])

theorem Changes.continues (changes : Changes past later) (recorded : Recorded past) :
    Continues past later := by
  induction changes with
  | refl => exact ⟨List.Subset.refl _, .inr⟩
  | tail before change ih =>
    have step := change.continues (Changes.recorded before recorded).good
    refine ⟨fun _ dead => step.recorded (ih.recorded dead), fun known => ?_⟩
    rcases ih.file known with dead | known
    · exact .inl (step.recorded dead)
    · exact step.file known

theorem run_continues (earlier later : List Operation) :
    Continues (run earlier) (run (earlier ++ later)) :=
  (run_changes earlier later).continues (run_recorded earlier)

theorem run_dead (operations : List Operation) (few : (run operations).deleted.length < UInt32.size)
    (dead : handle ∈ (run operations).deleted) : (run operations).graph.node? handle = none := by
  obtain ⟨generation, slot, older⟩ := (run_recorded operations).outlived few handle dead
  exact outlived_dead slot older

/-- The table of files, the free list and the count say of a graph what its slots say. -/
structure Faithful (graph : IncludeGraph) : Prop where
  handleOf?_iff : ∀ file handle, graph.handleOf? file = some handle ↔
    ∃ node, graph.node? handle = some node ∧ node.file = file
  file_unique : ∀ one other first second, graph.node? one = some first →
    graph.node? other = some second → first.file = second.file → one = other
  referred : ∀ handle node, graph.node? handle = some node → 1 ≤ node.references
  free_nodup : graph.free.Nodup
  mem_free_iff : ∀ index, index ∈ graph.free ↔
    ∃ generation, graph.slots[index]? = some ⟨generation, none⟩
  size_eq : graph.size = graph.nodes.length

theorem WellFormed.faithful (good : graph.WellFormed) : graph.Faithful where
  handleOf?_iff := fun _ _ => (handleOf?_eq_some_iff good).trans file?_eq_some_iff
  file_unique := fun _ _ _ _ named named' same =>
    good.file_unique (file?_of_node? named) (same ▸ file?_of_node? named')
  referred := fun _ _ => good.positive
  free_nodup := good.free_nodup
  mem_free_iff := fun _ => good.mem_free
  size_eq := good.size_eq

/--
After any operations on an empty graph with fewer deletions than there are generations: the graph is
faithful, a node that was alive has either been deleted or has its file still, and a handle that has
died at any time is dead.
-/
theorem run_faithful (operations : List Operation)
    (few : (run operations).deleted.length < UInt32.size) :
    (run operations).graph.Faithful ∧
    (∀ earlier later, operations = earlier ++ later →
      ∀ handle node, (run earlier).graph.node? handle = some node →
        (handle ∈ (run operations).deleted ∧ (run operations).graph.node? handle = none) ∨
          ∃ node', (run operations).graph.node? handle = some node' ∧ node'.file = node.file) ∧
    (∀ first second third, operations = first ++ second ++ third →
      ∀ handle, (run first).graph.isAlive handle = true →
        (run (first ++ second)).graph.isAlive handle = false →
        (run operations).graph.isAlive handle = false) := by
  refine ⟨(run_recorded operations).good.faithful, ?_, ?_⟩
  · rintro earlier later rfl handle node named
    rcases (run_continues earlier later).file (file?_of_node? named) with dead | known
    · exact .inl ⟨dead, run_dead _ few dead⟩
    · exact .inr (file?_eq_some_iff.mp known)
  · rintro first second third rfl handle alive died
    obtain ⟨file, known⟩ := isAlive_iff_file?.mp alive
    rcases (run_continues first second).file known with dead | known
    · have dead' := (run_continues (first ++ second) third).recorded dead
      rw [isAlive, run_dead _ few dead']
      rfl
    · rw [isAlive_of_file? known] at died
      cases died

/-! ## A slot used three times -/

/-- The second slot is given to a second and to a third file, and swept in the end. -/
def reuse : List Operation :=
  [.retain ⟨"/a.inc".toList⟩, .retain ⟨"/b.inc".toList⟩, .releaseFile ⟨"/b.inc".toList⟩,
    .retain ⟨"/c.inc".toList⟩, .retain ⟨"/a.inc".toList⟩,
    .releaseAll (fun _ => [⟨1, 1⟩]) [⟨1, 0⟩, ⟨0, 0⟩], .releaseAll (fun _ => [⟨1, 1⟩]) [⟨0, 0⟩],
    .retain ⟨"/d.inc".toList⟩, .retain ⟨"/b.inc".toList⟩, .sweep (fun _ => [⟨0, 1⟩]) [⟨0, 1⟩]]

theorem run_faithful_reuse :
    (run reuse).deleted.length < UInt32.size ∧
    (run reuse).graph.Faithful ∧
    (∀ earlier later, reuse = earlier ++ later →
      ∀ handle node, (run earlier).graph.node? handle = some node →
        (handle ∈ (run reuse).deleted ∧ (run reuse).graph.node? handle = none) ∨
          ∃ node', (run reuse).graph.node? handle = some node' ∧ node'.file = node.file) ∧
    (∀ first second third, reuse = first ++ second ++ third →
      ∀ handle, (run first).graph.isAlive handle = true →
        (run (first ++ second)).graph.isAlive handle = false →
        (run reuse).graph.isAlive handle = false) :=
  ⟨by decide, run_faithful reuse (by decide)⟩

example : (run reuse).deleted = [⟨1, 0⟩, ⟨0, 0⟩, ⟨1, 1⟩, ⟨1, 2⟩] := by decide

end PawnScope.IncludeGraph
