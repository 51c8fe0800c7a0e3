import PawnScope.Proofs.Graph.History
/-!
What a teardown does to a graph that operations have led to, said without the order in which it goes:
`Loses` is the least set of nodes that it takes a reference from, and nothing but membership in the
start and in the edges decides about it. Main result: `run_releaseAll_exact`.
-/

namespace PawnScope.IncludeGraph

variable {graph : IncludeGraph} {edges edges' : Edges} {start start' : List Handle}
  {handle : Handle}

/--
A teardown takes a reference from the live nodes that it is told of, and from the live nodes that it is
led to by a node which has no other reference.
-/
inductive Loses (graph : IncludeGraph) (edges : Edges) (start : List Handle) : Handle → Prop where
  | told {handle : Handle} : handle ∈ start → graph.isAlive handle = true →
      Loses graph edges start handle
  | led {other handle : Handle} : Loses graph edges start other → graph.references other = 1 →
      handle ∈ edges other → graph.isAlive handle = true → Loses graph edges start handle

/-- Neither order nor repetition matters for what loses a reference. -/
theorem Loses.congr (loses : graph.Loses edges start handle)
    (told : ∀ other, other ∈ start ↔ other ∈ start')
    (led : ∀ node other, other ∈ edges node ↔ other ∈ edges' node) :
    graph.Loses edges' start' handle := by
  induction loses with
  | told member alive => exact .told ((told _).mp member) alive
  | led _ once edge alive ih => exact .led ih once ((led _ _).mp edge) alive

/-- A node that is referred to at most once is referred to once. -/
theorem isLast_iff (good : graph.WellFormed) :
    graph.isLast handle = true ↔ graph.references handle = 1 := by
  rw [isLast, references]
  cases named : graph.node? handle with
  | none => simp
  | some node =>
    have positive := good.positive named
    simp only [Option.any_some, Option.elim_some, decide_eq_true_eq]
    omega

theorem mem_taken_iff_loses (good : graph.WellFormed) :
    handle ∈ graph.taken edges start ↔ graph.Loses edges start handle := by
  rw [(graph.taken_visits edges start).mem_iff]
  constructor
  · intro reached
    induction reached with
    | start member =>
      obtain ⟨told, alive⟩ := List.mem_filter.mp member
      exact .told told alive
    | @step other handle _ edge ih =>
      rw [onward] at edge
      split at edge
      · next last =>
        obtain ⟨edge, alive⟩ := List.mem_filter.mp edge
        exact .led ih ((isLast_iff good).mp last) edge alive
      · cases edge
  · intro loses
    induction loses with
    | told member alive => exact .start (List.mem_filter.mpr ⟨member, alive⟩)
    | led _ once edge alive ih =>
      refine ih.step ?_
      rw [onward, if_pos ((isLast_iff good).mpr once)]
      exact List.mem_filter.mpr ⟨edge, alive⟩

/-- What a teardown makes of the nodes, and which of them it reports. -/
structure TornDown (graph : IncludeGraph) (edges : Edges) (start : List Handle)
    (torn : Deletion) : Prop where
  last : ∀ handle, graph.Loses edges start handle → graph.references handle = 1 →
    torn.graph.node? handle = none
  shared : ∀ handle node, graph.Loses edges start handle → graph.node? handle = some node →
    1 < node.references →
      torn.graph.node? handle = some { node with references := node.references - 1 }
  untouched : ∀ handle, ¬graph.Loses edges start handle →
    torn.graph.node? handle = graph.node? handle
  deleted_nodup : torn.deleted.Nodup
  mem_deleted_iff : ∀ handle, handle ∈ torn.deleted ↔
    graph.isAlive handle = true ∧ torn.graph.isAlive handle = false

theorem node?_releaseAll_of_loses (good : graph.WellFormed)
    (loses : graph.Loses edges start handle) :
    (graph.releaseAll edges start).graph.node? handle =
      (graph.node? handle).bind Node.lowered := by
  rw [(releaseAll_takes graph edges start).1, if_pos ((mem_taken_iff_loses good).mpr loses)]

theorem node?_releaseAll_of_not_loses (good : graph.WellFormed)
    (spared : ¬graph.Loses edges start handle) :
    (graph.releaseAll edges start).graph.node? handle = graph.node? handle := by
  rw [(releaseAll_takes graph edges start).1, if_neg (mt (mem_taken_iff_loses good).mp spared)]

theorem mem_deleted_iff_loses (good : graph.WellFormed) :
    handle ∈ (graph.releaseAll edges start).deleted ↔
      graph.Loses edges start handle ∧ graph.references handle = 1 := by
  rw [(releaseAll_takes graph edges start).2, List.mem_filter, mem_taken_iff_loses good,
    isLast_iff good]

theorem releaseAll_last (good : graph.WellFormed) (loses : graph.Loses edges start handle)
    (once : graph.references handle = 1) :
    (graph.releaseAll edges start).graph.node? handle = none := by
  rw [node?_releaseAll_of_loses good loses]
  cases named : graph.node? handle with
  | none => rfl
  | some node =>
    rw [references_of_node? named] at once
    rw [Option.bind_some, Node.lowered, if_pos (Nat.le_of_eq once)]

theorem releaseAll_shared (good : graph.WellFormed) (loses : graph.Loses edges start handle)
    {node : Node} (named : graph.node? handle = some node) (more : 1 < node.references) :
    (graph.releaseAll edges start).graph.node? handle =
      some { node with references := node.references - 1 } := by
  rw [node?_releaseAll_of_loses good loses, named, Option.bind_some, Node.lowered,
    if_neg (Nat.not_le_of_lt more)]

theorem releaseAll_tornDown (good : graph.WellFormed) (edges : Edges) (start : List Handle) :
    graph.TornDown edges start (graph.releaseAll edges start) where
  last := fun _ loses once => releaseAll_last good loses once
  shared := fun _ _ loses named more => releaseAll_shared good loses named more
  untouched := fun _ spared => node?_releaseAll_of_not_loses good spared
  deleted_nodup := deleted_nodup graph edges start
  mem_deleted_iff := by
    intro handle
    rw [mem_deleted_iff_loses good]
    constructor
    · rintro ⟨loses, once⟩
      have alive : graph.isAlive handle = true := by
        cases loses <;> assumption
      exact ⟨alive, by rw [isAlive, releaseAll_last good loses once]; rfl⟩
    · rintro ⟨alive, dead⟩
      obtain ⟨node, named⟩ := isAlive_iff_node?.mp alive
      have loses : graph.Loses edges start handle := by
        by_contra spared
        rw [isAlive, node?_releaseAll_of_not_loses good spared, ← isAlive, alive] at dead
        cases dead
      refine ⟨loses, ?_⟩
      rw [references_of_node? named]
      rcases Nat.lt_or_ge 1 node.references with more | once
      · rw [isAlive, releaseAll_shared good loses named more] at dead
        cases dead
      · exact Nat.le_antisymm once (good.positive named)

/-- A teardown does the same to the nodes whatever the order and repetition of what it is given. -/
theorem releaseAll_congr (good : graph.WellFormed) (told : ∀ other, other ∈ start ↔ other ∈ start')
    (led : ∀ node other, other ∈ edges node ↔ other ∈ edges' node) :
    (∀ handle, (graph.releaseAll edges start).graph.node? handle =
      (graph.releaseAll edges' start').graph.node? handle) ∧
    (graph.releaseAll edges start).deleted.Perm (graph.releaseAll edges' start').deleted := by
  have same : ∀ handle, graph.Loses edges start handle ↔ graph.Loses edges' start' handle :=
    fun handle => ⟨fun loses => loses.congr told led,
      fun loses => loses.congr (fun other => (told other).symm) fun node other =>
        (led node other).symm⟩
  constructor
  · intro handle
    by_cases loses : graph.Loses edges start handle
    · rw [node?_releaseAll_of_loses good loses,
        node?_releaseAll_of_loses good ((same handle).mp loses)]
    · rw [node?_releaseAll_of_not_loses good loses,
        node?_releaseAll_of_not_loses good (mt (same handle).mpr loses)]
  · refine (List.perm_ext_iff_of_nodup (deleted_nodup _ _ _) (deleted_nodup _ _ _)).mpr ?_
    intro handle
    rw [mem_deleted_iff_loses good, mem_deleted_iff_loses good, same]

/--
After any operations on an empty graph: a teardown deletes the nodes that lose their only reference,
takes one reference from the others that lose one, leaves all other nodes as they are, and reports what
it has deleted, each node once; and neither the order nor the repetition of the start list or of the edge
lists matters for any of this.
-/
theorem run_releaseAll_exact (operations : List Operation) (edges : Edges) (start : List Handle) :
    (run operations).graph.TornDown edges start ((run operations).graph.releaseAll edges start) ∧
    ∀ (edges' : Edges) (start' : List Handle), (∀ handle, handle ∈ start ↔ handle ∈ start') →
      (∀ node handle, handle ∈ edges node ↔ handle ∈ edges' node) →
      (∀ handle, ((run operations).graph.releaseAll edges start).graph.node? handle =
        ((run operations).graph.releaseAll edges' start').graph.node? handle) ∧
      ((run operations).graph.releaseAll edges start).deleted.Perm
        ((run operations).graph.releaseAll edges' start').deleted := by
  have good := (run_recorded operations).good
  exact ⟨releaseAll_tornDown good edges start, fun _ _ told led => releaseAll_congr good told led⟩

/-! ## A cycle that leads out of itself -/

/-- Three files, of which the last is referred to twice. -/
def threeFiles : List Operation :=
  [.retain ⟨"/a.inc".toList⟩, .retain ⟨"/b.inc".toList⟩, .retain ⟨"/c.inc".toList⟩,
    .retain ⟨"/c.inc".toList⟩]

/-- The first two lead to each other, and both to the third, one of them twice. -/
def cyclicEdges (handle : Handle) : List Handle :=
  match handle.index with
  | 0 => [⟨1, 0⟩, ⟨2, 0⟩, ⟨2, 0⟩]
  | 1 => [⟨2, 0⟩, ⟨0, 0⟩]
  | _ => []

theorem run_releaseAll_exact_cyclic :
    ((run threeFiles).graph.releaseAll cyclicEdges [⟨0, 0⟩, ⟨0, 7⟩, ⟨0, 0⟩]).deleted =
      [⟨0, 0⟩, ⟨1, 0⟩] ∧
    (run threeFiles).graph.TornDown cyclicEdges [⟨0, 0⟩, ⟨0, 7⟩, ⟨0, 0⟩]
      ((run threeFiles).graph.releaseAll cyclicEdges [⟨0, 0⟩, ⟨0, 7⟩, ⟨0, 0⟩]) ∧
    (∀ handle,
      ((run threeFiles).graph.releaseAll cyclicEdges [⟨0, 0⟩, ⟨0, 7⟩, ⟨0, 0⟩]).graph.node? handle =
        ((run threeFiles).graph.releaseAll (List.reverse ∘ cyclicEdges)
          [⟨0, 7⟩, ⟨0, 0⟩]).graph.node? handle) ∧
    ((run threeFiles).graph.releaseAll cyclicEdges [⟨0, 0⟩, ⟨0, 7⟩, ⟨0, 0⟩]).deleted.Perm
      ((run threeFiles).graph.releaseAll (List.reverse ∘ cyclicEdges) [⟨0, 7⟩, ⟨0, 0⟩]).deleted :=
  ⟨by decide, (run_releaseAll_exact threeFiles cyclicEdges _).1,
    (run_releaseAll_exact threeFiles cyclicEdges _).2 (List.reverse ∘ cyclicEdges) [⟨0, 7⟩, ⟨0, 0⟩]
      (fun handle => by simp; tauto) (fun node handle => by simp)⟩

end PawnScope.IncludeGraph
