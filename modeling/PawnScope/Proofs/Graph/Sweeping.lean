import PawnScope.Proofs.Graph.History
/-!
What a sweep does to a graph that operations have led to: it deletes what no live root leads to, cycles
and what hangs on them included, and does nothing to the rest. `Rooted` is the least set of live nodes
that has the live roots and what the edges of its nodes lead to. Main result: `run_sweep_exact`.
-/

namespace PawnScope.IncludeGraph

variable {graph : IncludeGraph} {edges : Edges} {roots : List Handle} {handle : Handle}
  {file : SourceId}

/-- A path of live nodes leads to the node from a live root. -/
inductive Rooted (graph : IncludeGraph) (edges : Edges) (roots : List Handle) : Handle → Prop where
  | root {handle : Handle} : handle ∈ roots → graph.isAlive handle = true →
      Rooted graph edges roots handle
  | led {other handle : Handle} : Rooted graph edges roots other → handle ∈ edges other →
      graph.isAlive handle = true → Rooted graph edges roots handle

theorem mem_reachable_iff_rooted :
    handle ∈ graph.reachable edges roots ↔ graph.Rooted edges roots handle := by
  rw [mem_reachable_iff]
  constructor
  · intro reached
    induction reached with
    | start root =>
      obtain ⟨root, alive⟩ := List.mem_filter.mp root
      exact .root root alive
    | step _ edge ih =>
      obtain ⟨edge, alive⟩ := List.mem_filter.mp edge
      exact .led ih edge alive
  · intro rooted
    induction rooted with
    | root root alive => exact .start (List.mem_filter.mpr ⟨root, alive⟩)
    | led _ edge alive ih => exact ih.step (List.mem_filter.mpr ⟨edge, alive⟩)

/-- What a sweep makes of the nodes and of the table of files, and which nodes it reports. -/
structure Swept (graph : IncludeGraph) (edges : Edges) (roots : List Handle)
    (swept : Deletion) : Prop where
  mem_deleted_iff : ∀ handle, handle ∈ swept.deleted ↔
    graph.isAlive handle = true ∧ ¬graph.Rooted edges roots handle
  /-- Reported in the order of their slots, so each node once. -/
  slotOrder : swept.deleted.Pairwise fun one two => one.index < two.index
  dead : ∀ handle ∈ swept.deleted, swept.graph.node? handle = none
  untouched : ∀ handle, handle ∉ swept.deleted → swept.graph.node? handle = graph.node? handle
  handleOf?_iff : ∀ file handle, swept.graph.handleOf? file = some handle ↔
    graph.handleOf? file = some handle ∧ handle ∉ swept.deleted

theorem orphans_slotOrder (graph : IncludeGraph) (edges : Edges) (roots : List Handle) :
    (graph.sweep edges roots).deleted.Pairwise fun one two => one.index < two.index := by
  have handles : graph.handles.Pairwise fun one two => one.index < two.index :=
    List.pairwise_map.mpr (nodesFrom_index 0 graph.slots)
  exact handles.filter _

/-- A file leads to the same node as before, as long as that node is left. -/
theorem handleOf?_sweep (good : graph.WellFormed) :
    (graph.sweep edges roots).graph.handleOf? file = some handle ↔
      graph.handleOf? file = some handle ∧ handle ∉ (graph.sweep edges roots).deleted := by
  rw [handleOf?_eq_some_iff (sweep_wellFormed good), handleOf?_eq_some_iff good, file?, node?_sweep,
    file?]
  split
  · next orphan => simp [orphan]
  · next left => simp [left]

theorem sweep_swept (good : graph.WellFormed) (edges : Edges) (roots : List Handle) :
    graph.Swept edges roots (graph.sweep edges roots) where
  mem_deleted_iff := fun handle => by rw [mem_orphans_iff, mem_reachable_iff_rooted]
  slotOrder := orphans_slotOrder graph edges roots
  dead := fun handle orphan => by rw [node?_sweep, if_pos orphan]
  untouched := fun handle left => by rw [node?_sweep, if_neg left]
  handleOf?_iff := fun _ _ => handleOf?_sweep good

/--
After any operations on an empty graph: a sweep deletes the live nodes to which no path of live nodes
leads from a live root, whatever the edges are, and reports them in slot order. Every other handle
names what it named before, with the same file and count, and the table of files leads to it still.
-/
theorem run_sweep_exact (operations : List Operation) (edges : Edges) (roots : List Handle) :
    (run operations).graph.Swept edges roots ((run operations).graph.sweep edges roots) :=
  sweep_swept (run_recorded operations).good edges roots

/-! ## Two cycles -/

/-- Five files in a row. -/
def fiveFiles : List Operation :=
  ["/a.inc", "/b.inc", "/c.inc", "/d.inc", "/e.inc"].map fun file => .retain ⟨file.toList⟩

/-- The first two lead to each other, and so do the next two, which also lead to the first cycle. -/
def twoCycles (handle : Handle) : List Handle :=
  match handle.index with
  | 0 => [⟨1, 0⟩]
  | 1 => [⟨0, 0⟩, ⟨1, 7⟩]
  | 2 => [⟨3, 0⟩, ⟨0, 0⟩]
  | 3 => [⟨2, 0⟩, ⟨1, 0⟩, ⟨4, 0⟩]
  | _ => []

/-- The second cycle goes with what hangs on it, although it refers to the first one. -/
example : ((run fiveFiles).graph.sweep twoCycles [⟨1, 0⟩, ⟨2, 7⟩, ⟨1, 0⟩]).deleted =
    [⟨2, 0⟩, ⟨3, 0⟩, ⟨4, 0⟩] := by decide

end PawnScope.IncludeGraph
