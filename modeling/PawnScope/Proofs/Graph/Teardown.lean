import PawnScope.Graph.Teardown
import PawnScope.Proofs.Graph.Nodes
import PawnScope.Proofs.Graph.Preorder
/-!
What a teardown and a sweep leave of a graph. Main results: `releaseAll_takes` and `mem_taken_iff`,
that a teardown takes one reference, and no more, from each node that it is told of or that a deleted
node leads to, and `isAlive_sweep`, that a sweep leaves the nodes that live nodes lead to from the
roots.
-/

namespace PawnScope

/-- What is left of a node when a reference is taken from it. -/
def Node.lowered (node : Node) : Option Node :=
  if node.references ≤ 1 then none else some { node with references := node.references - 1 }

namespace IncludeGraph

variable {graph : IncludeGraph} {edges : Edges} {roots : List Handle} {handle : Handle}
  {node : Node}

/-! ## Teardown -/

/-- The count of a node; a handle that is dead has none. -/
def references (graph : IncludeGraph) (handle : Handle) : Nat :=
  (graph.node? handle).elim 0 Node.references

theorem references_of_node? (named : graph.node? handle = some node) :
    graph.references handle = node.references := by
  rw [references, named, Option.elim_some]

theorem references_of_none (dead : graph.node? handle = none) : graph.references handle = 0 := by
  rw [references, dead, Option.elim_none]

/-- Whether a node is referred to no more than once, so that taking a reference deletes it. -/
def isLast (graph : IncludeGraph) (handle : Handle) : Bool :=
  (graph.node? handle).any (·.references ≤ 1)

/-- The nodes that a teardown goes on to from a node. -/
def onward (graph : IncludeGraph) (edges : Edges) (handle : Handle) : List Handle :=
  if graph.isLast handle then (edges handle).filter graph.isAlive else []

/-- The nodes that a teardown takes a reference from, in the order in which it does. -/
def taken (graph : IncludeGraph) (edges : Edges) (start : List Handle) : List Handle :=
  preorder (graph.onward edges) (graph.slots.length + 1) [] (start.filter graph.isAlive)

/-- What giving a reference back does to the nodes. -/
theorem node?_release (named : graph.node? handle = some node) (other : Handle) :
    (graph.release handle).1.node? other =
      if other = handle then node.lowered else graph.node? other := by
  have alive : graph.isAlive handle = true := isAlive_iff_node?.mpr ⟨node, named⟩
  rcases Nat.lt_or_ge 1 node.references with more | once
  · rw [release_of_more named more, node?_setNode alive, Node.lowered,
      if_neg (Nat.not_le_of_lt more)]
  · rw [release_of_last named once, node?_delete alive, Node.lowered, if_pos once]

theorem release_deletes (named : graph.node? handle = some node) :
    (graph.release handle).2 = graph.isLast handle := by
  rw [isLast, named]
  rcases Nat.lt_or_ge 1 node.references with more | once
  · simp [release_of_more named more, more]
  · simp [release_of_last named once, once]

namespace Teardown

/-- A teardown of `graph` has taken one reference from each node that it has visited. -/
structure Takes (graph : IncludeGraph) (teardown : Teardown) : Prop where
  node? : ∀ handle, teardown.graph.node? handle =
    if handle ∈ teardown.visited then (graph.node? handle).bind Node.lowered
    else graph.node? handle
  deleted : teardown.deleted = teardown.visited.reverse.filter graph.isLast

variable {teardown : Teardown}

/-- A teardown that has visited one node more. -/
def enter (teardown : Teardown) (handle : Handle) : Teardown :=
  ⟨(teardown.graph.release handle).1, handle :: teardown.visited,
    if (teardown.graph.release handle).2 then teardown.deleted ++ [handle]
    else teardown.deleted⟩

theorem Takes.enter (takes : Takes graph teardown) (fresh : handle ∉ teardown.visited)
    (alive : graph.isAlive handle = true) :
    Takes graph (teardown.enter handle) ∧
      (teardown.graph.release handle).2 = graph.isLast handle := by
  obtain ⟨node, named⟩ := isAlive_iff_node?.mp alive
  have same : teardown.graph.node? handle = graph.node? handle := by
    rw [takes.node?, if_neg fresh]
  have last : (teardown.graph.release handle).2 = graph.isLast handle := by
    rw [release_deletes (same.trans named), isLast, same, isLast]
  refine ⟨⟨fun other => ?_, ?_⟩, last⟩
  · rw [Teardown.enter, node?_release (same.trans named)]
    by_cases self : other = handle
    · simp [self, named]
    · rw [if_neg self, takes.node?]
      simp [self]
  · rw [Teardown.enter, last, takes.deleted]
    cases last' : graph.isLast handle <;> simp [last']

/-- A node that is dead, or has been visited, is passed over. -/
theorem visit_skip (edges : Edges) (bound : Nat) (takes : Takes graph teardown)
    (past : graph.isAlive handle = true → handle ∈ teardown.visited) :
    visit edges bound teardown handle = teardown := by
  cases bound with
  | zero => rfl
  | succ bound =>
    rw [visit, if_pos]
    by_cases member : handle ∈ teardown.visited
    · simp [member]
    · have dead : graph.isAlive handle = false := by
        simpa using mt past member
      rw [isAlive, takes.node?, if_neg member, ← isAlive, dead]
      rfl

theorem visit_enter (edges : Edges) (bound : Nat) (takes : Takes graph teardown)
    (alive : graph.isAlive handle = true) (fresh : handle ∉ teardown.visited) :
    visit edges (bound + 1) teardown handle =
      if graph.isLast handle then
        (edges handle).foldl (visit edges bound) (teardown.enter handle)
      else teardown.enter handle := by
  have alive' : teardown.graph.isAlive handle = true := by
    rw [isAlive, takes.node?, if_neg fresh, ← isAlive, alive]
  have closed : ¬(!teardown.graph.isAlive handle || teardown.visited.contains handle) = true := by
    simp [alive', fresh]
  rw [visit, if_neg closed, ← (takes.enter fresh alive).2, Teardown.enter]
  dsimp only
  cases (teardown.graph.release handle).2 <;> rfl

/-- Visiting some nodes in turn is a walk in preorder. -/
theorem foldl_visit (edges : Edges) (bound : Nat) (handles : List Handle)
    (takes : Takes graph teardown) :
    Takes graph (handles.foldl (visit edges bound) teardown) ∧
      (handles.foldl (visit edges bound) teardown).visited.reverse =
        preorder (graph.onward edges) bound teardown.visited.reverse
          (handles.filter graph.isAlive) := by
  -- on the bound, which both use up in the same places, and inside on the list
  induction bound generalizing handles teardown with
  | zero =>
    have stays : handles.foldl (visit edges 0) teardown = teardown := by
      induction handles with
      | nil => rfl
      | cons _ _ ih => exact ih
    rw [stays]
    exact ⟨takes, rfl⟩
  | succ bound ih =>
    induction handles generalizing teardown with
    | nil => exact ⟨takes, rfl⟩
    | cons handle rest later =>
      rw [List.foldl_cons]
      cases alive : graph.isAlive handle with
      | false =>
        rw [visit_skip edges _ takes (by simp [alive]), List.filter_cons_of_neg (by simp [alive])]
        exact later takes
      | true =>
        rw [List.filter_cons_of_pos alive, preorder_succ, List.foldl_cons]
        by_cases member : handle ∈ teardown.visited
        · rw [visit_skip edges _ takes fun _ => member, if_pos (by simpa using member)]
          exact later takes
        · have unseen : ¬teardown.visited.reverse.contains handle = true := by simpa using member
          rw [visit_enter edges bound takes alive member, if_neg unseen, onward]
          have entered := (takes.enter member alive).1
          have visited : (teardown.enter handle).visited.reverse =
              teardown.visited.reverse ++ [handle] := List.reverse_cons
          cases graph.isLast handle with
          | true =>
            obtain ⟨below, walked⟩ := ih (edges handle) entered
            rw [visited] at walked
            rw [if_pos rfl, if_pos rfl, ← walked]
            exact later below
          | false =>
            have leaf : preorder (graph.onward edges) bound (teardown.visited.reverse ++ [handle])
                [] = teardown.visited.reverse ++ [handle] := by
              cases bound <;> rfl
            rw [if_neg Bool.false_ne_true, if_neg Bool.false_ne_true, leaf, ← visited]
            exact later entered

end Teardown

/-- A teardown takes one reference from each node of `taken`, and deletes those with no other. -/
theorem releaseAll_takes (graph : IncludeGraph) (edges : Edges) (start : List Handle) :
    (∀ handle, (graph.releaseAll edges start).graph.node? handle =
      if handle ∈ graph.taken edges start then (graph.node? handle).bind Node.lowered
      else graph.node? handle) ∧
    (graph.releaseAll edges start).deleted = (graph.taken edges start).filter graph.isLast := by
  have begun : Teardown.Takes graph ⟨graph, [], []⟩ := ⟨fun handle => by simp, rfl⟩
  obtain ⟨takes, walked⟩ := Teardown.foldl_visit edges (graph.slots.length + 1) start begun
  rw [show graph.taken edges start = _ from walked.symm]
  refine ⟨fun handle => ?_, takes.deleted⟩
  rw [releaseAll, takes.node?]
  simp only [List.mem_reverse]

theorem taken_visits (graph : IncludeGraph) (edges : Edges) (start : List Handle) :
    Visits (graph.onward edges) [] (start.filter graph.isAlive) (graph.taken edges start) := by
  have lead : ∀ handle, ∀ other ∈ graph.onward edges handle, graph.isAlive other = true := by
    intro handle other edge
    unfold onward at edge
    split at edge
    · exact (List.mem_filter.mp edge).2
    · cases edge
  refine preorder_visits (graph.isAlive · = true) (fun _ alive _ => mem_handles_iff.mpr alive)
    (fun handle _ other edge => lead handle other edge) _ _ _
    (fun _ member => (List.mem_filter.mp member).2) ?_
  exact Nat.lt_succ_of_le (Nat.le_trans (unseen_le _ _) graph.length_handles_le)

theorem taken_nodup (graph : IncludeGraph) (edges : Edges) (start : List Handle) :
    (graph.taken edges start).Nodup :=
  (graph.taken_visits edges start).nodup List.nodup_nil

/-- A reference is taken from the live nodes among `start`, and those that deleted nodes lead to. -/
theorem mem_taken_iff {start : List Handle} : handle ∈ graph.taken edges start ↔
    graph.isAlive handle = true ∧
      (handle ∈ start ∨
        ∃ other ∈ (graph.releaseAll edges start).deleted, handle ∈ edges other) := by
  rw [(releaseAll_takes graph edges start).2]
  have visits := graph.taken_visits edges start
  constructor
  · intro member
    cases visits.mem_iff.mp member with
    | start member => exact ⟨(List.mem_filter.mp member).2, .inl (List.mem_filter.mp member).1⟩
    | @step other _ reached edge =>
      unfold onward at edge
      split at edge
      · next last =>
        obtain ⟨edge, alive⟩ := List.mem_filter.mp edge
        exact ⟨alive, .inr ⟨other, List.mem_filter.mpr ⟨visits.mem_iff.mpr reached, last⟩, edge⟩⟩
      · cases edge
  · rintro ⟨alive, member | ⟨other, deleted, edge⟩⟩
    · exact visits.mem_iff.mpr (.start (List.mem_filter.mpr ⟨member, alive⟩))
    · obtain ⟨taken, last⟩ := List.mem_filter.mp deleted
      refine visits.mem_iff.mpr ((visits.mem_iff.mp taken).step ?_)
      rw [onward, if_pos last]
      exact List.mem_filter.mpr ⟨edge, alive⟩

theorem deleted_nodup (graph : IncludeGraph) (edges : Edges) (start : List Handle) :
    (graph.releaseAll edges start).deleted.Nodup := by
  rw [(releaseAll_takes graph edges start).2]
  exact (graph.taken_nodup edges start).filter _

/-- A node that lives on loses one reference, however many edges to it vanish. -/
theorem references_releaseAll {start : List Handle}
    (alive : (graph.releaseAll edges start).graph.isAlive handle = true) :
    graph.references handle = (graph.releaseAll edges start).graph.references handle +
      min 1 ((start ++ (graph.releaseAll edges start).deleted.flatMap edges).count handle) := by
  obtain ⟨left, named⟩ := isAlive_iff_node?.mp alive
  rw [references_of_node? named]
  rw [(releaseAll_takes graph edges start).1] at named
  split at named
  · next member =>
    obtain ⟨node, before, lowered⟩ := Option.bind_eq_some_iff.mp named
    unfold Node.lowered at lowered
    split at lowered
    · cases lowered
    · next more =>
      cases lowered
      have vanished : 0 < (start ++
          (graph.releaseAll edges start).deleted.flatMap edges).count handle := by
        rw [List.count_pos_iff, List.mem_append, List.mem_flatMap]
        exact (mem_taken_iff.mp member).2
      rw [references_of_node? before]
      dsimp only
      omega
  · next spared =>
    have alive' := isAlive_iff_node?.mpr ⟨left, named⟩
    have kept : (start ++
        (graph.releaseAll edges start).deleted.flatMap edges).count handle = 0 := by
      rw [List.count_eq_zero, List.mem_append, List.mem_flatMap]
      exact fun vanished => spared (mem_taken_iff.mpr ⟨alive', vanished⟩)
    rw [references_of_node? named, kept]
    rfl

/-! ## Sweep -/

theorem mem_reachable_iff :
    handle ∈ graph.reachable edges roots ↔
      Reach (fun handle => (edges handle).filter graph.isAlive) (roots.filter graph.isAlive)
        handle := by
  have visits : Visits (fun handle => (edges handle).filter graph.isAlive) []
      (roots.filter graph.isAlive) (graph.reachable edges roots) := by
    refine preorder_visits (graph.isAlive · = true) (fun _ alive _ => mem_handles_iff.mpr alive)
      (fun _ _ _ edge => (List.mem_filter.mp edge).2) _ _ _
      (fun _ root => (List.mem_filter.mp root).2) ?_
    exact Nat.lt_succ_of_le (Nat.le_trans (unseen_le _ _) graph.length_handles_le)
  exact visits.mem_iff

theorem reachable_alive (reached : handle ∈ graph.reachable edges roots) :
    graph.isAlive handle = true :=
  (mem_reachable_iff.mp reached).of_closed (fun _ root => (List.mem_filter.mp root).2)
    (fun _ _ _ edge => (List.mem_filter.mp edge).2)

theorem mem_orphans_iff :
    handle ∈ (graph.sweep edges roots).deleted ↔
      graph.isAlive handle = true ∧ handle ∉ graph.reachable edges roots := by
  simp [sweep, mem_handles_iff]

theorem orphans_nodup (graph : IncludeGraph) (edges : Edges) (roots : List Handle) :
    (graph.sweep edges roots).deleted.Nodup :=
  graph.handles_nodup.filter _

theorem node?_sweep :
    (graph.sweep edges roots).graph.node? handle =
      if handle ∈ (graph.sweep edges roots).deleted then none else graph.node? handle :=
  node?_foldl_delete (fun _ orphan => (mem_orphans_iff.mp orphan).1)
    (graph.orphans_nodup edges roots)

theorem isAlive_sweep :
    (graph.sweep edges roots).graph.isAlive handle = true ↔
      handle ∈ graph.reachable edges roots := by
  rw [isAlive, node?_sweep]
  constructor
  · intro alive
    split at alive
    · cases alive
    · next spared =>
      cases kept : (graph.reachable edges roots).contains handle with
      | true => simpa using kept
      | false => exact absurd (mem_orphans_iff.mpr ⟨alive, by simpa using kept⟩) spared
  · intro kept
    rw [if_neg fun orphan => (mem_orphans_iff.mp orphan).2 kept]
    exact reachable_alive kept

/-- A sweep takes no reference from a node that it leaves. -/
theorem references_sweep (alive : (graph.sweep edges roots).graph.isAlive handle = true) :
    (graph.sweep edges roots).graph.references handle = graph.references handle := by
  have spared : handle ∉ (graph.sweep edges roots).deleted :=
    fun orphan => (mem_orphans_iff.mp orphan).2 (isAlive_sweep.mp alive)
  rw [references, node?_sweep, if_neg spared, references]

theorem sweep_wellFormed (good : graph.WellFormed) :
    (graph.sweep edges roots).graph.WellFormed :=
  good.foldl_delete (fun _ orphan => (mem_orphans_iff.mp orphan).1)
    (graph.orphans_nodup edges roots)

end IncludeGraph

end PawnScope
