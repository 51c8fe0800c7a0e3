import PawnScope.Proofs.Graph.Teardown
import PawnScope.Proofs.Workspace.Linking
/-!
What giving references back does. A teardown takes away what is owed and nothing that is stored, and
the sweep after it takes away what no root leads to. Main results: `releaseAll_torn` and `Sound.sweep`,
that neither of them lets a stored edge die, `sweep_reach`, that whatever is left is led to, and
`release_releases`, which puts the two together.
-/

namespace PawnScope

namespace Workspace

/-- Every live node is led to from an open document or from `extra`. -/
def Covered (workspace : Workspace) (extra : List Handle) : Prop :=
  ∀ handle, workspace.graph.isAlive handle = true →
    Reach workspace.records.edges (workspace.roots ++ extra) handle

/-- Nodes and records are only taken away; a node that is left has its record still. -/
structure Shrinks (before after : Workspace) : Prop where
  search : after.search = before.search
  files : after.files = before.files
  documents : after.documents = before.documents
  file : ∀ {handle x}, after.graph.file? handle = some x → before.graph.file? handle = some x
  record : ∀ {handle}, after.graph.isAlive handle = true →
    after.records.get? handle = before.records.get? handle
  died : ∀ {handle}, before.graph.isAlive handle = true →
    after.graph.isAlive handle = true ∨ after.graph.Vacant handle
  vacant : ∀ {handle}, before.graph.Vacant handle → after.graph.Vacant handle

/-- A workspace without the records of deleted nodes. -/
def less (workspace : Workspace) (graph : IncludeGraph) (deleted : List Handle) : Workspace :=
  { workspace with graph, records := deleted.foldl Table.erase workspace.records }

/-- A teardown under way, with `owed` still to be given back. -/
structure Torn (before : Workspace) (owed : List Handle) (graph : IncludeGraph)
    (deleted : List Handle) : Prop where
  shrinks : Shrinks before (before.less graph deleted)
  sound : Sound (before.less graph deleted) owed

variable {before middle after workspace : Workspace} {owed : List Handle} {graph : IncludeGraph}
  {deleted : List Handle} {handle : Handle} {node : Node}

namespace Shrinks

theorem refl (workspace : Workspace) : Shrinks workspace workspace :=
  ⟨rfl, rfl, rfl, id, fun _ => rfl, .inl, id⟩

theorem alive (shrinks : Shrinks before after) (alive : after.graph.isAlive handle = true) :
    before.graph.isAlive handle = true := by
  obtain ⟨x, named⟩ := IncludeGraph.isAlive_iff_file?.mp alive
  exact IncludeGraph.isAlive_of_file? (shrinks.file named)

theorem trans (first : Shrinks before middle) (second : Shrinks middle after) :
    Shrinks before after where
  search := second.search.trans first.search
  files := second.files.trans first.files
  documents := second.documents.trans first.documents
  file := fun named => first.file (second.file named)
  record := fun alive => (second.record alive).trans (first.record (second.alive alive))
  died := by
    intro handle alive
    rcases first.died alive with alive | vacant
    · exact second.died alive
    · exact .inr (second.vacant vacant)
  vacant := fun vacant => second.vacant (first.vacant vacant)

theorem edges (shrinks : Shrinks before after) (alive : after.graph.isAlive handle = true) :
    after.records.edges handle = before.records.edges handle := by
  rw [RecordTable.edges_eq, RecordTable.edges_eq, shrinks.record alive]

/-- What mirrors its file goes on doing so as long as it is left. -/
theorem mirrors [Alphabets] (shrinks : Shrinks before after) (alive : after.graph.isAlive handle = true)
    (mirrors : Mirrors before handle) : Mirrors after handle := by
  have ⟨file, named, _⟩ := mirrors
  obtain ⟨x, named'⟩ := IncludeGraph.isAlive_iff_file?.mp alive
  have equal : x = file := Option.some.inj ((shrinks.file named').symm.trans named)
  exact mirrors.congr named (equal ▸ named') shrinks.search shrinks.files
    (by rw [shrinks.documents]) (shrinks.record alive)

theorem lower (named : workspace.graph.node? handle = some node) :
    Shrinks workspace { workspace with
      graph := workspace.graph.setNode handle
        (some { node with references := node.references - 1 }) } where
  search := rfl
  files := rfl
  documents := rfl
  file := fun known => IncludeGraph.file?_setNode named _ ▸ known
  record := fun _ => rfl
  died := by
    intro other alive
    obtain ⟨x, known⟩ := IncludeGraph.isAlive_iff_file?.mp alive
    rw [← IncludeGraph.file?_setNode named (node.references - 1)] at known
    exact .inl (IncludeGraph.isAlive_of_file? known)
  vacant := fun vacant => vacant.setNode (IncludeGraph.isAlive_iff_node?.mpr ⟨node, named⟩) _

theorem discard (alive : workspace.graph.isAlive handle = true) :
    Shrinks workspace { workspace with
      graph := workspace.graph.delete handle
      records := workspace.records.erase handle } where
  search := rfl
  files := rfl
  documents := rfl
  file := by
    intro other x named
    rw [IncludeGraph.file?_delete alive] at named
    split at named
    · cases named
    · exact named
  record := by
    intro other alive'
    refine Table.get?_erase_of_ne _ ?_
    rintro rfl
    simp [IncludeGraph.isAlive, IncludeGraph.node?_delete alive] at alive'
  died := by
    intro other alive'
    by_cases same : other = handle
    · rw [same]
      exact .inr (IncludeGraph.delete_vacant alive)
    · rw [IncludeGraph.isAlive, IncludeGraph.node?_delete alive, if_neg same]
      exact .inl alive'
  vacant := fun vacant => vacant.delete alive

end Shrinks

/-! ## Teardown -/

/-- Giving the last reference back takes the node away, and its edges are owed. -/
theorem Sound.discard (sound : Sound workspace (handle :: owed))
    (named : workspace.graph.node? handle = some node) (once : node.references ≤ 1) :
    Sound { workspace with
        graph := workspace.graph.delete handle
        records := workspace.records.erase handle }
      (workspace.records.edges handle ++ owed) := by
  -- the one reference is the one that is owed, so no stored edge is left for it
  have bound := sound.counted named
  rw [List.count_cons_self] at bound
  have unheld : handle ∉ workspace.held := List.count_eq_zero.mp (by omega)
  have erased := sound.erase_record handle
  have unheld' : handle ∉ held { workspace with records := workspace.records.erase handle } := by
    intro member
    refine unheld ?_
    rcases List.mem_append.mp member with root | edge
    · exact List.mem_append_left _ root
    · obtain ⟨entry, left, edge⟩ := Table.mem_gather.mp edge
      exact List.mem_append_right _
        (Table.mem_gather.mpr ⟨entry, (Table.mem_entries_erase.mp left).1, edge⟩)
  have deleted := erased.delete (IncludeGraph.isAlive_iff_node?.mpr ⟨node, named⟩) unheld'
    (Table.get?_erase_self _ _)
  refine deleted.owe_less fun other => ?_
  rw [List.count_append, List.count_append]
  exact Nat.add_le_add_left (List.count_le_count_cons ..) _

namespace Torn

/-- A node that is referred to more than once survives. -/
theorem lower (torn : Torn before (handle :: owed) graph deleted)
    (named : graph.node? handle = some node) (more : 1 < node.references) :
    Torn before owed (graph.setNode handle (some { node with references := node.references - 1 }))
      deleted :=
  ⟨torn.shrinks.trans (Shrinks.lower named), torn.sound.lower named more⟩

theorem delete (torn : Torn before (handle :: owed) graph deleted)
    (named : graph.node? handle = some node) (once : node.references ≤ 1) :
    Torn before (before.records.edges handle ++ owed) (graph.delete handle)
      (deleted ++ [handle]) := by
  have alive : graph.isAlive handle = true := IncludeGraph.isAlive_iff_node?.mpr ⟨node, named⟩
  have edges := torn.shrinks.edges alive
  have discarded := torn.sound.discard named once
  rw [edges] at discarded
  have equal : before.less (graph.delete handle) (deleted ++ [handle]) =
      { before.less graph deleted with
        graph := graph.delete handle
        records := (before.less graph deleted).records.erase handle } := by
    rw [less, List.foldl_append]
    rfl
  constructor
  · rw [equal]
    exact torn.shrinks.trans (Shrinks.discard alive)
  · rw [equal]
    exact discarded

/-- A reference that cannot be given back is forgotten. -/
theorem forget (torn : Torn before (handle :: owed) graph deleted) :
    Torn before owed graph deleted :=
  ⟨torn.shrinks, torn.sound.owe_less fun _ => List.count_le_count_cons ..⟩

/-- What one visit does to what is owed, several visits do in turn. -/
theorem visitAll {bound : Nat}
    (visit : ∀ {teardown : IncludeGraph.Teardown} {handle owed},
      Torn before (handle :: owed) teardown.graph teardown.deleted →
        Torn before owed (teardown.visit before.records.edges bound handle).graph
          (teardown.visit before.records.edges bound handle).deleted)
    (handles : List Handle) (teardown : IncludeGraph.Teardown)
    (torn : Torn before (handles ++ owed) teardown.graph teardown.deleted) :
    Torn before owed
      (handles.foldl (IncludeGraph.Teardown.visit before.records.edges bound) teardown).graph
      (handles.foldl (IncludeGraph.Teardown.visit before.records.edges bound) teardown).deleted := by
  induction handles generalizing teardown with
  | nil => exact torn
  | cons handle rest ih => exact ih _ (visit torn)

/-- One visit of a teardown gives the reference back that is owed for it. -/
theorem visit (bound : Nat) {teardown : IncludeGraph.Teardown}
    (torn : Torn before (handle :: owed) teardown.graph teardown.deleted) :
    Torn before owed (teardown.visit before.records.edges bound handle).graph
      (teardown.visit before.records.edges bound handle).deleted := by
  -- a visit that is cut short or skipped only forgets a reference, which leaves counts too high
  induction bound generalizing teardown handle owed with
  | zero => exact torn.forget
  | succ bound ih =>
    unfold IncludeGraph.Teardown.visit
    split
    · exact torn.forget
    · next open' =>
      have alive : teardown.graph.isAlive handle = true := by
        cases alive : teardown.graph.isAlive handle with
        | true => rfl
        | false => simp [alive] at open'
      obtain ⟨node, named⟩ := IncludeGraph.isAlive_iff_node?.mp alive
      rcases Nat.lt_or_ge 1 node.references with more | once
      · rw [IncludeGraph.release_of_more named more]
        exact torn.lower named more
      · rw [IncludeGraph.release_of_last named once]
        exact visitAll ih _ _ (torn.delete named once)

end Torn

theorem releaseAll_torn (sound : Sound workspace (deleted ++ owed)) :
    Torn workspace owed
      (workspace.graph.releaseAll workspace.records.edges deleted).graph
      (workspace.graph.releaseAll workspace.records.edges deleted).deleted := by
  have start : Torn workspace (deleted ++ owed) workspace.graph [] :=
    ⟨Shrinks.refl workspace, sound⟩
  exact Torn.visitAll (Torn.visit _) deleted ⟨workspace.graph, [], []⟩ start

/-! ## Sweep -/

theorem Shrinks.discard_all {handles : List Handle} (distinct : handles.Nodup)
    (alive : ∀ handle ∈ handles, workspace.graph.isAlive handle = true) :
    Shrinks workspace
      (workspace.less (handles.foldl IncludeGraph.delete workspace.graph) handles) := by
  induction handles generalizing workspace with
  | nil => exact Shrinks.refl workspace
  | cons handle rest ih =>
    exact (Shrinks.discard (alive handle List.mem_cons_self)).trans
      (ih (List.nodup_cons.mp distinct).2 (IncludeGraph.alive_of_delete_first alive distinct))

theorem Shrinks.sweep (workspace : Workspace) (edges : Edges) (roots : List Handle) :
    Shrinks workspace (workspace.less (workspace.graph.sweep edges roots).graph
      (workspace.graph.sweep edges roots).deleted) :=
  Shrinks.discard_all (workspace.graph.orphans_nodup edges roots)
    fun _ orphan => (IncludeGraph.mem_orphans_iff.mp orphan).1

theorem Sound.erase_records (sound : Sound workspace owed) (handles : List Handle) :
    Sound { workspace with records := handles.foldl Table.erase workspace.records } owed := by
  induction handles generalizing workspace with
  | nil => exact sound
  | cons handle rest ih =>
    refine ih ((sound.erase_record handle).owe_less fun other => ?_)
    rw [List.count_append]
    exact Nat.le_add_left _ _

section Kept

variable {edges : Edges} {other : Handle}

theorem root_kept (sound : Sound workspace owed) (root : handle ∈ workspace.roots) :
    handle ∈ workspace.graph.reachable edges workspace.roots :=
  IncludeGraph.mem_reachable_iff.mpr
    (.start (List.mem_filter.mpr ⟨root, sound.root_alive root⟩))

theorem edge_kept (sound : Sound workspace owed)
    (same : ∀ handle, workspace.graph.isAlive handle = true →
      workspace.records.edges handle = edges handle)
    (kept : handle ∈ workspace.graph.reachable edges workspace.roots)
    (edge : other ∈ workspace.records.edges handle) :
    other ∈ workspace.graph.reachable edges workspace.roots := by
  refine IncludeGraph.mem_reachable_iff.mpr ((IncludeGraph.mem_reachable_iff.mp kept).step ?_)
  rw [List.mem_filter, ← same handle (IncludeGraph.reachable_alive kept)]
  exact ⟨edge, sound.edge_alive edge⟩

/-- A record that is not swept away belongs to a node that is kept. -/
theorem record_kept (sound : Sound workspace owed) {record : FileRecord}
    (left : (handle, record) ∈ ((workspace.graph.sweep edges workspace.roots).deleted.foldl
      Table.erase workspace.records).entries) :
    handle ∉ (workspace.graph.sweep edges workspace.roots).deleted ∧
      handle ∈ workspace.graph.reachable edges workspace.roots ∧
      workspace.records.get? handle = some record := by
  have erased := sound.erase_records (workspace.graph.sweep edges workspace.roots).deleted
  have found := (Table.mem_entries_iff erased.records_distinct).mp left
  rw [Table.get?_foldl_erase] at found
  split at found
  · cases found
  · next spared =>
    refine ⟨spared, ?_, found⟩
    cases kept : (workspace.graph.reachable edges workspace.roots).contains handle with
    | true => simpa using kept
    | false =>
      have orphan := IncludeGraph.mem_orphans_iff.mpr ⟨sound.record_alive found, by simpa using kept⟩
      exact absurd orphan spared

/-- What is swept away is not stored by anything that stays. -/
theorem Sound.sweep (sound : Sound workspace owed)
    (same : ∀ handle, workspace.graph.isAlive handle = true →
      workspace.records.edges handle = edges handle) :
    Sound (workspace.less (workspace.graph.sweep edges workspace.roots).graph
      (workspace.graph.sweep edges workspace.roots).deleted) owed := by
  have erased := sound.erase_records (workspace.graph.sweep edges workspace.roots).deleted
  refine erased.replace_graph (IncludeGraph.sweep_wellFormed sound.graph) ?_ ?_ ?_
  · intro handle held
    have kept : handle ∈ workspace.graph.reachable edges workspace.roots := by
      rcases List.mem_append.mp held with root | edge
      · exact root_kept sound root
      · obtain ⟨⟨source, record⟩, left, edge⟩ := Table.mem_gather.mp edge
        obtain ⟨_, kept, found⟩ := record_kept sound left
        refine edge_kept sound same kept ?_
        rw [RecordTable.edges_eq, found]
        exact edge
    have spared : handle ∉ (workspace.graph.sweep edges workspace.roots).deleted :=
      fun orphan => (IncludeGraph.mem_orphans_iff.mp orphan).2 kept
    rw [IncludeGraph.file?, IncludeGraph.node?_sweep, if_neg spared]
    rfl
  · intro entry left
    obtain ⟨spared, kept, _⟩ := record_kept sound left
    rw [IncludeGraph.isAlive, IncludeGraph.node?_sweep, if_neg spared]
    exact IncludeGraph.reachable_alive kept
  · intro handle node named
    rw [IncludeGraph.node?_sweep] at named
    split at named
    · cases named
    · exact erased.counted named

/-- What is left by a sweep is led to. -/
theorem sweep_reach
    (same : ∀ handle, workspace.graph.isAlive handle = true →
      workspace.records.edges handle = edges handle)
    (alive : (workspace.graph.sweep edges workspace.roots).graph.isAlive handle = true) :
    Reach (workspace.less (workspace.graph.sweep edges workspace.roots).graph
      (workspace.graph.sweep edges workspace.roots).deleted).records.edges workspace.roots
      handle := by
  have shrinks := Shrinks.sweep workspace edges workspace.roots
  induction IncludeGraph.mem_reachable_iff.mp (IncludeGraph.isAlive_sweep.mp alive) with
  | start root => exact .start (List.mem_filter.mp root).1
  | @step source target reached edge ih =>
    have kept := IncludeGraph.mem_reachable_iff.mpr reached
    have edge' := (List.mem_filter.mp edge).1
    rw [← same source (IncludeGraph.reachable_alive kept)] at edge'
    refine (ih (IncludeGraph.isAlive_sweep.mpr kept)).step ?_
    rwa [shrinks.edges (IncludeGraph.isAlive_sweep.mpr kept)]

end Kept

/-! ## Release -/

/-- What giving the references `dropped` back does, if there are others that are owed. -/
structure Releases (dropped owed : List Handle) (before after : Workspace) : Prop where
  shrinks : Shrinks before after
  sound : Sound after owed
  covered : Covered before (dropped ++ owed) → Covered after owed

/-- A release is a teardown and a sweep of what it leaves. -/
theorem release_eq (workspace : Workspace) {dropped : List Handle} (some' : dropped ≠ [])
    (released : IncludeGraph.Deletion)
    (equal : workspace.graph.releaseAll workspace.records.edges dropped = released) :
    workspace.release dropped = (workspace.less released.graph released.deleted).less
      (released.graph.sweep workspace.records.edges workspace.roots).graph
      (released.graph.sweep workspace.records.edges workspace.roots).deleted := by
  have filled : dropped.isEmpty = false := by simpa using some'
  rw [release, filled, equal]
  simp only [less, List.foldl_append, Bool.false_eq_true, if_false]

theorem release_releases (sound : Sound workspace (deleted ++ owed)) :
    Releases deleted owed workspace (workspace.release deleted) := by
  cases deleted with
  | nil => exact ⟨Shrinks.refl workspace, sound, id⟩
  | cons first rest =>
    rw [release_eq workspace (List.cons_ne_nil _ _) _ rfl]
    have torn := releaseAll_torn sound
    generalize workspace.graph.releaseAll workspace.records.edges (first :: rest) = released at *
    have same : ∀ handle,
        (workspace.less released.graph released.deleted).graph.isAlive handle = true →
          (workspace.less released.graph released.deleted).records.edges handle =
            workspace.records.edges handle :=
      fun _ alive => torn.shrinks.edges alive
    refine ⟨torn.shrinks.trans (Shrinks.sweep _ _ _), torn.sound.sweep same, ?_⟩
    intro _ handle alive
    exact (sweep_reach same alive).mono (List.subset_append_left _ _) fun _ => List.Subset.refl _

end Workspace

end PawnScope
