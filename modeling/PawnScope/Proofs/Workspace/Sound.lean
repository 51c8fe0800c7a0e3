import PawnScope.Proofs.Graph.Nodes
import PawnScope.Proofs.Table
import PawnScope.Workspace.Edit
/-!
The invariant of a workspace between and inside its operations. Stored edges follow the text: one for
each included file, alive and of that file. A node is referred to at least as often as edges to it
are stored, and as often as references to it are owed: taken but not stored yet, or no longer stored
but not given back yet. That counts never fall below this is why no stored edge dies.
-/

namespace PawnScope

/-- One edge for each included file, in the order of first inclusion, alive and of that file. -/
def FileRecord.Tied (record : FileRecord) (graph : IncludeGraph) : Prop :=
  record.dependencies.map graph.file? = record.targets.map some

namespace FileRecord

variable {record : FileRecord} {graph graph' : IncludeGraph} {handle : Handle}

theorem targets_nodup (record : FileRecord) : record.targets.Nodup :=
  Table.nodup_eraseDups _

theorem Tied.nodup (tied : record.Tied graph) : record.dependencies.Nodup := by
  have distinct : (record.dependencies.map graph.file?).Nodup := by
    rw [tied]
    exact record.targets_nodup.map fun _ _ same => Option.some.inj same
  exact distinct.of_map _

theorem Tied.alive (tied : record.Tied graph) (member : handle ∈ record.dependencies) :
    graph.isAlive handle = true := by
  have listed : graph.file? handle ∈ record.targets.map some :=
    tied ▸ List.mem_map_of_mem member
  obtain ⟨file, _, named⟩ := List.mem_map.mp listed
  exact IncludeGraph.isAlive_of_file? named.symm

/-- Edges stay tied as long as their nodes keep their files. -/
theorem Tied.congr (tied : record.Tied graph)
    (same : ∀ handle ∈ record.dependencies, graph'.file? handle = graph.file? handle) :
    record.Tied graph' := by
  rw [Tied, ← tied]
  exact List.map_congr_left same

end FileRecord

theorem RecordTable.edges_eq (records : RecordTable) (handle : Handle) :
    records.edges handle = (records.get? handle).elim [] FileRecord.dependencies := by
  unfold RecordTable.edges
  cases records.get? handle <;> rfl

namespace Workspace

/-- The edges that documents and records store. -/
def held (workspace : Workspace) : List Handle :=
  workspace.roots ++ workspace.records.gather FileRecord.dependencies

theorem roots_eq (workspace : Workspace) :
    workspace.roots = workspace.documents.gather fun document => document.record.dependencies :=
  rfl

theorem count_held (workspace : Workspace) (handle : Handle) :
    workspace.held.count handle =
      (workspace.documents.gather fun document => document.record.dependencies).count handle +
        (workspace.records.gather FileRecord.dependencies).count handle := by
  rw [held, roots_eq, List.count_append]

theorem documentEdges_eq (workspace : Workspace) (file : SourceId) :
    workspace.documentEdges file =
      (workspace.documents.get? file).elim [] fun document => document.record.dependencies := by
  unfold documentEdges
  cases workspace.documents.get? file <;> rfl

/-- The invariant; `owed` are the references that no stored edge stands for. -/
structure Sound (workspace : Workspace) (owed : List Handle) : Prop where
  graph : workspace.graph.WellFormed
  documents_distinct : workspace.documents.Distinct
  records_distinct : workspace.records.Distinct
  alive : ∀ entry ∈ workspace.records.entries, workspace.graph.isAlive entry.1 = true
  documents_tied : ∀ entry ∈ workspace.documents.entries, entry.2.record.Tied workspace.graph
  records_tied : ∀ entry ∈ workspace.records.entries, entry.2.Tied workspace.graph
  counted : ∀ {handle node}, workspace.graph.node? handle = some node →
    workspace.held.count handle + owed.count handle ≤ node.references

theorem start_sound (config : Config) (files : FileStore) : Sound (start config files) [] where
  graph := IncludeGraph.empty_wellFormed
  documents_distinct := Table.empty_distinct
  records_distinct := Table.empty_distinct
  alive := fun _ member => absurd member List.not_mem_nil
  documents_tied := fun _ member => absurd member List.not_mem_nil
  records_tied := fun _ member => absurd member List.not_mem_nil
  counted := fun _ => Nat.zero_le _

variable {workspace : Workspace} {owed owed' : List Handle} {handle other : Handle} {file : SourceId}
  {record : FileRecord}

namespace Sound

theorem owe_less (sound : Sound workspace owed)
    (fewer : ∀ handle, owed'.count handle ≤ owed.count handle) : Sound workspace owed' :=
  { sound with
    counted := fun {handle _} named =>
      Nat.le_trans (Nat.add_le_add_left (fewer handle) _) (sound.counted named) }

theorem record_tied (sound : Sound workspace owed)
    (found : workspace.records.get? handle = some record) : record.Tied workspace.graph :=
  sound.records_tied _ (Table.mem_of_get? found)

theorem record_alive (sound : Sound workspace owed)
    (found : workspace.records.get? handle = some record) :
    workspace.graph.isAlive handle = true :=
  sound.alive _ (Table.mem_of_get? found)

theorem no_record (sound : Sound workspace owed) (dead : workspace.graph.node? handle = none) :
    workspace.records.get? handle = none := by
  cases found : workspace.records.get? handle with
  | none => rfl
  | some record =>
    exact absurd (sound.record_alive found) (IncludeGraph.not_alive_of_none dead)

theorem edge_alive (sound : Sound workspace owed) (edge : other ∈ workspace.records.edges handle) :
    workspace.graph.isAlive other = true := by
  rw [RecordTable.edges_eq] at edge
  cases found : workspace.records.get? handle with
  | none => simp [found] at edge
  | some record =>
    rw [found] at edge
    exact (sound.record_tied found).alive edge

theorem root_alive (sound : Sound workspace owed) (root : handle ∈ workspace.roots) :
    workspace.graph.isAlive handle = true := by
  obtain ⟨entry, member, edge⟩ := List.mem_flatMap.mp root
  exact (sound.documents_tied entry member).alive edge

theorem documentEdge_alive (sound : Sound workspace owed)
    (edge : handle ∈ workspace.documentEdges file) : workspace.graph.isAlive handle = true := by
  rw [documentEdges_eq] at edge
  cases found : workspace.documents.get? file with
  | none => simp [found] at edge
  | some document =>
    rw [found] at edge
    exact (sound.documents_tied _ (Table.mem_of_get? found)).alive edge

/-! ## Changing the graph -/

/-- The stored edges stay what they are if the graph keeps the files of their nodes. -/
theorem replace_graph (sound : Sound workspace owed) {graph : IncludeGraph}
    (good : graph.WellFormed)
    (same : ∀ handle ∈ workspace.held, graph.file? handle = workspace.graph.file? handle)
    (alive : ∀ entry ∈ workspace.records.entries, graph.isAlive entry.1 = true)
    (counted : ∀ {handle node}, graph.node? handle = some node →
      workspace.held.count handle + owed'.count handle ≤ node.references) :
    Sound { workspace with graph } owed' where
  graph := good
  documents_distinct := sound.documents_distinct
  records_distinct := sound.records_distinct
  alive := alive
  documents_tied := fun entry member =>
    (sound.documents_tied entry member).congr fun handle edge =>
      same handle (List.mem_append_left _ (List.mem_flatMap.mpr ⟨entry, member, edge⟩))
  records_tied := fun entry member =>
    (sound.records_tied entry member).congr fun handle edge =>
      same handle (List.mem_append_right _ (Table.mem_gather.mpr ⟨entry, member, edge⟩))
  counted := counted

theorem held_alive (sound : Sound workspace owed) (held : handle ∈ workspace.held) :
    workspace.graph.isAlive handle = true := by
  rcases List.mem_append.mp held with root | edge
  · exact sound.root_alive root
  · obtain ⟨entry, member, edge⟩ := Table.mem_gather.mp edge
    exact (sound.records_tied entry member).alive edge

theorem not_held (sound : Sound workspace owed)
    (dead : workspace.graph.node? handle = none) : handle ∉ workspace.held :=
  fun held => IncludeGraph.not_alive_of_none dead (sound.held_alive held)

/-- A further reference is owed until it is stored. -/
theorem retain (sound : Sound workspace owed)
    (alive : ∀ handle ∈ owed, workspace.graph.isAlive handle = true) (file : SourceId) :
    Sound { workspace with graph := (workspace.graph.retain file).graph }
      ((workspace.graph.retain file).handle :: owed) := by
  have gains := IncludeGraph.retain_gains sound.graph file
  refine sound.replace_graph gains.good ?_ ?_ ?_
  · intro other held
    obtain ⟨x, named⟩ := IncludeGraph.isAlive_iff_file?.mp (sound.held_alive held)
    rw [named, gains.keeps named]
  · intro entry member
    obtain ⟨x, named⟩ := IncludeGraph.isAlive_iff_file?.mp (sound.alive entry member)
    exact IncludeGraph.isAlive_of_file? (gains.keeps named)
  · intro other node named
    by_cases self : other = (workspace.graph.retain file).handle
    · rw [self] at named ⊢
      rw [gains.references named, List.count_cons_self]
      cases before : workspace.graph.node? (workspace.graph.retain file).handle with
      | none =>
        -- nothing stored or owed names a node that is new, so its one reference is enough
        have unheld := List.count_eq_zero.mpr (sound.not_held before)
        have unowed : owed.count (workspace.graph.retain file).handle = 0 :=
          List.count_eq_zero.mpr fun member =>
            IncludeGraph.not_alive_of_none before (alive _ member)
        rw [unheld, unowed]
        exact Nat.le_refl 1
      | some node' =>
        have bound := sound.counted before
        simp only [Option.elim_some]
        omega
    · rw [gains.frame self] at named
      rw [List.count_cons_of_ne (Ne.symm self)]
      exact sound.counted named

/-- The node that gains the reference is alive, and what was owed stays alive. -/
theorem retained_alive (sound : Sound workspace owed)
    (alive : ∀ handle ∈ owed, workspace.graph.isAlive handle = true) (file : SourceId) :
    ∀ handle ∈ (workspace.graph.retain file).handle :: owed,
      (workspace.graph.retain file).graph.isAlive handle = true := by
  have gains := IncludeGraph.retain_gains sound.graph file
  intro handle member
  rcases List.mem_cons.mp member with rfl | member
  · exact IncludeGraph.isAlive_of_file? gains.named
  · obtain ⟨x, named⟩ := IncludeGraph.isAlive_iff_file?.mp (alive handle member)
    exact IncludeGraph.isAlive_of_file? (gains.keeps named)

/-- Giving one reference back that is not the last. -/
theorem lower (sound : Sound workspace (handle :: owed)) {node : Node}
    (named : workspace.graph.node? handle = some node) (more : 1 < node.references) :
    Sound { workspace with
      graph := workspace.graph.setNode handle
        (some { node with references := node.references - 1 }) } owed := by
  refine sound.replace_graph (sound.graph.setNode named (by omega)) ?_ ?_ ?_
  · exact fun _ _ => IncludeGraph.file?_setNode named _
  · intro entry member
    obtain ⟨x, named'⟩ := IncludeGraph.isAlive_iff_file?.mp (sound.alive entry member)
    refine IncludeGraph.isAlive_iff_file?.mpr ⟨x, ?_⟩
    rw [IncludeGraph.file?_setNode named, named']
  · intro other node' named'
    rw [IncludeGraph.node?_setNode (IncludeGraph.isAlive_iff_node?.mpr ⟨node, named⟩)] at named'
    by_cases self : other = handle
    · rw [if_pos self] at named'
      cases named'
      have bound := sound.counted named
      rw [List.count_cons_self] at bound
      rw [self]
      simp only
      omega
    · rw [if_neg self] at named'
      have bound := sound.counted named'
      rwa [List.count_cons_of_ne (Ne.symm self)] at bound

/-- Deleting a node that no stored edge names and that has no record. -/
theorem delete (sound : Sound workspace owed) (alive : workspace.graph.isAlive handle = true)
    (unheld : handle ∉ workspace.held) (bare : workspace.records.get? handle = none) :
    Sound { workspace with graph := workspace.graph.delete handle } owed := by
  refine sound.replace_graph (sound.graph.delete alive) ?_ ?_ ?_
  · intro other held
    rw [IncludeGraph.file?_delete alive, if_neg]
    rintro rfl
    exact unheld held
  · intro entry member
    have differ : entry.1 ≠ handle := by
      intro same
      have found : workspace.records.get? entry.1 = some entry.2 :=
        (Table.mem_entries_iff sound.records_distinct).mp member
      rw [same, bare] at found
      cases found
    obtain ⟨x, named⟩ := IncludeGraph.isAlive_iff_file?.mp (sound.alive entry member)
    refine IncludeGraph.isAlive_iff_file?.mpr ⟨x, ?_⟩
    rw [IncludeGraph.file?_delete alive, if_neg differ, named]
  · intro other node named
    rw [IncludeGraph.node?_delete alive] at named
    split at named
    · cases named
    · exact sound.counted named

/-! ## Changing what is stored -/

/-- A record is stored. Its edges are paid for by those of the one in its place and by what is owed. -/
theorem insert_record (sound : Sound workspace owed)
    (alive : workspace.graph.isAlive handle = true) (tied : record.Tied workspace.graph)
    (paid : ∀ other, record.dependencies.count other + owed'.count other ≤
      (workspace.records.edges handle).count other + owed.count other) :
    Sound { workspace with records := workspace.records.insert handle record } owed' where
  graph := sound.graph
  documents_distinct := sound.documents_distinct
  records_distinct := sound.records_distinct.insert handle record
  alive := by
    intro entry member
    rcases Table.mem_entries_insert member with rfl | member
    · exact alive
    · exact sound.alive entry member
  documents_tied := sound.documents_tied
  records_tied := by
    intro entry member
    rcases Table.mem_entries_insert member with rfl | member
    · exact tied
    · exact sound.records_tied entry member
  counted := by
    intro other node named
    have bound := sound.counted named
    have erased :=
      sound.records_distinct.count_gather_erase handle FileRecord.dependencies other
    rw [← RecordTable.edges_eq] at erased
    have covered := paid other
    simp only [count_held, Table.count_gather_insert] at bound ⊢
    omega

/-- A record is dropped; its edges are owed from now on. -/
theorem erase_record (sound : Sound workspace owed) (handle : Handle) :
    Sound { workspace with records := workspace.records.erase handle }
      (workspace.records.edges handle ++ owed) where
  graph := sound.graph
  documents_distinct := sound.documents_distinct
  records_distinct := sound.records_distinct.erase handle
  alive := fun entry member => sound.alive entry (Table.mem_entries_erase.mp member).1
  documents_tied := sound.documents_tied
  records_tied := fun entry member => sound.records_tied entry (Table.mem_entries_erase.mp member).1
  counted := by
    intro other node named
    have bound := sound.counted named
    have erased :=
      sound.records_distinct.count_gather_erase handle FileRecord.dependencies other
    rw [← RecordTable.edges_eq] at erased
    simp only [count_held, List.count_append] at bound ⊢
    omega

/-- A document is stored, and its edges are paid for in the same way. -/
theorem insert_document {document : Document} (sound : Sound workspace owed)
    (tied : document.record.Tied workspace.graph)
    (paid : ∀ other, document.record.dependencies.count other + owed'.count other ≤
      (workspace.documentEdges file).count other + owed.count other) :
    Sound { workspace with documents := workspace.documents.insert file document } owed' where
  graph := sound.graph
  documents_distinct := sound.documents_distinct.insert file document
  records_distinct := sound.records_distinct
  alive := sound.alive
  documents_tied := by
    intro entry member
    rcases Table.mem_entries_insert member with rfl | member
    · exact tied
    · exact sound.documents_tied entry member
  records_tied := sound.records_tied
  counted := by
    intro other node named
    have bound := sound.counted named
    have erased := sound.documents_distinct.count_gather_erase file
      (fun document => document.record.dependencies) other
    rw [← documentEdges_eq] at erased
    have covered := paid other
    simp only [count_held, Table.count_gather_insert] at bound ⊢
    omega

/-- A document is closed; its edges are owed from now on. -/
theorem erase_document (sound : Sound workspace owed) (file : SourceId) :
    Sound { workspace with documents := workspace.documents.erase file }
      (workspace.documentEdges file ++ owed) where
  graph := sound.graph
  documents_distinct := sound.documents_distinct.erase file
  records_distinct := sound.records_distinct
  alive := sound.alive
  documents_tied := fun entry member =>
    sound.documents_tied entry (Table.mem_entries_erase.mp member).1
  records_tied := sound.records_tied
  counted := by
    intro other node named
    have bound := sound.counted named
    have erased := sound.documents_distinct.count_gather_erase file
      (fun document => document.record.dependencies) other
    rw [← documentEdges_eq] at erased
    simp only [count_held, List.count_append] at bound ⊢
    omega

end Sound

end Workspace

end PawnScope
