import PawnScope.Identifier.European
import PawnScope.Proofs.Workspace.Buffers
/-!
How many references a node has. Taking references is exact: linking takes one for each edge that is
new. Giving them back is not: a teardown takes one reference from a node although several edges to it
may have vanished, and a sweep deletes nodes without giving the references of their edges back. What
is forgotten that way stays in the count as long as the node lives. Main results: `release_surplus`,
for one release, and `run_references`, that the references of a node are the edges to it and what has
been forgotten of it.
-/

namespace PawnScope.Workspace

/-! ## Edges and references -/

/-- How many open documents have an edge to a node, and how many records. -/
def pointers (workspace : Workspace) (handle : Handle) : Nat :=
  workspace.documents.entries.countP (handle ∈ ·.2.record.dependencies) +
    workspace.records.entries.countP (handle ∈ ·.2.dependencies)

/-- The references that no stored edge stands for. -/
def surplus (workspace : Workspace) (handle : Handle) : Nat :=
  workspace.graph.references handle - workspace.held.count handle

variable {workspace : Workspace} {owed owed' old : List Handle} {handle other : Handle}
  {file : SourceId} {text : Text} {record : FileRecord}

theorem count_gather {κ α : Type} {table : Table κ α} {list : α → List Handle}
    (distinct : ∀ entry ∈ table.entries, (list entry.2).Nodup) (handle : Handle) :
    (table.gather list).count handle = table.entries.countP (handle ∈ list ·.2) := by
  obtain ⟨entries⟩ := table
  induction entries with
  | nil => rfl
  | cons entry rest ih =>
    have rest' := ih fun other member => distinct other (List.mem_cons_of_mem _ member)
    have once := distinct entry List.mem_cons_self
    simp only [Table.gather, List.flatMap_cons, List.count_append, List.countP_cons] at rest' ⊢
    rw [rest', once.count]
    simp only [decide_eq_true_eq]
    omega

/-- No edge is stored twice by one document or record, so edges count documents and records. -/
theorem Sound.count_held (sound : Sound workspace owed) (handle : Handle) :
    workspace.held.count handle = workspace.pointers handle := by
  rw [Workspace.count_held, pointers,
    count_gather fun entry member => (sound.documents_tied entry member).nodup,
    count_gather fun entry member => (sound.records_tied entry member).nodup]

theorem Sound.references_eq (sound : Sound workspace owed) (handle : Handle) :
    workspace.graph.references handle =
      workspace.held.count handle + workspace.surplus handle := by
  rw [surplus]
  cases named : workspace.graph.node? handle with
  | none =>
    rw [List.count_eq_zero.mpr (sound.not_held named), IncludeGraph.references_of_none named]
  | some node =>
    have bound := sound.counted named
    rw [IncludeGraph.references_of_node? named]
    omega

theorem surplus_of_dead (dead : ¬workspace.graph.isAlive handle = true) :
    workspace.surplus handle = 0 := by
  have none : workspace.graph.node? handle = none := by
    simpa [IncludeGraph.isAlive] using dead
  rw [surplus, IncludeGraph.references_of_none none, Nat.zero_sub]

/-! ## Taking references -/

/-- A further reference to a file is one more for its node. -/
theorem surplus_retain (sound : Sound workspace owed) (file : SourceId) (other : Handle) :
    surplus { workspace with graph := (workspace.graph.retain file).graph } other =
      workspace.surplus other + [(workspace.graph.retain file).handle].count other := by
  have gains := IncludeGraph.retain_gains sound.graph file
  have balance := sound.references_eq other
  have taken : (workspace.graph.retain file).graph.references other =
      workspace.graph.references other + [(workspace.graph.retain file).handle].count other := by
    by_cases self : other = (workspace.graph.retain file).handle
    · obtain ⟨node, named, _⟩ := IncludeGraph.file?_eq_some_iff.mp gains.named
      rw [self, IncludeGraph.references_of_node? named, gains.references named,
        List.count_singleton_self, IncludeGraph.references]
    · rw [IncludeGraph.references, gains.frame self, List.count_eq_zero.mpr (by simpa using self)]
      rfl
  have held : held { workspace with graph := (workspace.graph.retain file).graph } =
      workspace.held := rfl
  rw [surplus, taken, held]
  omega

theorem count_held_insert_record (sound : Sound workspace owed) (handle : Handle)
    (record : FileRecord) (other : Handle) :
    (held { workspace with records := workspace.records.insert handle record }).count other +
        (workspace.records.edges handle).count other =
      workspace.held.count other + record.dependencies.count other := by
  have erased := sound.records_distinct.count_gather_erase handle FileRecord.dependencies other
  rw [← RecordTable.edges_eq] at erased
  simp only [Workspace.count_held, Table.count_gather_insert]
  omega

theorem count_held_insert_document (sound : Sound workspace owed) (file : SourceId)
    (document : Document) (other : Handle) :
    (held { workspace with documents := workspace.documents.insert file document }).count other +
        (workspace.documentEdges file).count other =
      workspace.held.count other + document.record.dependencies.count other := by
  have erased := sound.documents_distinct.count_gather_erase file
    (fun document => document.record.dependencies) other
  rw [← documentEdges_eq] at erased
  simp only [Workspace.count_held, Table.count_gather_insert]
  omega

theorem count_held_erase_document (sound : Sound workspace owed) (file : SourceId)
    (other : Handle) :
    (held { workspace with documents := workspace.documents.erase file }).count other +
        (workspace.documentEdges file).count other = workspace.held.count other := by
  have erased := sound.documents_distinct.count_gather_erase file
    (fun document => document.record.dependencies) other
  rw [← documentEdges_eq] at erased
  simp only [Workspace.count_held]
  omega

/-- Storing a record uses references up for its edges, and those of the record it replaces are left. -/
theorem surplus_insert_record (sound : Sound workspace owed)
    (sound' : Sound { workspace with records := workspace.records.insert handle record } owed')
    (other : Handle) :
    surplus { workspace with records := workspace.records.insert handle record } other +
        record.dependencies.count other =
      workspace.surplus other + (workspace.records.edges handle).count other := by
  have before := sound.references_eq other
  have after := sound'.references_eq other
  have held := count_held_insert_record sound handle record other
  dsimp only at after
  omega

/-- Loading leaves nothing over: each reference that it takes is stored. -/
def LoadsExactly (load : Workspace → Handle → SourceId → Workspace) : Prop :=
  ∀ {workspace owed handle file}, Sound workspace owed →
    (∀ other ∈ owed, workspace.graph.isAlive other = true) →
    workspace.graph.file? handle = some file → workspace.records.get? handle = none →
    ∀ other, (load workspace handle file).surplus other = workspace.surplus other

/-- A file that no old edge leads to gets a handle that is not an old edge. -/
theorem retain_not_old (sound : Sound workspace owed)
    (alive : ∀ handle ∈ old, workspace.graph.isAlive handle = true)
    (absent : workspace.edgeTo? old file = none) :
    (workspace.graph.retain file).handle ∉ old := by
  intro member
  have gains := IncludeGraph.retain_gains sound.graph file
  obtain ⟨node, named⟩ := IncludeGraph.isAlive_iff_node?.mp (alive _ member)
  have kept := gains.keeps (IncludeGraph.file?_of_node? named)
  have same : node.file = file := Option.some.inj (kept.symm.trans gains.named)
  have unmet := List.find?_eq_none.mp absent _ member
  simp [named, same] at unmet

/-- Linking takes one reference for each edge that is not among the old ones. -/
theorem surplus_link [Alphabets] (old : List Handle) {depth : Nat}
    {load : Workspace → Handle → SourceId → Workspace} (well : LoadsWell depth load)
    (exactly : LoadsExactly load) {targets : List SourceId}
    (sound : Sound workspace owed) (alive : ∀ handle ∈ owed, workspace.graph.isAlive handle = true)
    (known : ∀ handle ∈ old, workspace.graph.isAlive handle = true)
    (listed : targets ⊆ workspace.stored) (other : Handle) :
    (link load old workspace targets).workspace.surplus other = workspace.surplus other +
      ((link load old workspace targets).edges.filter (!old.contains ·)).count other := by
  induction targets generalizing workspace owed with
  | nil => rfl
  | cons target rest ih =>
    obtain ⟨listed, listed'⟩ := List.cons_subset.mp listed
    unfold link
    cases found : workspace.edgeTo? old target with
    | some handle =>
      have kept : handle ∈ old := List.mem_of_find?_eq_some found
      rw [List.filter_cons_of_neg (by simp [kept])]
      exact ih sound alive known listed'
    | none =>
      have first := (Links.fetch well sound alive listed : Links _ old _ _ _ _ _)
      have onward := ih first.sound (first.owed_alive alive)
        (fun handle member => first.grows.alive (known handle member))
        (first.grows.stored.symm ▸ listed')
      have fresh := retain_not_old sound known found
      have gains := IncludeGraph.retain_gains sound.graph target
      have retained := surplus_retain sound target other
      have step : surplus (if (workspace.graph.retain target).isNew then
            load { workspace with graph := (workspace.graph.retain target).graph }
              (workspace.graph.retain target).handle target
          else { workspace with graph := (workspace.graph.retain target).graph }) other =
          surplus { workspace with graph := (workspace.graph.retain target).graph } other := by
        cases new : (workspace.graph.retain target).isNew with
        | false => rfl
        | true =>
          exact exactly (sound.retain alive target) (sound.retained_alive alive target)
            gains.named (sound.no_record (gains.isNew.mp new)) other
      dsimp only at onward ⊢
      rw [List.filter_cons_of_pos (by simpa using fresh), onward, step, retained]
      simp only [List.count_cons, List.count_nil]
      omega

theorem load_loadsExactly [Alphabets] (depth : Nat) : LoadsExactly (load depth) := by
  induction depth with
  | zero => exact fun _ _ _ _ _ => rfl
  | succ depth ih =>
    intro workspace owed handle file sound alive named bare other
    unfold load
    cases text : workspace.currentText? file with
    | none => rfl
    | some content =>
      obtain ⟨fresh, links⟩ := link_links [] (load_loads depth) sound alive
        (workspace.targets_subset file content true)
      have taken := surplus_link [] (load_loads depth) ih sound alive (by simp)
        (workspace.targets_subset file content true) other
      have stored := surplus_insert_record links.sound (links.fill named bare text).sound other
      have edgeless : (link (load depth) [] workspace
          (workspace.outlineRecord file content true).targets).workspace.records.edges handle =
            [] := by
        have alive' := IncludeGraph.isAlive_of_file? named
        rw [RecordTable.edges_eq, links.grows.record alive' (by simp), bare, Option.elim_none]
      -- the references that have been taken are those of the edges that are stored now
      simp only [List.contains_nil, Bool.not_false, List.filter_true] at taken
      rw [edgeless, List.count_nil, Nat.add_zero, taken] at stored
      exact Nat.add_right_cancel stored

/-! ## Building -/

/-- Of two lists without repetitions, one and what only the other has. -/
theorem count_exchange {new : List Handle} (distinct : old.Nodup) (distinct' : new.Nodup)
    (handle : Handle) :
    (new.filter (!old.contains ·)).count handle + old.count handle =
      new.count handle + (old.filter (!new.contains ·)).count handle := by
  by_cases early : handle ∈ old
  · have absent : (new.filter (!old.contains ·)).count handle = 0 :=
      List.count_eq_zero.mpr (by simp [early])
    by_cases late : handle ∈ new
    · have kept : (old.filter (!new.contains ·)).count handle = 0 :=
        List.count_eq_zero.mpr (by simp [late])
      rw [absent, kept, List.count_eq_one_of_mem distinct early,
        List.count_eq_one_of_mem distinct' late]
    · rw [absent, List.count_filter (by simpa using late), List.count_eq_zero.mpr late]
  · have absent : (old.filter (!new.contains ·)).count handle = 0 :=
      List.count_eq_zero.mpr fun member => early (List.mem_of_mem_filter member)
    rw [absent, List.count_filter (by simpa using early), List.count_eq_zero.mpr early]

/-- Building takes a reference for each edge that the record has and did not have before. -/
theorem surplus_build [Alphabets] (sound : Sound workspace owed)
    (alive : ∀ handle ∈ owed, workspace.graph.isAlive handle = true) (file : SourceId)
    (text : Text) (skipStatic : Bool)
    (known : ∀ handle ∈ old, workspace.graph.isAlive handle = true) (distinct : old.Nodup)
    (other : Handle) :
    (workspace.build file text skipStatic old).workspace.surplus other + old.count other =
      workspace.surplus other +
        (workspace.build file text skipStatic old).record.dependencies.count other +
        (workspace.build file text skipStatic old).dropped.count other := by
  have builds := build_builds sound alive file text skipStatic old
  have taken := surplus_link old (load_loads workspace.loadDepth) (load_loadsExactly _) sound alive
    known (workspace.targets_subset file text skipStatic) other
  have exchange := count_exchange distinct builds.tied.nodup other
  rw [builds.dropped]
  have same : (workspace.build file text skipStatic old).workspace.surplus other =
      workspace.surplus other +
        ((workspace.build file text skipStatic old).record.dependencies.filter
          (!old.contains ·)).count other := taken
  omega

/-- When the record of a document has been put in place, the edges that it dropped are left over. -/
theorem surplus_placed [Alphabets] (sound : Sound workspace []) (file : SourceId) (text : Text)
    (other : Handle) :
    ((workspace.build file text false (workspace.documentEdges file)).placed file text).surplus
        other =
      workspace.surplus other +
        (workspace.build file text false (workspace.documentEdges file)).dropped.count other := by
  have distinct : (workspace.documentEdges file).Nodup := by
    rw [documentEdges_eq]
    cases found : workspace.documents.get? file with
    | none => exact List.nodup_nil
    | some document => exact (sound.documents_tied _ (Table.mem_of_get? found)).nodup
  have builds := build_builds sound (by simp) file text false (workspace.documentEdges file)
  have taken := surplus_build sound (by simp) file text false
    (fun _ edge => sound.documentEdge_alive edge) distinct other
  generalize workspace.build file text false (workspace.documentEdges file) = built at *
  obtain ⟨fresh, sound', _⟩ := builds.sound
  have old : built.workspace.documentEdges file = workspace.documentEdges file := by
    rw [documentEdges_eq, documentEdges_eq, builds.grows.documents]
  have held := count_held_insert_document sound' file ⟨.ofText text, built.record⟩ other
  have before := sound'.references_eq other
  have after := (builds.placed_sound text).references_eq other
  have same : (built.placed file text).graph = built.workspace.graph := rfl
  rw [same] at after
  rw [old] at held
  change (built.placed file text).held.count other + _ =
    _ + built.record.dependencies.count other at held
  omega

/-- When the record of a node has been put in place, the edges that it dropped are left over. -/
theorem surplus_refresh [Alphabets] (sound : Sound workspace owed)
    (alive : ∀ handle ∈ owed, workspace.graph.isAlive handle = true) (file : SourceId)
    (text : Text) (other : Handle) :
    (workspace.refresh file text).workspace.surplus other =
      workspace.surplus other + (workspace.refresh file text).dropped.count other := by
  unfold refresh
  cases found : workspace.nodeOf? file with
  | none => rfl
  | some handle =>
    dsimp only
    cases named : workspace.graph.node? handle with
    | none => rfl
    | some node =>
      have distinct : (workspace.records.edges handle).Nodup := by
        rw [RecordTable.edges_eq]
        cases stored : workspace.records.get? handle with
        | none => exact List.nodup_nil
        | some record => exact (sound.record_tied stored).nodup
      have builds := build_builds sound alive node.file text true (workspace.records.edges handle)
      have taken := surplus_build sound alive node.file text true
        (fun _ edge => sound.edge_alive edge) distinct other
      have refreshes := builds.refreshes sound found (IncludeGraph.file?_of_node? named)
      dsimp only
      generalize workspace.build node.file text true (workspace.records.edges handle) = built at *
      obtain ⟨fresh, sound', _⟩ := builds.sound
      have old : built.workspace.records.edges handle = workspace.records.edges handle := by
        rw [RecordTable.edges_eq, RecordTable.edges_eq,
          builds.grows.record (IncludeGraph.isAlive_iff_node?.mpr ⟨node, named⟩) (by simp)]
      have stored := surplus_insert_record sound' refreshes.sound other
      rw [old] at stored
      omega

/-! ## Giving references back -/

/--
The edges to a node that vanish in a release without taking a reference: all but one of those that
are given back or belong to a node that the teardown deletes, and all of those that belong to a node
that is swept away.
-/
def forgotten (workspace : Workspace) (dropped : List Handle) (handle : Handle) : Nat :=
  if dropped.isEmpty then 0
  else
    let released := workspace.graph.releaseAll workspace.records.edges dropped
    let swept := released.graph.sweep workspace.records.edges workspace.roots
    ((dropped ++ released.deleted.flatMap workspace.records.edges).count handle - 1) +
      (swept.deleted.flatMap workspace.records.edges).count handle

theorem count_held_less (sound : Sound workspace owed) (graph : IncludeGraph)
    {deleted : List Handle} (different : deleted.Nodup) (handle : Handle) :
    (workspace.less graph deleted).held.count handle +
        (deleted.flatMap workspace.records.edges).count handle =
      workspace.held.count handle := by
  have fewer := sound.records_distinct.count_gather_foldl_erase different FileRecord.dependencies
    handle
  have edges : workspace.records.edges =
      fun key => (workspace.records.get? key).elim [] FileRecord.dependencies :=
    funext workspace.records.edges_eq
  rw [edges]
  simp only [Workspace.count_held, less]
  omega

/-- What a release leaves over is what was over, and what it forgets. -/
theorem surplus_release {dropped : List Handle} (sound : Sound workspace (dropped ++ owed))
    (alive : (workspace.release dropped).graph.isAlive handle = true) :
    (workspace.release dropped).surplus handle + dropped.count handle =
      workspace.surplus handle + workspace.forgotten dropped handle := by
  have before := sound.references_eq handle
  have after := (release_releases sound).sound.references_eq handle
  cases dropped with
  | nil => rfl
  | cons first rest =>
    have torn := releaseAll_torn sound
    have different := workspace.graph.deleted_nodup workspace.records.edges (first :: rest)
    have taken := @IncludeGraph.references_releaseAll workspace.graph workspace.records.edges handle
      (first :: rest)
    rw [forgotten, if_neg (by simp)]
    rw [release_eq workspace (List.cons_ne_nil _ _) _ rfl] at alive after ⊢
    dsimp only
    generalize workspace.graph.releaseAll workspace.records.edges (first :: rest) = released at *
    have left : (released.graph.sweep workspace.records.edges
        workspace.roots).graph.references handle = released.graph.references handle :=
      IncludeGraph.references_sweep alive
    have distinct := released.graph.orphans_nodup workspace.records.edges workspace.roots
    -- what is swept away had survived the teardown, and so had its edges
    have edges : (released.graph.sweep workspace.records.edges workspace.roots).deleted.flatMap
        (workspace.less released.graph released.deleted).records.edges =
          (released.graph.sweep workspace.records.edges workspace.roots).deleted.flatMap
            workspace.records.edges :=
      List.flatMap_congr fun other orphan =>
        torn.shrinks.edges (IncludeGraph.mem_orphans_iff.mp orphan).1
    have taken := taken (IncludeGraph.reachable_alive (IncludeGraph.isAlive_sweep.mp alive))
    have unheld := count_held_less sound released.graph different handle
    have unheld' := count_held_less torn.sound
      (released.graph.sweep workspace.records.edges workspace.roots).graph distinct handle
    rw [edges] at unheld'
    generalize released.graph.sweep workspace.records.edges workspace.roots = swept at *
    change swept.graph.references handle = _ at after
    rw [List.count_append] at taken ⊢
    omega

/-! ## What has been forgotten -/

/-- What has been forgotten of each node after a release, where `lost` had been before. -/
def lostByRelease (workspace : Workspace) (dropped : List Handle) (lost : Handle → Nat)
    (handle : Handle) : Nat :=
  if (workspace.release dropped).graph.isAlive handle then
    lost handle + workspace.forgotten dropped handle
  else 0

def lostBySettling [Alphabets] (workspace : Workspace) (owed : List Handle) (file : SourceId) (text : Text)
    (lost : Handle → Nat) : Handle → Nat :=
  let refreshed := workspace.refresh file text
  (refreshed.workspace.release owed).lostByRelease refreshed.dropped
    (refreshed.workspace.lostByRelease owed lost)

def lostByOpening [Alphabets] (workspace : Workspace) (file : SourceId) (text : Text)
    (lost : Handle → Nat) :
    Handle → Nat :=
  let built := workspace.build file text false (workspace.documentEdges file)
  (built.placed file text).lostBySettling built.dropped file text lost

def lostByClosing [Alphabets] (workspace : Workspace) (file : SourceId) (lost : Handle → Nat) :
    Handle → Nat :=
  let erased := { workspace with documents := workspace.documents.erase file }
  let lost := erased.lostByRelease (workspace.documentEdges file) lost
  match workspace.files.text? file.toPath with
  | none => lost
  | some text => (workspace.left file).lostBySettling [] file text lost

/-- What has been forgotten of each node after an action. -/
def lostBy [Alphabets] (workspace : Workspace) (lost : Handle → Nat) : Action → Handle → Nat
  | .openWith file text => workspace.lostByOpening file text lost
  | .edit file text =>
    if workspace.isOpen file then workspace.lostByOpening file text lost else lost
  | .close file => if workspace.isOpen file then workspace.lostByClosing file lost else lost
  | .write _ _ => lost
  | .delete _ => lost

/-- What has been forgotten of each node after several actions. -/
def lostAlong [Alphabets] (workspace : Workspace) (lost : Handle → Nat) : List Action → Handle → Nat
  | [] => lost
  | action :: rest => (workspace.perform action).lostAlong (workspace.lostBy lost action) rest

/-- What is left over of the references to a node is owed, or has been forgotten. -/
structure Accounts (workspace : Workspace) (owed : List Handle) (lost : Handle → Nat) : Prop where
  alive : ∀ {handle}, workspace.graph.isAlive handle = true →
    workspace.surplus handle = owed.count handle + lost handle
  dead : ∀ {handle}, ¬workspace.graph.isAlive handle = true → lost handle = 0

namespace Accounts

variable {lost : Handle → Nat}

/-- A handle that is dead owes nothing and has lost nothing. -/
theorem surplus_eq (accounts : Accounts workspace owed lost)
    (alive : ∀ handle ∈ owed, workspace.graph.isAlive handle = true) (handle : Handle) :
    workspace.surplus handle = owed.count handle + lost handle := by
  by_cases here : workspace.graph.isAlive handle = true
  · exact accounts.alive here
  · rw [surplus_of_dead here, accounts.dead here,
      List.count_eq_zero.mpr fun member => here (alive handle member)]

theorem placed [Alphabets] (accounts : Accounts workspace [] lost) (sound : Sound workspace [])
    (file : SourceId) (text : Text) :
    Accounts ((workspace.build file text false (workspace.documentEdges file)).placed file text)
      (workspace.build file text false (workspace.documentEdges file)).dropped lost where
  alive := by
    intro handle _
    rw [surplus_placed sound, accounts.surplus_eq (by simp)]
    simp only [List.count_nil]
    omega
  dead := by
    intro handle dead
    have grows := (build_builds sound (by simp) file text false
      (workspace.documentEdges file)).grows
    exact accounts.dead (mt grows.alive dead)

theorem refresh [Alphabets] (accounts : Accounts workspace owed lost) (sound : Sound workspace owed)
    (alive : ∀ handle ∈ owed, workspace.graph.isAlive handle = true) (file : SourceId)
    (text : Text) :
    Accounts (workspace.refresh file text).workspace
      (owed ++ (workspace.refresh file text).dropped) lost where
  alive := by
    intro handle _
    rw [surplus_refresh sound alive, accounts.surplus_eq alive, List.count_append]
    omega
  dead := fun dead =>
    accounts.dead (mt (refresh_refreshes sound alive file text).grows.alive dead)

theorem release {dropped : List Handle} (accounts : Accounts workspace (dropped ++ owed) lost)
    (sound : Sound workspace (dropped ++ owed)) :
    Accounts (workspace.release dropped) owed (workspace.lostByRelease dropped lost) where
  alive := by
    intro handle alive
    have extra := surplus_release sound alive
    have before := accounts.alive ((release_releases sound).shrinks.alive alive)
    rw [List.count_append] at before
    rw [lostByRelease, if_pos alive]
    omega
  dead := fun dead => if_neg dead

theorem settle [Alphabets] (accounts : Accounts workspace owed lost) (sound : Sound workspace owed)
    (alive : ∀ handle ∈ owed, workspace.graph.isAlive handle = true) (file : SourceId)
    (text : Text) :
    Accounts (workspace.settle owed file text) []
      (workspace.lostBySettling owed file text lost) := by
  have refreshed := accounts.refresh sound alive file text
  have refreshes := refresh_refreshes sound alive file text
  unfold Workspace.settle lostBySettling
  generalize workspace.refresh file text = refreshed' at *
  have first := release_releases refreshes.sound
  have released := refreshed.release refreshes.sound
  rw [← List.append_nil refreshed'.dropped] at released
  exact released.release ((List.append_nil refreshed'.dropped).symm ▸ first.sound)

theorem openWith [Alphabets] (accounts : Accounts workspace [] lost) (sound : Sound workspace [])
    (file : SourceId) (text : Text) :
    Accounts (workspace.openWith file text) [] (workspace.lostByOpening file text lost) := by
  have builds := build_builds sound (by simp) file text false (workspace.documentEdges file)
  rw [openWith_eq]
  exact (accounts.placed sound file text).settle (builds.placed_sound text)
    (builds.dropped_alive sound) file text

/-- A document that is closed owes its edges. -/
theorem erase (accounts : Accounts workspace [] lost) (sound : Sound workspace [])
    (file : SourceId) :
    Accounts { workspace with documents := workspace.documents.erase file }
      (workspace.documentEdges file ++ []) lost where
  alive := by
    intro handle alive
    have left := count_held_erase_document sound file handle
    have before := sound.references_eq handle
    have after := (sound.erase_document file).references_eq handle
    have same := accounts.alive alive
    rw [List.append_nil]
    simp only [List.count_nil] at same
    dsimp only at after
    omega
  dead := accounts.dead

theorem close [Alphabets] {after : Workspace} (accounts : Accounts workspace [] lost)
    (sound : Sound workspace []) (closed : workspace.close file = .ok after) :
    Accounts after [] (workspace.lostByClosing file lost) := by
  have released := (accounts.erase sound file).release (sound.erase_document file)
  unfold lostByClosing
  rcases close_cases sound closed with ⟨text, rfl⟩ | ⟨content, text, rfl⟩
  · rw [text]
    exact released
  · rw [text]
    exact settle released (left_releases sound file).sound (by simp) file content

theorem perform [Alphabets] (accounts : Accounts workspace [] lost) (sound : Sound workspace [])
    (action : Action) : Accounts (workspace.perform action) [] (workspace.lostBy lost action) := by
  cases action with
  | openWith file text => exact accounts.openWith sound file text
  | edit file text =>
    rw [perform_edit, lostBy]
    split
    · exact accounts.openWith sound file text
    · exact accounts
  | close file =>
    rcases perform_close workspace file with ⟨unknown, same⟩ | ⟨isOpen, closed⟩
    · rw [same, lostBy, unknown, if_neg Bool.false_ne_true]
      exact accounts
    · rw [lostBy, isOpen, if_pos rfl]
      exact accounts.close sound closed
  | write path text => exact ⟨accounts.alive, accounts.dead⟩
  | delete path => exact ⟨accounts.alive, accounts.dead⟩

theorem run [Alphabets] (accounts : Accounts workspace [] lost) (settled : Settled workspace)
    (actions : List Action) :
    Accounts (workspace.run actions) [] (workspace.lostAlong lost actions) := by
  induction actions generalizing workspace lost with
  | nil => exact accounts
  | cons action rest ih =>
    exact ih (accounts.perform settled.sound action) (perform_settled settled action)

end Accounts

theorem start_accounts (config : Config) (files : FileStore) :
    Accounts (start config files) [] fun _ => 0 :=
  ⟨fun alive => (nomatch alive), fun _ => rfl⟩

/--
After any run the references of a node are the open documents and the records that have an edge to
it, and what has been forgotten of it since it became a node. So they are never too few, and they are
exact as long as nothing has been forgotten.
-/
theorem run_references [Alphabets] (config : Config) (files : FileStore) (actions : List Action)
    {handle : Handle} {node : Node}
    (named : ((start config files).run actions).graph.node? handle = some node) :
    node.references = ((start config files).run actions).pointers handle +
      (start config files).lostAlong (fun _ => 0) actions handle := by
  have settled := run_settled (start_settled config files) actions
  have accounts := (start_accounts config files).run (start_settled config files) actions
  have extra := accounts.alive (IncludeGraph.isAlive_iff_node?.mpr ⟨node, named⟩)
  have balance := settled.sound.references_eq handle
  rw [List.count_nil, Nat.zero_add] at extra
  rw [IncludeGraph.references_of_node? named, settled.sound.count_held, extra] at balance
  exact balance

/-! ## An edge that is forgotten -/

/-- Two files that include the same third file. -/
def sharedFiles : FileStore :=
  ⟨[(⟨"/inc/a.inc".toList⟩, "#include <shared>".toList),
    (⟨"/inc/b.inc".toList⟩, "#include <shared>".toList),
    (⟨"/inc/shared.inc".toList⟩, "native shared();".toList)]⟩

/-- Both go away at once, while another document still includes the third one. -/
def closeShared : List Action :=
  [.openWith ⟨"/src/one.sma".toList⟩ "#include <a>\n#include <b>".toList,
    .openWith ⟨"/src/two.sma".toList⟩ "#include <shared>".toList,
    .close ⟨"/src/one.sma".toList⟩]

open scoped Identifier.European

/-- Of the two edges that vanish one is forgotten. -/
theorem run_references_shared :
    ∃ node, ((start incConfig sharedFiles).run closeShared).graph.node? ⟨1, 0⟩ = some node ∧
      node.references =
        ((start incConfig sharedFiles).run closeShared).pointers ⟨1, 0⟩ + 1 := by
  have alive : (((start incConfig sharedFiles).run closeShared).graph.node? ⟨1, 0⟩).isSome =
      true := by
    decide +kernel
  obtain ⟨node, named⟩ := Option.isSome_iff_exists.mp alive
  have lost : (start incConfig sharedFiles).lostAlong (fun _ => 0) closeShared ⟨1, 0⟩ = 1 := by
    decide +kernel
  exact ⟨node, named, by rw [run_references incConfig sharedFiles closeShared named, lost]⟩

/-- So the references of a node are not always the edges to it. -/
theorem run_references_not_pointers :
    ¬ ∀ (config : Config) (files : FileStore) (actions : List Action),
      (∀ action ∈ actions, action.keepsFiles = true) →
      ∀ (handle : Handle) (node : Node),
      ((start config files).run actions).graph.node? handle = some node →
      node.references = ((start config files).run actions).pointers handle := by
  intro claimed
  have named : ((start incConfig sharedFiles).run closeShared).graph.node? ⟨1, 0⟩ =
      some ⟨⟨"/inc/shared.inc".toList⟩, 2⟩ := by
    decide +kernel
  have exact' := claimed incConfig sharedFiles closeShared (by decide) ⟨1, 0⟩ _ named
  exact absurd exact' (by decide +kernel)

end PawnScope.Workspace
