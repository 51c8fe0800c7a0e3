import PawnScope.Proofs.Graph.Preorder
import PawnScope.Proofs.Path.Normal
import PawnScope.Proofs.Workspace.Sound
/-!
What linking and loading do. Nodes and records are only added, whatever is new is led to by the new
edges, and its record says what the present text of its file says. The last needs that loading goes
deep enough, which it does: each file on a path of new nodes is a file of the store that had no node.
Main results: `load_loads`, for every depth, and `build_builds`, for the depth that is enough.
-/

namespace PawnScope

/-- A record without its edges. -/
def FileRecord.unlinked (record : FileRecord) : FileRecord :=
  { record with dependencies := [] }

/-- A record with its edges. -/
def FileRecord.linkedTo (record : FileRecord) (edges : List Handle) : FileRecord :=
  { record with dependencies := edges }

namespace Workspace

/-! ## Files of the store -/

/-- The ids of the files behind a workspace. -/
def stored (workspace : Workspace) : List SourceId :=
  workspace.files.entries.map fun entry => .ofPath entry.1

/-- The files that have no node. -/
def unread (workspace : Workspace) : List SourceId :=
  workspace.stored.filter fun file => (workspace.graph.handleOf? file).isNone

/-- The record of a node says what the present text of its file says, its edges apart. -/
def Mirrors [Alphabets] (workspace : Workspace) (handle : Handle) : Prop :=
  ∃ file, workspace.graph.file? handle = some file ∧
    (workspace.records.get? handle).map FileRecord.unlinked =
      (workspace.currentText? file).map fun text => workspace.outlineRecord file text true

/-- What an inclusion is resolved to is a file of the store. -/
theorem mem_stored_of_contains {workspace : Workspace} {path : Path}
    (contained : workspace.files.contains path = true) :
    SourceId.ofPath path ∈ workspace.stored := by
  unfold FileStore.contains FileStore.text? at contained
  cases found : workspace.files.entries.find? (·.1.sameAs path) with
  | none => simp [found] at contained
  | some entry =>
    have same : entry.1.components = path.components := by
      simpa [Path.sameAs] using List.find?_some found
    rw [← SourceId.ofPath_congr same]
    exact List.mem_map_of_mem (List.mem_of_find?_eq_some found)

theorem targets_subset [Alphabets] (workspace : Workspace) (file : SourceId) (text : Text)
    (skipStatic : Bool) :
    (workspace.outlineRecord file text skipStatic).targets ⊆ workspace.stored := by
  intro target member
  rw [FileRecord.targets, List.mem_eraseDups] at member
  obtain ⟨found, listed, rfl⟩ := List.mem_map.mp member
  obtain ⟨inclusion, _, resolved⟩ := List.mem_filterMap.mp listed
  unfold SearchPath.resolve at resolved
  split at resolved
  · next path first =>
    cases resolved
    exact mem_stored_of_contains (List.find?_some first)
  · cases resolved

variable {before middle after workspace : Workspace} {owed owed' old : List Handle}
  {handle other : Handle} {file : SourceId}

/-- A record depends on where files are searched and on which there are. -/
theorem outlineRecord_congr [Alphabets] (search : after.search = before.search)
    (files : after.files = before.files) : after.outlineRecord = before.outlineRecord := by
  funext file text skipStatic
  rw [outlineRecord, outlineRecord, search, files]

theorem currentText?_congr {x : SourceId} (files : after.files = before.files)
    (documents : after.documents.get? x = before.documents.get? x) :
    after.currentText? x = before.currentText? x := by
  rw [currentText?, currentText?, documents, files]

/-- What mirrors its file goes on doing so if nothing that it depends on changes. -/
theorem Mirrors.congr [Alphabets] {x : SourceId} (mirrors : Mirrors before handle)
    (was : before.graph.file? handle = some x) (named : after.graph.file? handle = some x)
    (search : after.search = before.search) (files : after.files = before.files)
    (documents : after.documents.get? x = before.documents.get? x)
    (record : after.records.get? handle = before.records.get? handle) :
    Mirrors after handle := by
  obtain ⟨file, known, same⟩ := mirrors
  rw [was] at known
  cases known
  refine ⟨x, named, ?_⟩
  rw [record, same, currentText?_congr files documents, outlineRecord_congr search files]

/-! ## Growing -/

/--
Nodes and records are only added. Of the nodes that were there before only `filled` may have another
record.
-/
structure Grows (filled : Option Handle) (before after : Workspace) : Prop where
  search : after.search = before.search
  files : after.files = before.files
  documents : after.documents = before.documents
  keeps : ∀ {handle x}, before.graph.file? handle = some x → after.graph.file? handle = some x
  named : ∀ {handle x}, after.graph.file? handle = some x →
    before.graph.file? handle = some x ∨ x ∈ before.stored
  record : ∀ {handle}, before.graph.isAlive handle = true → filled ≠ some handle →
    after.records.get? handle = before.records.get? handle
  past : ∀ {handle}, before.graph.Past handle → after.graph.Past handle

namespace Grows

variable {filled : Option Handle}

theorem refl (filled : Option Handle) (workspace : Workspace) : Grows filled workspace workspace :=
  ⟨rfl, rfl, rfl, id, .inl, fun _ _ => rfl, id⟩

theorem alive (grows : Grows filled before after)
    (alive : before.graph.isAlive handle = true) : after.graph.isAlive handle = true := by
  obtain ⟨x, named⟩ := IncludeGraph.isAlive_iff_file?.mp alive
  exact IncludeGraph.isAlive_of_file? (grows.keeps named)

theorem stored (grows : Grows filled before after) : after.stored = before.stored := by
  rw [Workspace.stored, Workspace.stored, grows.files]

theorem weaken (grows : Grows none before after) : Grows filled before after :=
  { grows with record := fun alive _ => grows.record alive (by simp) }

theorem trans (first : Grows filled before middle) (second : Grows filled middle after) :
    Grows filled before after where
  search := second.search.trans first.search
  files := second.files.trans first.files
  documents := second.documents.trans first.documents
  keeps := fun known => second.keeps (first.keeps known)
  named := by
    intro handle x known
    rcases second.named known with known | listed
    · exact first.named known
    · exact .inr (first.stored ▸ listed)
  record := fun alive unfilled =>
    (second.record (first.alive alive) unfilled).trans (first.record alive unfilled)
  past := fun past => second.past (first.past past)

/-- A node that is new to begin with may be filled. -/
theorem trans_filled (first : Grows none before middle) (second : Grows (some handle) middle after)
    (dead : before.graph.node? handle = none) : Grows none before after where
  search := second.search.trans first.search
  files := second.files.trans first.files
  documents := second.documents.trans first.documents
  keeps := fun known => second.keeps (first.keeps known)
  named := by
    intro handle x known
    rcases second.named known with known | listed
    · exact first.named known
    · exact .inr (first.stored ▸ listed)
  record := by
    intro other alive unfilled
    have differ : some handle ≠ some other := by
      intro same
      rw [← Option.some.inj same] at alive
      exact IncludeGraph.not_alive_of_none dead alive
    exact (second.record (first.alive alive) differ).trans (first.record alive unfilled)
  past := fun past => second.past (first.past past)

theorem retain (sound : Sound workspace owed) (listed : file ∈ workspace.stored) :
    Grows none workspace { workspace with graph := (workspace.graph.retain file).graph } where
  search := rfl
  files := rfl
  documents := rfl
  keeps := by
    intro handle x known
    exact (IncludeGraph.retain_gains sound.graph file).keeps known
  named := by
    intro handle x known
    have gains := IncludeGraph.retain_gains sound.graph file
    by_cases self : handle = (workspace.graph.retain file).handle
    · rw [self, gains.named] at known
      cases known
      exact .inr listed
    · rw [IncludeGraph.file?, gains.frame self] at known
      exact .inl known
  record := fun _ _ => rfl
  past := fun past => (IncludeGraph.retain_gains sound.graph file).past past

/-- Storing a record. -/
theorem insert_record (workspace : Workspace) (handle : Handle) (record : FileRecord) :
    Grows (some handle) workspace
      { workspace with records := workspace.records.insert handle record } where
  search := rfl
  files := rfl
  documents := rfl
  keeps := id
  named := .inl
  record := by
    intro other _ differ
    exact Table.get?_insert_of_ne _ _ fun same => differ (congrArg some same.symm)
  past := id

/-- Growing leads nowhere less. -/
theorem edges_subset (grows : Grows none before after) (sound : Sound before owed)
    (handle : Handle) : before.records.edges handle ⊆ after.records.edges handle := by
  cases found : before.records.get? handle with
  | none =>
    rw [RecordTable.edges_eq, found]
    exact List.nil_subset _
  | some record =>
    have same := grows.record (sound.record_alive found) (by simp)
    rw [RecordTable.edges_eq, RecordTable.edges_eq, same]
    exact List.Subset.refl _

theorem reach (grows : Grows none before after) (sound : Sound before owed)
    {start start' : List Handle} (more : start ⊆ start')
    (reached : Reach before.records.edges start handle) :
    Reach after.records.edges start' handle :=
  reached.mono more (grows.edges_subset sound)

theorem currentText? (grows : Grows filled before after) (file : SourceId) :
    after.currentText? file = before.currentText? file :=
  currentText?_congr grows.files (by rw [grows.documents])

theorem outlineRecord [Alphabets] (grows : Grows filled before after) :
    after.outlineRecord = before.outlineRecord :=
  outlineRecord_congr grows.search grows.files

/-- What mirrors its file goes on doing so, if its record is left alone. -/
theorem mirrors [Alphabets] (grows : Grows filled before after) (unfilled : filled ≠ some handle)
    (mirrors : Mirrors before handle) : Mirrors after handle := by
  have ⟨_, known, _⟩ := mirrors
  exact mirrors.congr known (grows.keeps known) grows.search grows.files (by rw [grows.documents])
    (grows.record (IncludeGraph.isAlive_of_file? known) unfilled)

theorem handleOf?_isNone (grows : Grows filled before after) (sound : Sound before owed)
    (sound' : Sound after owed') (absent : (after.graph.handleOf? file).isNone = true) :
    (before.graph.handleOf? file).isNone = true := by
  rw [Option.isNone_iff_eq_none, IncludeGraph.handleOf?_eq_none_iff sound'.graph] at absent
  rw [Option.isNone_iff_eq_none, IncludeGraph.handleOf?_eq_none_iff sound.graph]
  exact fun handle known => absent handle (grows.keeps known)

theorem unread_le (grows : Grows filled before after) (sound : Sound before owed)
    (sound' : Sound after owed') : after.unread.length ≤ before.unread.length := by
  rw [unread, grows.stored]
  refine (List.monotone_filter_right before.stored ?_).length_le
  exact fun file absent => grows.handleOf?_isNone sound sound' absent

end Grows

/-- A file of the store that gets its first node is not unread any more. -/
theorem unread_retain_lt (sound : Sound workspace owed)
    (alive : ∀ handle ∈ owed, workspace.graph.isAlive handle = true)
    (listed : file ∈ workspace.stored) (absent : workspace.graph.handleOf? file = none) :
    (unread { workspace with graph := (workspace.graph.retain file).graph }).length <
      workspace.unread.length := by
  have sound' := sound.retain alive file
  have grows := Grows.retain sound listed
  have known := (IncludeGraph.handleOf?_eq_some_iff sound'.graph).mpr
    (IncludeGraph.retain_gains sound.graph file).named
  have fewer : unread { workspace with graph := (workspace.graph.retain file).graph } =
      workspace.unread.filter fun other =>
        ((workspace.graph.retain file).graph.handleOf? other).isNone := by
    rw [unread, unread, List.filter_filter, grows.stored]
    refine List.filter_congr fun other _ => ?_
    cases after : ((workspace.graph.retain file).graph.handleOf? other).isNone with
    | false => rfl
    | true => rw [grows.handleOf?_isNone sound sound' after, Bool.and_self]
  rw [fewer, List.length_filter_lt_length_iff_exists]
  exact ⟨file, List.mem_filter.mpr ⟨listed, by simp [absent]⟩, by simp [known]⟩

/-! ## Linking -/

/--
What linking to `targets` does, next to edges `old` that are kept: `fresh` are the references that it
takes. Whatever is new is led to, and mirrors its file if loading may go deep enough.
-/
structure Links [Alphabets] (depth : Nat) (old owed : List Handle) (before : Workspace)
    (targets : List SourceId) (fresh : List Handle) (linked : Linked) : Prop where
  grows : Grows none before linked.workspace
  sound : Sound linked.workspace (fresh ++ owed)
  tied : linked.edges.map linked.workspace.graph.file? = targets.map some
  fresh_subset : fresh ⊆ linked.edges
  edges_subset : linked.edges ⊆ old ++ fresh
  reached : ∀ {handle}, linked.workspace.graph.isAlive handle = true →
    before.graph.isAlive handle = true ∨
      Reach linked.workspace.records.edges linked.edges handle
  mirrors : before.unread.length ≤ depth → ∀ {handle},
    linked.workspace.graph.isAlive handle = true →
      before.graph.isAlive handle = true ∨ Mirrors linked.workspace handle

/-- What loading the file of a new node does. -/
structure Loads [Alphabets] (depth : Nat) (owed : List Handle) (before : Workspace) (handle : Handle)
    (after : Workspace) : Prop where
  grows : Grows (some handle) before after
  sound : Sound after owed
  reached : ∀ {other}, after.graph.isAlive other = true →
    before.graph.isAlive other = true ∨ Reach after.records.edges [handle] other
  mirrors : before.unread.length < depth → ∀ {other}, after.graph.isAlive other = true →
    (before.graph.isAlive other = true ∧ other ≠ handle) ∨ Mirrors after other

/-- Loading does that to every new node. -/
def LoadsWell [Alphabets] (depth : Nat) (load : Workspace → Handle → SourceId → Workspace) : Prop :=
  ∀ {workspace owed handle file}, Sound workspace owed →
    (∀ other ∈ owed, workspace.graph.isAlive other = true) →
    workspace.graph.file? handle = some file → workspace.records.get? handle = none →
    Loads depth owed workspace handle (load workspace handle file)

namespace Links

variable {depth : Nat} {targets targets' : List SourceId} {fresh fresh' : List Handle}
  {linked linked' : Linked}

theorem nil [Alphabets] (sound : Sound workspace owed) :
    Links depth old owed workspace [] [] ⟨workspace, []⟩ where
  grows := Grows.refl none workspace
  sound := sound
  tied := rfl
  fresh_subset := List.nil_subset _
  edges_subset := List.nil_subset _
  reached := .inl
  mirrors := fun _ _ alive => .inl alive

/-- An edge that is there already is kept. -/
theorem keep [Alphabets] (sound : Sound workspace owed) (found : workspace.edgeTo? old file = some handle) :
    Links depth old owed workspace [file] [] ⟨workspace, [handle]⟩ where
  grows := Grows.refl none workspace
  sound := sound
  tied := by
    obtain ⟨node, named, same⟩ : ∃ node, workspace.graph.node? handle = some node ∧
        node.file = file := by
      simpa [Option.any_eq_true] using List.find?_some found
    simp [IncludeGraph.file?, named, same]
  fresh_subset := List.nil_subset _
  edges_subset := by
    simpa using List.mem_of_find?_eq_some found
  reached := .inl
  mirrors := fun _ _ alive => .inl alive

theorem edge_alive [Alphabets] (links : Links depth old owed before targets fresh linked)
    (edge : handle ∈ linked.edges) : linked.workspace.graph.isAlive handle = true := by
  have listed : linked.workspace.graph.file? handle ∈ targets.map some :=
    links.tied ▸ List.mem_map_of_mem edge
  obtain ⟨file, _, named⟩ := List.mem_map.mp listed
  exact IncludeGraph.isAlive_of_file? named.symm

theorem owed_alive [Alphabets] (links : Links depth old owed before targets fresh linked)
    (alive : ∀ handle ∈ owed, before.graph.isAlive handle = true) :
    ∀ handle ∈ fresh ++ owed, linked.workspace.graph.isAlive handle = true := by
  intro handle member
  rcases List.mem_append.mp member with new | member
  · exact links.edge_alive (links.fresh_subset new)
  · exact links.grows.alive (alive handle member)

/-- Linking to a file that no old edge leads to: its node gains a reference, and is loaded if new. -/
theorem fetch [Alphabets] {load : Workspace → Handle → SourceId → Workspace} (loads : LoadsWell depth load)
    (sound : Sound workspace owed) (alive : ∀ handle ∈ owed, workspace.graph.isAlive handle = true)
    (listed : file ∈ workspace.stored) :
    Links depth old owed workspace [file] [(workspace.graph.retain file).handle]
      ⟨if (workspace.graph.retain file).isNew then
          load { workspace with graph := (workspace.graph.retain file).graph }
            (workspace.graph.retain file).handle file
        else { workspace with graph := (workspace.graph.retain file).graph },
        [(workspace.graph.retain file).handle]⟩ := by
  have gains := IncludeGraph.retain_gains sound.graph file
  have sound' := sound.retain alive file
  have grows := Grows.retain sound listed
  have others : ∀ {other}, (workspace.graph.retain file).graph.isAlive other = true →
      other ≠ (workspace.graph.retain file).handle → workspace.graph.isAlive other = true := by
    intro other alive' differ
    rwa [IncludeGraph.isAlive, gains.frame differ] at alive'
  cases new : (workspace.graph.retain file).isNew with
  | false =>
    have before : ∀ {other}, (workspace.graph.retain file).graph.isAlive other = true →
        workspace.graph.isAlive other = true := by
      intro other alive'
      by_cases self : other = (workspace.graph.retain file).handle
      · exact self ▸ IncludeGraph.isAlive_of_file? (gains.kept new)
      · exact others alive' self
    exact {
      grows := grows
      sound := sound'
      tied := by simpa using gains.named
      fresh_subset := List.Subset.refl _
      edges_subset := List.subset_append_right _ _
      reached := fun alive' => .inl (before alive')
      mirrors := fun _ _ alive' => .inl (before alive') }
  | true =>
    have dead := gains.isNew.mp new
    have loaded := loads sound' (sound.retained_alive alive file) gains.named (sound.no_record dead)
    refine {
      grows := grows.trans_filled loaded.grows dead
      sound := loaded.sound
      tied := by simpa using loaded.grows.keeps gains.named
      fresh_subset := List.Subset.refl _
      edges_subset := List.subset_append_right _ _
      reached := ?_
      mirrors := ?_ }
    · intro other final
      rcases loaded.reached final with early | reached
      · by_cases self : other = (workspace.graph.retain file).handle
        · exact .inr (.start (self ▸ List.mem_cons_self))
        · exact .inl (others early self)
      · exact .inr reached
    · intro enough other final
      have absent : workspace.graph.handleOf? file = none :=
        (IncludeGraph.handleOf?_eq_none_iff sound.graph).mpr (gains.absent new)
      have less := unread_retain_lt sound alive listed absent
      rcases loaded.mirrors (Nat.lt_of_lt_of_le less enough) final with ⟨early, differ⟩ | mirrors
      · exact .inl (others early differ)
      · exact .inr mirrors

/-- Linking to some files and then to others. -/
theorem append [Alphabets] (sound : Sound before owed)
    (first : Links depth old owed before targets fresh linked)
    (second : Links depth old (fresh ++ owed) linked.workspace targets' fresh' linked') :
    Links depth old owed before (targets ++ targets') (fresh' ++ fresh)
      ⟨linked'.workspace, linked.edges ++ linked'.edges⟩ where
  grows := first.grows.trans second.grows
  sound := by
    rw [List.append_assoc]
    exact second.sound
  tied := by
    have kept : linked.edges.map linked'.workspace.graph.file? =
        linked.edges.map linked.workspace.graph.file? := by
      refine List.map_congr_left fun handle edge => ?_
      obtain ⟨x, named⟩ := IncludeGraph.isAlive_iff_file?.mp (first.edge_alive edge)
      rw [named, second.grows.keeps named]
    rw [List.map_append, List.map_append, kept, first.tied, second.tied]
  fresh_subset := by
    intro handle member
    rcases List.mem_append.mp member with late | early
    · exact List.mem_append_right _ (second.fresh_subset late)
    · exact List.mem_append_left _ (first.fresh_subset early)
  edges_subset := by
    intro handle edge
    rcases List.mem_append.mp edge with early | late
    · rcases List.mem_append.mp (first.edges_subset early) with kept | new
      · exact List.mem_append_left _ kept
      · exact List.mem_append_right _ (List.mem_append_right _ new)
    · rcases List.mem_append.mp (second.edges_subset late) with kept | new
      · exact List.mem_append_left _ kept
      · exact List.mem_append_right _ (List.mem_append_left _ new)
  reached := by
    intro handle alive
    rcases second.reached alive with middle | reached
    · rcases first.reached middle with early | reached
      · exact .inl early
      · exact .inr (second.grows.reach first.sound (List.subset_append_left _ _) reached)
    · exact .inr (reached.mono (List.subset_append_right _ _) fun _ => List.Subset.refl _)
  mirrors := by
    intro enough handle alive
    have fewer := first.grows.unread_le sound first.sound
    rcases second.mirrors (Nat.le_trans fewer enough) alive with middle | mirrors
    · rcases first.mirrors enough middle with early | mirrors
      · exact .inl early
      · exact .inr (second.grows.mirrors (by simp) mirrors)
    · exact .inr mirrors

variable {record : FileRecord}

theorem tied_record [Alphabets] (links : Links depth old owed before record.targets fresh linked) :
    (record.linkedTo linked.edges).Tied linked.workspace.graph :=
  links.tied

/-- The new edges, and the old ones that are dropped, are paid for by the old and the fresh ones. -/
theorem paid [Alphabets] (links : Links depth old owed before record.targets fresh linked)
    (handle : Handle) :
    linked.edges.count handle + (old.filter (!linked.edges.contains ·)).count handle ≤
      old.count handle + fresh.count handle := by
  have distinct : linked.edges.Nodup := links.tied_record.nodup
  by_cases member : handle ∈ linked.edges
  · have undropped : (old.filter (!linked.edges.contains ·)).count handle = 0 :=
      List.count_eq_zero.mpr (by simp [member])
    have stored : 0 < (old ++ fresh).count handle :=
      List.count_pos_iff.mpr (links.edges_subset member)
    have once := List.nodup_iff_count_le_one.mp distinct handle
    rw [List.count_append] at stored
    omega
  · have unstored := List.count_eq_zero.mpr member
    have dropped : (old.filter (!linked.edges.contains ·)).count handle ≤ old.count handle :=
      List.filter_sublist.count_le handle
    omega

/-- Filling a new node with a record whose edges have just been made. -/
theorem fill [Alphabets] {content : Text}
    (links : Links depth [] owed workspace (workspace.outlineRecord file content true).targets
      fresh linked)
    (named : workspace.graph.file? handle = some file)
    (bare : workspace.records.get? handle = none)
    (text : workspace.currentText? file = some content) :
    Loads (depth + 1) owed workspace handle { linked.workspace with
      records := linked.workspace.records.insert handle
        ((workspace.outlineRecord file content true).linkedTo linked.edges) } := by
  generalize equal : (workspace.outlineRecord file content true).linkedTo linked.edges = record
  have filled := Grows.insert_record linked.workspace handle record
  have grows : Grows (some handle) workspace _ := links.grows.weaken.trans filled
  have alive := IncludeGraph.isAlive_of_file? named
  have bare' : linked.workspace.records.get? handle = none := by
    rw [links.grows.record alive (by simp), bare]
  have edgeless : linked.workspace.records.edges handle = [] := by
    rw [RecordTable.edges_eq, bare', Option.elim_none]
  -- the new edges stand where no record was, and are led to from the node that is filled
  refine ⟨grows, ?_, ?_, ?_⟩
  · refine links.sound.insert_record (links.grows.alive alive) (equal ▸ links.tied_record) ?_
    intro other
    have paid := links.paid other
    rw [edgeless, ← equal, List.count_append]
    simp only [FileRecord.linkedTo, List.filter_nil, List.count_nil] at paid ⊢
    omega
  · intro other final
    rcases links.reached final with early | reached
    · exact .inl early
    · refine .inr (reached.lift (fun edge member => ?_) fun x reached y edge => ?_)
      · refine (Reach.start List.mem_cons_self).step ?_
        rw [RecordTable.edges_eq, Table.get?_insert_self, ← equal]
        exact member
      · refine reached.step ?_
        have differ : x ≠ handle := by
          rintro rfl
          simp [edgeless] at edge
        rw [RecordTable.edges_eq] at edge ⊢
        rwa [Table.get?_insert_of_ne _ _ differ]
  · intro enough other final
    by_cases self : other = handle
    · refine .inr ⟨file, self.symm ▸ grows.keeps named, ?_⟩
      rw [self, Table.get?_insert_self, grows.currentText?, text, grows.outlineRecord, ← equal]
      rfl
    · rcases links.mirrors (Nat.le_of_lt_succ enough) final with early | mirrors
      · exact .inl ⟨early, self⟩
      · refine .inr (filled.mirrors ?_ mirrors)
        exact fun same => self (Option.some.inj same).symm

end Links

theorem link_links [Alphabets] (old : List Handle) {depth : Nat}
    {load : Workspace → Handle → SourceId → Workspace}
    (loads : LoadsWell depth load) {targets : List SourceId} (sound : Sound workspace owed)
    (alive : ∀ handle ∈ owed, workspace.graph.isAlive handle = true)
    (listed : targets ⊆ workspace.stored) :
    ∃ fresh, Links depth old owed workspace targets fresh (link load old workspace targets) := by
  induction targets generalizing workspace owed with
  | nil => exact ⟨[], .nil sound⟩
  | cons target rest ih =>
    obtain ⟨listed, listed'⟩ := List.cons_subset.mp listed
    -- one step, by an old edge or by a further reference, leaves what the rest of the run needs
    have onward : ∀ {fresh linked}, Links depth old owed workspace [target] fresh linked →
        ∃ fresh', Links depth old owed workspace (target :: rest) fresh'
          ⟨(link load old linked.workspace rest).workspace,
            linked.edges ++ (link load old linked.workspace rest).edges⟩ := by
      intro fresh linked first
      obtain ⟨fresh', second⟩ := ih first.sound (first.owed_alive alive)
        (first.grows.stored.symm ▸ listed')
      exact ⟨fresh' ++ fresh, Links.append sound first second⟩
    unfold link
    cases found : workspace.edgeTo? old target with
    | some handle => exact onward (Links.keep sound found)
    | none => exact onward (Links.fetch loads sound alive listed)

theorem load_loads [Alphabets] (depth : Nat) : LoadsWell depth (load depth) := by
  -- too small a depth leaves records out but breaks nothing; it only says less about the new nodes
  induction depth with
  | zero =>
    intro workspace owed handle file sound _ _ _
    exact ⟨Grows.refl _ _, sound, .inl, fun enough => absurd enough (Nat.not_lt_zero _)⟩
  | succ depth ih =>
    intro workspace owed handle file sound alive named bare
    unfold load
    cases text : workspace.currentText? file with
    | none =>
      refine ⟨Grows.refl _ _, sound, .inl, fun _ other alive' => ?_⟩
      by_cases self : other = handle
      · exact .inr ⟨file, self ▸ named, by rw [self, bare, text]; rfl⟩
      · exact .inl ⟨alive', self⟩
    | some content =>
      obtain ⟨fresh, links⟩ := link_links [] ih sound alive
        (workspace.targets_subset file content true)
      exact links.fill named bare text

/-! ## Building -/

/-- What building a record does, next to the edges `old` that its file had before. -/
structure Builds [Alphabets] (old owed : List Handle) (before : Workspace) (record : FileRecord)
    (built : Built) : Prop where
  grows : Grows none before built.workspace
  sound : ∃ fresh, Sound built.workspace (fresh ++ owed) ∧ ∀ handle,
    built.record.dependencies.count handle + built.dropped.count handle ≤
      old.count handle + fresh.count handle
  record : built.record.unlinked = record
  tied : built.record.Tied built.workspace.graph
  dropped : built.dropped = old.filter (!built.record.dependencies.contains ·)
  reached : ∀ {handle}, built.workspace.graph.isAlive handle = true →
    before.graph.isAlive handle = true ∨
      Reach built.workspace.records.edges built.record.dependencies handle
  mirrors : ∀ {handle}, built.workspace.graph.isAlive handle = true →
    before.graph.isAlive handle = true ∨ Mirrors built.workspace handle

/-- An old edge is kept or dropped. -/
theorem Builds.kept [Alphabets] {record : FileRecord} {built : Built}
    (builds : Builds old owed before record built) (edge : handle ∈ old) :
    handle ∈ built.record.dependencies ∨ handle ∈ built.dropped := by
  rw [builds.dropped, List.mem_filter]
  cases kept : built.record.dependencies.contains handle with
  | true => exact .inl (by simpa using kept)
  | false => exact .inr ⟨edge, rfl⟩

theorem unread_le_loadDepth (workspace : Workspace) :
    workspace.unread.length ≤ workspace.loadDepth := by
  have stored : workspace.stored.length = workspace.loadDepth := List.length_map _
  exact stored ▸ List.length_filter_le _ _

theorem build_builds [Alphabets] (sound : Sound workspace owed)
    (alive : ∀ handle ∈ owed, workspace.graph.isAlive handle = true) (file : SourceId)
    (text : Text) (skipStatic : Bool) (old : List Handle) :
    Builds old owed workspace (workspace.outlineRecord file text skipStatic)
      (workspace.build file text skipStatic old) := by
  obtain ⟨fresh, links⟩ := link_links old (load_loads workspace.loadDepth) sound alive
    (workspace.targets_subset file text skipStatic)
  exact {
    grows := links.grows
    sound := ⟨fresh, links.sound, links.paid⟩
    record := rfl
    tied := links.tied_record
    dropped := rfl
    reached := links.reached
    mirrors := links.mirrors workspace.unread_le_loadDepth }

end Workspace

end PawnScope
