import PawnScope.Proofs.Workspace.Releasing
/-!
What one change to one document does. Main results: `openWith_changes` and `close_changes`, which say
in the same words that the invariant stays, that nothing is left which nothing leads to, and what the
records of the nodes say afterwards.
-/

namespace PawnScope.Workspace

variable {workspace before after : Workspace} {owed : List Handle} {handle : Handle}
  {file : SourceId} {text : Text}

/-- The file of each node is a file of the store. -/
def Filed (workspace : Workspace) : Prop :=
  ∀ handle x, workspace.graph.file? handle = some x → x ∈ workspace.stored

/-- The files of nodes have normal ids. -/
def Spelled (workspace : Workspace) : Prop :=
  ∀ handle x, workspace.graph.file? handle = some x → x.normal = x

theorem normal_of_mem_stored (listed : file ∈ workspace.stored) : file.normal = file := by
  obtain ⟨entry, _, rfl⟩ := List.mem_map.mp listed
  exact SourceId.normal_ofPath entry.1

theorem Filed.spelled (filed : Filed workspace) : Spelled workspace :=
  fun _ _ named => normal_of_mem_stored (filed _ _ named)

/-- The record of a node says what `text` says. -/
def Says [Alphabets] (workspace : Workspace) (handle : Handle) (file : SourceId) (text : Text) : Prop :=
  (workspace.records.get? handle).map FileRecord.unlinked =
    some (workspace.outlineRecord file text true)

/-- A node of a file is what it was before, or it is new and mirrors the file. -/
inductive KeptOrNew [Alphabets] (before after : Workspace) (handle : Handle) (file : SourceId) : Prop where
  | kept : before.graph.file? handle = some file →
      after.records.get? handle = before.records.get? handle → KeptOrNew before after handle file
  | new : before.graph.isAlive handle = false → Mirrors after handle →
      KeptOrNew before after handle file

/-! ## Refresh -/

/-- The node that stands for a file is that of its id, or that of the normal form of it. -/
theorem file?_of_nodeOf? (sound : Sound workspace owed)
    (found : workspace.nodeOf? file = some handle) :
    workspace.graph.file? handle = some file ∨
      workspace.graph.file? handle = some file.normal := by
  unfold nodeOf? at found
  cases here : workspace.graph.handleOf? file with
  | some handle' =>
    rw [here] at found
    cases found
    exact .inl ((IncludeGraph.handleOf?_eq_some_iff sound.graph).mp here)
  | none =>
    rw [here] at found
    exact .inr ((IncludeGraph.handleOf?_eq_some_iff sound.graph).mp found)

/-- If the files of nodes have normal ids, it is that of the normal form. -/
theorem Spelled.nodeOf?_eq_some_iff (spelled : Spelled workspace) (sound : Sound workspace owed) :
    workspace.nodeOf? file = some handle ↔
      workspace.graph.file? handle = some file.normal := by
  unfold nodeOf?
  cases here : workspace.graph.handleOf? file with
  | some handle' =>
    have named := (IncludeGraph.handleOf?_eq_some_iff sound.graph).mp here
    rw [spelled _ _ named, ← IncludeGraph.handleOf?_eq_some_iff sound.graph, here]
    rfl
  | none => exact IncludeGraph.handleOf?_eq_some_iff sound.graph

theorem Filed.nodeOf?_eq_some_iff (filed : Filed workspace) (sound : Sound workspace owed) :
    workspace.nodeOf? file = some handle ↔
      workspace.graph.file? handle = some file.normal :=
  filed.spelled.nodeOf?_eq_some_iff sound

/-- What bringing the node of a file up to date does. -/
structure Refreshes [Alphabets] (owed : List Handle) (before : Workspace) (file : SourceId) (text : Text)
    (refreshed : Refreshed) : Prop where
  grows : Grows (before.nodeOf? file) before refreshed.workspace
  sound : Sound refreshed.workspace (owed ++ refreshed.dropped)
  covered : Covered before owed → Covered refreshed.workspace (owed ++ refreshed.dropped)
  mirrors : ∀ {handle}, refreshed.workspace.graph.isAlive handle = true →
    before.graph.isAlive handle = true ∨ Mirrors refreshed.workspace handle
  idle : before.nodeOf? file = none → refreshed.workspace = before
  own : ∀ {handle x}, before.nodeOf? file = some handle →
    before.graph.file? handle = some x → Says refreshed.workspace handle x text

/-- A file without a node needs nothing. -/
theorem Refreshes.none [Alphabets] (sound : Sound workspace owed) (absent : workspace.nodeOf? file = none) :
    Refreshes owed workspace file text ⟨workspace, []⟩ where
  grows := Grows.refl _ _
  sound := by
    rw [List.append_nil]
    exact sound
  covered := by
    rw [List.append_nil]
    exact id
  mirrors := .inl
  idle := fun _ => rfl
  own := by
    intro handle x found
    rw [absent] at found
    cases found

/-- What led somewhere by way of a node still does, if the edges that the node lost count as well. -/
theorem reach_insert_record {start start' dropped : List Handle} {record : FileRecord}
    {other : Handle} (reached : Reach workspace.records.edges start other)
    (kept : ∀ edge ∈ workspace.records.edges handle,
      edge ∈ record.dependencies ∨ edge ∈ dropped)
    (initial : ∀ y ∈ start,
      Reach (RecordTable.edges (workspace.records.insert handle record)) (start' ++ dropped) y) :
    Reach (RecordTable.edges (workspace.records.insert handle record)) (start' ++ dropped)
      other := by
  refine reached.lift initial fun y reached' z edge => ?_
  by_cases self : y = handle
  · rcases kept z (self ▸ edge) with kept | dropped
    · refine reached'.step ?_
      rw [self, RecordTable.edges_eq, Table.get?_insert_self]
      exact kept
    · exact .start (List.mem_append_right _ dropped)
  · refine reached'.step ?_
    rw [RecordTable.edges_eq] at edge ⊢
    rwa [Table.get?_insert_of_ne _ _ self]

/-- A node gets a record that has been built anew. -/
theorem Builds.refreshes [Alphabets] {x : SourceId} {built : Built}
    (builds : Builds (workspace.records.edges handle) owed workspace
      (workspace.outlineRecord x text true) built)
    (sound : Sound workspace owed) (found : workspace.nodeOf? file = some handle)
    (named : workspace.graph.file? handle = some x) :
    Refreshes owed workspace file text
      ⟨{ built.workspace with records := built.workspace.records.insert handle built.record },
        built.dropped⟩ := by
  have alive := IncludeGraph.isAlive_of_file? named
  have filled := Grows.insert_record built.workspace handle built.record
  have grows := builds.grows.weaken.trans filled
  have old : built.workspace.records.edges handle = workspace.records.edges handle := by
    rw [RecordTable.edges_eq, RecordTable.edges_eq, builds.grows.record alive (by simp)]
  obtain ⟨fresh, sound', paid⟩ := builds.sound
  constructor
  · exact found ▸ grows
  · refine sound'.insert_record (builds.grows.alive alive) builds.tied fun other => ?_
    have paid := paid other
    simp only [List.count_append, old]
    omega
  · -- what was led to by an edge that the node lost is led to by what is owed for that edge
    intro covered other final
    have kept : ∀ edge ∈ built.workspace.records.edges handle,
        edge ∈ built.record.dependencies ∨ edge ∈ built.dropped :=
      fun edge member => builds.kept (old ▸ member)
    have early : ∀ {other}, workspace.graph.isAlive other = true →
        Reach (RecordTable.edges (built.workspace.records.insert handle built.record))
          (workspace.roots ++ owed ++ built.dropped) other := by
      intro other alive
      refine reach_insert_record
        (builds.grows.reach sound (List.Subset.refl _) (covered other alive)) kept ?_
      exact fun y member => .start (List.mem_append_left _ member)
    have roots : built.workspace.roots = workspace.roots := by
      rw [Workspace.roots, Workspace.roots, builds.grows.documents]
    show Reach (RecordTable.edges (built.workspace.records.insert handle built.record))
      (built.workspace.roots ++ (owed ++ built.dropped)) other
    rw [roots, ← List.append_assoc]
    rcases builds.reached final with before | reached
    · exact early before
    · refine reach_insert_record reached kept fun edge member => (early alive).step ?_
      rw [RecordTable.edges_eq, Table.get?_insert_self]
      exact member
  · intro other final
    rcases builds.mirrors final with early | mirrors
    · exact .inl early
    · by_cases self : other = handle
      · exact .inl (self ▸ alive)
      · exact .inr (filled.mirrors (fun same => self (Option.some.inj same).symm) mirrors)
  · intro absent
    rw [found] at absent
    cases absent
  · intro other y found' named'
    rw [found] at found'
    cases found'
    rw [named] at named'
    cases named'
    rw [Says, Table.get?_insert_self, Option.map_some, builds.record, grows.outlineRecord]

theorem refresh_refreshes [Alphabets] (sound : Sound workspace owed)
    (alive : ∀ handle ∈ owed, workspace.graph.isAlive handle = true) (file : SourceId)
    (text : Text) : Refreshes owed workspace file text (workspace.refresh file text) := by
  unfold refresh
  cases found : workspace.nodeOf? file with
  | none => exact .none sound found
  | some handle =>
    have known : workspace.graph.isAlive handle = true := by
      rcases file?_of_nodeOf? sound found with known | known
      · exact IncludeGraph.isAlive_of_file? known
      · exact IncludeGraph.isAlive_of_file? known
    obtain ⟨node, named⟩ := IncludeGraph.isAlive_iff_node?.mp known
    simp only [named]
    exact (build_builds sound alive node.file text true _).refreshes sound found
      (IncludeGraph.file?_of_node? named)

/-! ## Settling -/

/-- Bring the node of a file up to date, and give back what is owed and what that drops. -/
def settle [Alphabets] (workspace : Workspace) (owed : List Handle) (file : SourceId) (text : Text) :
    Workspace :=
  ((workspace.refresh file text).workspace.release owed).release
    (workspace.refresh file text).dropped

/--
What settling does to the nodes. A node of another file is left alone, or it is new and mirrors its
file; the node of the file itself says what the text says.
-/
structure Settles [Alphabets] (owed : List Handle) (before : Workspace) (file : SourceId) (text : Text)
    (after : Workspace) : Prop where
  search : after.search = before.search
  files : after.files = before.files
  documents : after.documents = before.documents
  sound : Sound after []
  covered : Covered before owed → Covered after []
  named : ∀ {handle x}, after.graph.file? handle = some x →
    before.graph.file? handle = some x ∨ x ∈ before.stored
  past : ∀ {handle}, before.graph.Past handle → after.graph.isAlive handle = false
  others : ∀ {handle x}, after.graph.file? handle = some x → x ≠ file → x ≠ file.normal →
    KeptOrNew before after handle x
  own : Spelled before → ∀ {handle}, after.graph.file? handle = some file.normal →
    Says after handle file.normal text

theorem Says.congr [Alphabets] {x : SourceId} (told : Says before handle x text)
    (search : after.search = before.search) (files : after.files = before.files)
    (record : after.records.get? handle = before.records.get? handle) :
    Says after handle x text := by
  rw [Says, record, outlineRecord_congr search files]
  exact told

/-- After a refresh the nodes that are new mirror their files, and the others are as they were. -/
theorem Refreshes.others [Alphabets] {refreshed : Refreshed} {x : SourceId}
    (refreshes : Refreshes owed before file text refreshed) (sound : Sound before owed)
    (named : refreshed.workspace.graph.file? handle = some x) (differ : x ≠ file)
    (differ' : x ≠ file.normal) :
    KeptOrNew before refreshed.workspace handle x := by
  have unfilled : before.nodeOf? file ≠ some handle := by
    intro found
    rcases file?_of_nodeOf? sound found with known | known
    · rw [refreshes.grows.keeps known] at named
      exact differ (Option.some.inj named).symm
    · rw [refreshes.grows.keeps known] at named
      exact differ' (Option.some.inj named).symm
  cases early : before.graph.isAlive handle with
  | true =>
    obtain ⟨y, known⟩ := IncludeGraph.isAlive_iff_file?.mp early
    rw [refreshes.grows.keeps known] at named
    cases named
    exact .kept known (refreshes.grows.record early unfilled)
  | false =>
    rcases refreshes.mirrors (IncludeGraph.isAlive_of_file? named) with early' | mirrors
    · rw [early] at early'
      cases early'
    · exact .new early mirrors

/-- After a refresh the node of the file says what the text says. -/
theorem Refreshes.says_own [Alphabets] {refreshed : Refreshed}
    (refreshes : Refreshes owed before file text refreshed) (sound : Sound before owed)
    (spelled : Spelled before)
    (named : refreshed.workspace.graph.file? handle = some file.normal) :
    Says refreshed.workspace handle file.normal text := by
  cases found : before.nodeOf? file with
  | none =>
    rw [refreshes.idle found] at named
    rw [(spelled.nodeOf?_eq_some_iff sound).mpr named] at found
    cases found
  | some own =>
    have known := (spelled.nodeOf?_eq_some_iff sound).mp found
    have same : own = handle :=
      refreshes.sound.graph.file_unique (refreshes.grows.keeps known) named
    rw [← same]
    exact refreshes.own found known

theorem settle_settles [Alphabets] (sound : Sound workspace owed)
    (alive : ∀ handle ∈ owed, workspace.graph.isAlive handle = true) (file : SourceId)
    (text : Text) : Settles owed workspace file text (workspace.settle owed file text) := by
  unfold settle
  have refreshes := refresh_refreshes sound alive file text
  generalize workspace.refresh file text = refreshed at *
  have first := release_releases refreshes.sound
  have second := release_releases ((List.append_nil refreshed.dropped).symm ▸ first.sound)
  have shrinks := first.shrinks.trans second.shrinks
  generalize (refreshed.workspace.release owed).release refreshed.dropped = after at *
  have grows := refreshes.grows
  exact {
    search := shrinks.search.trans grows.search
    files := shrinks.files.trans grows.files
    documents := shrinks.documents.trans grows.documents
    sound := second.sound
    covered := by
      intro covered
      refine second.covered ?_
      rw [List.append_nil]
      exact first.covered (refreshes.covered covered)
    named := fun known => grows.named (shrinks.file known)
    past := by
      intro handle past
      cases final : after.graph.isAlive handle with
      | false => rfl
      | true =>
        have early := shrinks.alive final
        rw [IncludeGraph.isAlive, (grows.past past).dead] at early
        cases early
    others := by
      intro handle x known differ differ'
      have final := IncludeGraph.isAlive_of_file? known
      cases refreshes.others sound (shrinks.file known) differ differ' with
      | kept early same => exact .kept early ((shrinks.record final).trans same)
      | new dead mirrors => exact .new dead (shrinks.mirrors final mirrors)
    own := by
      intro spelled handle known
      have final := IncludeGraph.isAlive_of_file? known
      exact (refreshes.says_own sound spelled (shrinks.file known)).congr shrinks.search
        shrinks.files (shrinks.record final) }

/-! ## Opening and closing -/

/--
What a change to one document does. The nodes of other files are left alone or mirror their files, and
the node of the file itself says what `text` says, if that is given.
-/
structure Changes [Alphabets] (before : Workspace) (file : SourceId) (text : Option Text)
    (after : Workspace) :
    Prop where
  search : after.search = before.search
  files : after.files = before.files
  sound : Sound after []
  covered : Covered before [] → Covered after []
  named : ∀ {handle x}, after.graph.file? handle = some x →
    before.graph.file? handle = some x ∨ x ∈ before.stored
  others : ∀ {handle x}, after.graph.file? handle = some x → x ≠ file → x ≠ file.normal →
    KeptOrNew before after handle x
  own : Spelled before → ∀ {content handle}, text = some content →
    after.graph.file? handle = some file.normal → Says after handle file.normal content

/-- The edges of a document and those of all others. -/
theorem mem_roots_split (sound : Sound workspace owed) (root : handle ∈ workspace.roots)
    (file : SourceId) :
    handle ∈ workspace.documentEdges file ∨
      handle ∈ roots { workspace with documents := workspace.documents.erase file } := by
  obtain ⟨⟨name, document⟩, member, edge⟩ := List.mem_flatMap.mp root
  by_cases same : name = file
  · have found := (Table.mem_entries_iff sound.documents_distinct).mp member
    rw [same] at found
    refine .inl ?_
    rw [documentEdges_eq, found]
    exact edge
  · exact .inr (List.mem_flatMap.mpr ⟨_, Table.mem_entries_erase.mpr ⟨member, same⟩, edge⟩)

/-- A built record, put into the document of its file. -/
def Built.placed (built : Built) (file : SourceId) (text : Text) : Workspace :=
  { built.workspace with
    documents := built.workspace.documents.insert file ⟨.ofText text, built.record⟩ }

section Placed

variable {built : Built} {record : FileRecord}

theorem Builds.placed_sound [Alphabets]
    (builds : Builds (workspace.documentEdges file) [] workspace record built) (text : Text) :
    Sound (built.placed file text) built.dropped := by
  obtain ⟨fresh, sound, paid⟩ := builds.sound
  refine sound.insert_document builds.tied fun other => ?_
  have old : built.workspace.documentEdges file = workspace.documentEdges file := by
    rw [documentEdges_eq, documentEdges_eq, builds.grows.documents]
  rw [old, List.append_nil]
  exact paid other

theorem Builds.dropped_alive [Alphabets] (sound : Sound workspace [])
    (builds : Builds (workspace.documentEdges file) [] workspace record built) :
    ∀ handle ∈ built.dropped, built.workspace.graph.isAlive handle = true := by
  intro handle member
  rw [builds.dropped] at member
  exact builds.grows.alive (sound.documentEdge_alive (List.mem_filter.mp member).1)

theorem Builds.placed_covered [Alphabets] (sound : Sound workspace [])
    (builds : Builds (workspace.documentEdges file) [] workspace record built) (text : Text)
    (covered : Covered workspace []) : Covered (built.placed file text) built.dropped := by
  intro handle alive
  have roots : (built.placed file text).roots = built.record.dependencies ++
      Workspace.roots { workspace with documents := workspace.documents.erase file } := by
    rw [Built.placed, Workspace.roots, builds.grows.documents]
    rfl
  rw [roots]
  rcases builds.reached alive with early | reached
  · have reached := covered handle early
    rw [List.append_nil] at reached
    refine builds.grows.reach sound (fun edge root => ?_) reached
    rcases mem_roots_split sound root file with old | other
    · rcases builds.kept old with kept | dropped
      · exact List.mem_append_left _ (List.mem_append_left _ kept)
      · exact List.mem_append_right _ dropped
    · exact List.mem_append_left _ (List.mem_append_right _ other)
  · refine reached.mono ?_ fun _ => List.Subset.refl _
    exact fun _ edge => List.mem_append_left _ (List.mem_append_left _ edge)

end Placed

theorem openWith_eq [Alphabets] (workspace : Workspace) (file : SourceId) (text : Text) :
    workspace.openWith file text =
      ((workspace.build file text false (workspace.documentEdges file)).placed file text).settle
        (workspace.build file text false (workspace.documentEdges file)).dropped file text :=
  rfl

theorem openWith_documents [Alphabets] (sound : Sound workspace []) (file : SourceId) (text : Text) :
    ∃ record, (workspace.openWith file text).documents =
        workspace.documents.insert file ⟨.ofText text, record⟩ ∧
      record.unlinked = workspace.outlineRecord file text false := by
  rw [openWith_eq]
  have builds := build_builds sound (by simp) file text false (workspace.documentEdges file)
  generalize workspace.build file text false (workspace.documentEdges file) = built at *
  have settles := settle_settles (builds.placed_sound text) (builds.dropped_alive sound) file text
  refine ⟨built.record, ?_, builds.record⟩
  rw [settles.documents, Built.placed, builds.grows.documents]

/-- What is open behind an opening is the document that has been opened, or was open before. -/
theorem openWith_document [Alphabets] (sound : Sound workspace []) {other : SourceId} {document : Document}
    (found : (workspace.openWith file text).documents.get? other = some document) :
    (other = file ∧ document.buffer = .ofText text ∧
      document.record.unlinked = workspace.outlineRecord file text false) ∨
    workspace.documents.get? other = some document := by
  obtain ⟨record, documents, outline⟩ := openWith_documents sound file text
  rw [documents] at found
  by_cases same : other = file
  · rw [same, Table.get?_insert_self] at found
    cases found
    exact .inl ⟨same, rfl, outline⟩
  · rw [Table.get?_insert_of_ne _ _ same] at found
    exact .inr found

theorem openWith_changes [Alphabets] (sound : Sound workspace []) (file : SourceId) (text : Text) :
    Changes workspace file (some text) (workspace.openWith file text) := by
  rw [openWith_eq]
  have builds := build_builds sound (by simp) file text false (workspace.documentEdges file)
  generalize workspace.build file text false (workspace.documentEdges file) = built at *
  have settles := settle_settles (builds.placed_sound text) (builds.dropped_alive sound) file text
  exact {
    search := settles.search.trans builds.grows.search
    files := settles.files.trans builds.grows.files
    sound := settles.sound
    covered := fun covered => settles.covered (builds.placed_covered sound text covered)
    named := by
      intro handle x known
      rcases settles.named known with known | listed
      · exact builds.grows.named known
      · exact .inr (builds.grows.stored ▸ listed)
    others := by
      intro handle x known differ differ'
      -- alive before, or new with the record of the document, or new with that of its node
      cases settles.others known differ differ' with
      | kept middle same =>
        cases early : workspace.graph.isAlive handle with
        | true =>
          obtain ⟨y, known'⟩ := IncludeGraph.isAlive_iff_file?.mp early
          have equal : y = x := Option.some.inj ((builds.grows.keeps known').symm.trans middle)
          exact .kept (equal ▸ known') (same.trans (builds.grows.record early (by simp)))
        | false =>
          rcases builds.mirrors (IncludeGraph.isAlive_of_file? middle) with early' | mirrors
          · rw [early] at early'
            cases early'
          · refine .new early (mirrors.congr middle known settles.search settles.files ?_ same)
            rw [settles.documents]
            exact Table.get?_insert_of_ne _ _ differ
      | new dead mirrors =>
        refine .new ?_ mirrors
        cases early : workspace.graph.isAlive handle with
        | false => rfl
        | true => exact dead ▸ (builds.grows.alive early).symm
    own := by
      intro spelled content handle same known
      cases same
      refine settles.own ?_ known
      intro other x named
      rcases builds.grows.named named with early | listed
      · exact spelled _ _ early
      · exact normal_of_mem_stored listed }

/-- A workspace that a document has left, before its node is brought up to date. -/
def left (workspace : Workspace) (file : SourceId) : Workspace :=
  { workspace with documents := workspace.documents.erase file }.release
    (workspace.documentEdges file)

theorem left_releases (sound : Sound workspace []) (file : SourceId) :
    Releases (workspace.documentEdges file) []
      { workspace with documents := workspace.documents.erase file } (workspace.left file) :=
  release_releases (sound.erase_document file)

/-- A document that has left has the text of its file. -/
theorem left_currentText? (sound : Sound workspace []) (file : SourceId) :
    (workspace.left file).currentText? file = workspace.files.text? file.toPath := by
  have shrinks := (left_releases sound file).shrinks
  rw [currentText?, shrinks.documents, shrinks.files, Table.get?_erase_self]

theorem left_covered (sound : Sound workspace []) (file : SourceId)
    (covered : Covered workspace []) : Covered (workspace.left file) [] := by
  refine (left_releases sound file).covered fun handle alive => ?_
  refine (covered handle alive).mono (fun edge root => ?_) fun _ => List.Subset.refl _
  rw [List.append_nil] at root
  rcases mem_roots_split sound root file with old | other
  · exact List.mem_append_right _ (List.mem_append_left _ old)
  · exact List.mem_append_left _ other

theorem left_changes [Alphabets] (sound : Sound workspace []) (file : SourceId) :
    Changes workspace file none (workspace.left file) := by
  have releases := left_releases sound file
  have shrinks := releases.shrinks
  exact {
    search := shrinks.search
    files := shrinks.files
    sound := releases.sound
    covered := left_covered sound file
    named := fun known => .inl (shrinks.file known)
    others := fun known _ _ =>
      .kept (shrinks.file known) (shrinks.record (IncludeGraph.isAlive_of_file? known))
    own := fun _ _ _ same => nomatch same }

theorem close_eq [Alphabets] (sound : Sound workspace []) {document : Document}
    (found : workspace.documents.get? file = some document) :
    workspace.close file =
      match workspace.files.text? file.toPath with
      | none => .ok (workspace.left file)
      | some text => .ok ((workspace.left file).settle [] file text) := by
  have left_eq : { workspace with documents := workspace.documents.erase file }.release
      document.record.dependencies = workspace.left file := by
    rw [left, documentEdges_eq, found, Option.elim_some]
  simp only [close, Workspace.document, found, Except.map, left_eq, left_currentText? sound]
  cases workspace.files.text? file.toPath with
  | none => rfl
  | some content => rfl

/-- Closing a document is releasing its edges, and settling if there is a text to fall back to. -/
theorem close_cases [Alphabets] (sound : Sound workspace []) (closed : workspace.close file = .ok after) :
    (workspace.files.text? file.toPath = none ∧ after = workspace.left file) ∨
      ∃ text, workspace.files.text? file.toPath = some text ∧
        after = (workspace.left file).settle [] file text := by
  cases found : workspace.documents.get? file with
  | none =>
    rw [close, document, found] at closed
    cases closed
  | some document =>
    rw [close_eq sound found] at closed
    cases text : workspace.files.text? file.toPath with
    | none =>
      rw [text] at closed
      cases closed
      exact .inl ⟨rfl, rfl⟩
    | some content =>
      rw [text] at closed
      cases closed
      exact .inr ⟨content, rfl, rfl⟩

theorem close_changes [Alphabets] (sound : Sound workspace []) (closed : workspace.close file = .ok after) :
    after.documents = workspace.documents.erase file ∧
      Changes workspace file (workspace.files.text? file.toPath) after := by
  have releases := left_releases sound file
  have shrinks := releases.shrinks
  rcases close_cases sound closed with ⟨text, rfl⟩ | ⟨content, text, rfl⟩
  · rw [text]
    exact ⟨shrinks.documents, left_changes sound file⟩
  · rw [text]
    have settles := settle_settles releases.sound (by simp) file content
    refine ⟨settles.documents.trans shrinks.documents, {
      search := settles.search.trans shrinks.search
      files := settles.files.trans shrinks.files
      sound := settles.sound
      covered := fun covered => settles.covered (left_covered sound file covered)
      named := ?_
      others := ?_
      own := ?_ }⟩
    · intro handle x known
      rcases settles.named known with known | listed
      · exact .inl (shrinks.file known)
      · refine .inr ?_
        rw [stored, shrinks.files] at listed
        exact listed
    · intro handle x known differ differ'
      cases settles.others known differ differ' with
      | kept middle same =>
        have alive := IncludeGraph.isAlive_of_file? middle
        exact .kept (shrinks.file middle) (same.trans (shrinks.record alive))
      | new dead mirrors =>
        refine .new ?_ mirrors
        cases early : workspace.graph.isAlive handle with
        | false => rfl
        | true =>
          -- a node that died when the document left does not come back under its old handle
          rcases shrinks.died early with alive | vacant
          · rw [dead] at alive
            cases alive
          · have gone := settles.past vacant.past
            rw [IncludeGraph.isAlive_of_file? known] at gone
            cases gone
    · intro spelled content' handle same known
      cases same
      exact settles.own (fun _ _ named => spelled _ _ (shrinks.file named)) known

/-- What is open behind a closing was open before. -/
theorem close_document [Alphabets] (sound : Sound workspace []) (closed : workspace.close file = .ok after)
    {other : SourceId} {document : Document} (found : after.documents.get? other = some document) :
    workspace.documents.get? other = some document := by
  rw [(close_changes sound closed).1, Table.get?_erase] at found
  split at found
  · cases found
  · exact found

end PawnScope.Workspace
