import PawnScope.Identifier.European
import PawnScope.Proofs.Workspace.Run
import PawnScope.Proofs.Workspace.Walk
/-!
The scope of a file, computed from the texts alone: no graph, no references, nothing that is kept from
one change to the next. Main result: `run_scope_from_scratch`, that a workspace which opens, edits and
closes documents under normal ids shows this scope for every open document, so that it does not matter
how its documents came to have their texts.
-/

namespace PawnScope

/-! ## Scopes of texts -/

/-- Where texts come from: from the buffers that are open, and from files for the others. -/
structure Sources where
  search : SearchPath
  files : FileStore
  buffer? : SourceId → Option Text

namespace Sources

/-- The text of a file. -/
def text? (sources : Sources) (file : SourceId) : Option Text :=
  match sources.buffer? file with
  | some text => some text
  | none => sources.files.text? file.toPath

/-- What a file contributes whose text is `text`. -/
def record [Alphabets] (sources : Sources) (file : SourceId) (text : Text) (skipStatic : Bool) :
    FileRecord :=
  .ofOutline file (.ofText file text skipStatic)
    (sources.search.resolveAll sources.files (Outline.ofText file text skipStatic).inclusions file)

/-- What a file contributes when it is included. -/
def included? [Alphabets] (sources : Sources) (file : SourceId) : Option FileRecord :=
  (sources.text? file).map fun text => sources.record file text true

/-- The files that an included file includes in turn. -/
def targets [Alphabets] (sources : Sources) (file : SourceId) : List SourceId :=
  (sources.included? file).elim [] FileRecord.targets

/-- The files that a file leads to, each once, in depth-first preorder and without the file itself. -/
def visited [Alphabets] (sources : Sources) (file : SourceId) (text : Text) : List SourceId :=
  (preorder sources.targets (sources.files.entries.length + 1) [file]
    (sources.record file text false).targets).drop 1

/-- The scope of a file: its own symbols, and then what the files that it leads to contribute. -/
def scope [Alphabets] (sources : Sources) (file : SourceId) (text : Text) : Scope :=
  ((sources.visited file text).filterMap sources.included?).foldl Scope.add
    (.own (sources.record file text false))

end Sources

/-! ## Records without edges -/

namespace Scope

theorem own_unlinked (record : FileRecord) : own record.unlinked = own record :=
  rfl

/-- The symbols of records do not depend on their edges. -/
theorem foldl_add_unlinked (records : List FileRecord) (scope : Scope) :
    (records.map FileRecord.unlinked).foldl add scope = records.foldl add scope := by
  induction records generalizing scope with
  | nil => rfl
  | cons record rest ih => exact ih (scope.add record)

end Scope

/-- The paths of all files are printed in the form that ids have. -/
def FileStore.Normal (files : FileStore) : Prop :=
  ∀ entry ∈ files.entries, (SourceId.ofPath entry.1).text = entry.1.text

instance (files : FileStore) : Decidable files.Normal :=
  inferInstanceAs (Decidable (∀ entry ∈ files.entries,
    (SourceId.ofPath entry.1).text = entry.1.text))

namespace Workspace

variable {workspace before after : Workspace} {action : Action} {file : SourceId}
  {handle : Handle} {document : Document}

/-- The text of a document that is open. -/
def openText? (workspace : Workspace) (file : SourceId) : Option Text :=
  (workspace.documents.get? file).map (·.buffer.chars)

/-- Where the texts of a workspace come from. -/
def sources (workspace : Workspace) : Sources :=
  ⟨workspace.search, workspace.files, workspace.openText?⟩

theorem sources_text? (workspace : Workspace) (file : SourceId) :
    workspace.sources.text? file = workspace.currentText? file := by
  unfold Sources.text? currentText?
  cases found : workspace.documents.get? file with
  | none => simp [sources, openText?, found]
  | some document => simp [sources, openText?, found]

theorem sources_record [Alphabets] (workspace : Workspace) :
    workspace.sources.record = workspace.outlineRecord :=
  rfl

theorem sources_included? [Alphabets] (workspace : Workspace) (file : SourceId) :
    workspace.sources.included? file =
      (workspace.currentText? file).map fun text => workspace.outlineRecord file text true := by
  rw [Sources.included?, sources_text?, sources_record]

theorem sources_targets_subset [Alphabets] (workspace : Workspace) (file : SourceId) :
    workspace.sources.targets file ⊆ workspace.stored := by
  rw [Sources.targets, sources_included?]
  cases workspace.currentText? file with
  | none => exact List.nil_subset _
  | some text => exact workspace.targets_subset file text true

/-- The bound of the walk is wide enough. -/
theorem visits_sources [Alphabets] (workspace : Workspace) (file : SourceId) (text : Text) :
    Visits workspace.sources.targets [file] (workspace.sources.record file text false).targets
      (file :: workspace.sources.visited file text) := by
  have visits : Visits workspace.sources.targets [file]
      (workspace.sources.record file text false).targets
      (preorder workspace.sources.targets (workspace.files.entries.length + 1) [file]
        (workspace.sources.record file text false).targets) := by
    refine preorder_visits (· ∈ workspace.stored) (fun _ met _ => met)
      (fun x _ _ edge => workspace.sources_targets_subset x edge) _ _ _
      (fun _ target => workspace.targets_subset file text false target) ?_
    exact Nat.lt_succ_of_le (Nat.le_trans (unseen_le _ _) (Nat.le_of_eq (List.length_map _)))
  have begins : file :: workspace.sources.visited file text = preorder workspace.sources.targets
      (workspace.files.entries.length + 1) [file]
      (workspace.sources.record file text false).targets := visits.append_drop
  rw [begins]
  exact visits

/-! ## The walk over nodes -/

/-- The record of each node says what the present text of its file says, and so does that of each
open document. Documents are open under normal ids. -/
structure Current [Alphabets] (workspace : Workspace) : Prop where
  settled : Settled workspace
  filed : Filed workspace
  normal : ∀ {file}, workspace.isOpen file = true → file.normal = file
  documents : ∀ {file document}, workspace.documents.get? file = some document →
    document.record.unlinked = workspace.outlineRecord file document.buffer.chars false
  nodes : ∀ {handle}, workspace.graph.isAlive handle = true → Mirrors workspace handle

/-- The file of a live node. -/
def fileOf (workspace : Workspace) (handle : Handle) : SourceId :=
  (workspace.graph.file? handle).getD ⟨[]⟩

theorem fileOf_eq (named : workspace.graph.file? handle = some file) :
    workspace.fileOf handle = file := by
  rw [fileOf, named]
  rfl

namespace Current

theorem record [Alphabets] (current : Current workspace) (alive : workspace.graph.isAlive handle = true) :
    (workspace.records.get? handle).map FileRecord.unlinked =
      workspace.sources.included? (workspace.fileOf handle) := by
  obtain ⟨file, named, same⟩ := current.nodes alive
  rw [same, fileOf_eq named, sources_included?]

/-- The edges of a record are the targets of the file, by other names. -/
theorem map_fileOf {record : FileRecord} (tied : record.Tied workspace.graph) :
    record.dependencies.map workspace.fileOf = record.targets := by
  have named : record.dependencies.map workspace.fileOf =
      (record.dependencies.map workspace.graph.file?).map fun file => file.getD ⟨[]⟩ := by
    rw [List.map_map]
    rfl
  rw [named, tied, List.map_map]
  exact List.map_id _

theorem edges [Alphabets] (current : Current workspace) (alive : workspace.graph.isAlive handle = true) :
    workspace.sources.targets (workspace.fileOf handle) =
      (workspace.records.edges handle).map workspace.fileOf := by
  rw [Sources.targets, ← current.record alive, RecordTable.edges_eq]
  cases found : workspace.records.get? handle with
  | none => rfl
  | some record => exact (map_fileOf (current.settled.sound.record_tied found)).symm

theorem fileOf_injective (sound : Sound workspace []) {other : Handle}
    (alive : workspace.graph.isAlive handle = true) (alive' : workspace.graph.isAlive other = true)
    (same : workspace.fileOf handle = workspace.fileOf other) : handle = other := by
  obtain ⟨x, named⟩ := IncludeGraph.isAlive_iff_file?.mp alive
  obtain ⟨y, named'⟩ := IncludeGraph.isAlive_iff_file?.mp alive'
  rw [fileOf_eq named, fileOf_eq named'] at same
  exact sound.graph.file_unique named (same ▸ named')

/-- The walk over nodes is the walk over files, by other names. -/
theorem map_visited [Alphabets] (current : Current workspace)
    (found : workspace.documents.get? file = some document) :
    (Scope.visited workspace.records (workspace.nodeOf? file) document.record).map
        workspace.fileOf = workspace.sources.visited file document.buffer.chars := by
  have sound := current.settled.sound
  have normal := current.normal (isOpen_of_get? found)
  have own : ∀ {handle}, workspace.nodeOf? file = some handle ↔
      workspace.graph.file? handle = some file := by
    intro handle
    rw [current.filed.nodeOf?_eq_some_iff sound, normal]
  obtain ⟨visits, alive⟩ := sound.visits_nodes
    (fun handle same => IncludeGraph.isAlive_of_file? (own.mp same)) found
  have renamed := visits.map workspace.sources.targets workspace.fileOf
    (fun a one b two same => fileOf_injective sound (alive a one) (alive b two) same)
    (fun a member _ => current.edges (alive a member))
  have targets : document.record.dependencies.map workspace.fileOf =
      (workspace.sources.record file document.buffer.chars false).targets := by
    rw [map_fileOf (sound.documents_tied _ (Table.mem_of_get? found)), sources_record,
      ← current.documents found]
    rfl
  rw [targets] at renamed
  have walked : Visits workspace.sources.targets [file]
      (workspace.sources.record file document.buffer.chars false).targets
      (file :: (Scope.visited workspace.records (workspace.nodeOf? file) document.record).map
        workspace.fileOf) := by
    -- a file without a node is never met, so nothing is lost by calling it visited
    cases self : workspace.nodeOf? file with
    | some handle =>
      rw [self] at renamed
      simpa [fileOf_eq (own.mp self)] using renamed
    | none =>
      rw [self] at renamed
      refine Visits.seen_cons (by simpa using renamed) ?_
      intro member
      obtain ⟨handle, listed, same⟩ := List.mem_map.mp member
      have alive' := alive handle (List.mem_append_right _ (self ▸ listed))
      obtain ⟨x, named⟩ := IncludeGraph.isAlive_iff_file?.mp alive'
      rw [fileOf_eq named] at same
      rw [own.mpr (same ▸ named)] at self
      cases self
  exact List.tail_eq_of_cons_eq (walked.unique (workspace.visits_sources file _)).symm

/-- What a workspace shows is what is computed from scratch. -/
theorem scope_eq [Alphabets] (current : Current workspace)
    (found : workspace.documents.get? file = some document) :
    workspace.scope file = .ok (workspace.sources.scope file document.buffer.chars) := by
  have sound := current.settled.sound
  have outline := current.documents found
  have self : document.record.file = file := congrArg FileRecord.file outline
  obtain ⟨_, alive⟩ := sound.visits_nodes
    (fun handle same => IncludeGraph.isAlive_iff_file?.mpr
      ⟨_, (current.filed.nodeOf?_eq_some_iff sound).mp same⟩) found
  have shown : workspace.scope file = .ok (.ofRecord workspace.records (workspace.nodeOf? file)
      document.record) := by
    rw [Workspace.scope, Workspace.document, found, ← self]
    rfl
  have contributed : (workspace.sources.visited file document.buffer.chars).filterMap
      workspace.sources.included? =
        ((Scope.visited workspace.records (workspace.nodeOf? file) document.record).filterMap
          workspace.records.get?).map FileRecord.unlinked := by
    rw [← current.map_visited found, List.filterMap_map, List.map_filterMap]
    refine List.filterMap_congr fun handle member => ?_
    exact (current.record (alive handle (List.mem_append_right _ member))).symm
  rw [shown, Sources.scope, contributed, Scope.foldl_add_unlinked, sources_record, ← outline,
    Scope.own_unlinked, Scope.ofRecord]

end Current

/-! ## Changes -/

/-- A file of the store can be read under its id. -/
theorem text?_of_mem_stored (keys : workspace.files.Normal) (listed : file ∈ workspace.stored) :
    (workspace.files.text? file.toPath).isSome = true := by
  obtain ⟨entry, member, rfl⟩ := List.mem_map.mp listed
  have path : (SourceId.ofPath entry.1).toPath = entry.1 := by
    rw [SourceId.toPath_ofPath, keys entry member]
  rw [path, FileStore.text?, Option.isSome_map, List.find?_isSome]
  exact ⟨entry, member, by simp [Path.sameAs]⟩

theorem start_current [Alphabets] (config : Config) (files : FileStore) : Current (start config files) where
  settled := start_settled config files
  filed := by
    intro handle x named
    cases named
  normal := fun open' => nomatch open'
  documents := fun found => nomatch found
  nodes := fun alive => nomatch alive

namespace Current

/-- A change to a document leaves a workspace current, if the document and its node are. -/
theorem of_changes [Alphabets] {content : Option Text} (current : Current before) (settled : Settled after)
    (changes : Changes before file content after) (normal : file.normal = file)
    (others : ∀ {x}, x ≠ file → after.documents.get? x = before.documents.get? x)
    (here : ∀ {document}, after.documents.get? file = some document →
      document.record.unlinked = after.outlineRecord file document.buffer.chars false)
    (own : ∀ {handle}, after.graph.file? handle = some file → Mirrors after handle) :
    Current after where
  settled := settled
  filed := changes.filed current.filed
  normal := by
    intro x open'
    rcases eq_or_ne x file with rfl | differ
    · exact normal
    · rw [isOpen, Table.contains, others differ] at open'
      exact current.normal open'
  documents := by
    intro x document found
    rcases eq_or_ne x file with rfl | differ
    · exact here found
    · rw [others differ] at found
      rw [outlineRecord_congr changes.search changes.files]
      exact current.documents found
  nodes := by
    intro handle alive
    obtain ⟨x, named⟩ := IncludeGraph.isAlive_iff_file?.mp alive
    rcases eq_or_ne x file with rfl | differ
    · exact own named
    · cases changes.others named differ (normal.symm ▸ differ) with
      | kept early same =>
        exact (current.nodes (IncludeGraph.isAlive_of_file? early)).congr early named
          changes.search changes.files (others differ) same
      | new _ mirrors => exact mirrors

theorem mirrors_of_says [Alphabets] {content : Text} (normal : file.normal = file)
    (named : after.graph.file? handle = some file) (told : Says after handle file.normal content)
    (text : after.currentText? file = some content) : Mirrors after handle := by
  rw [normal] at told
  exact ⟨file, named, by rw [told, text, Option.map_some]⟩

theorem step [Alphabets] (current : Current before) (keys : before.files.Normal)
    (normal : ∀ file, action.gives file = true → file.normal = file)
    (settled : Settled after) (effect : Effect before action after) : Current after := by
  cases effect with
  | idle _ => exact current
  | @given file text record after gives documents outline changes =>
    have spelled := normal file ((gives file).mpr rfl)
    have here : after.documents.get? file = some ⟨.ofText text, record⟩ := by
      rw [documents, Table.get?_insert_self]
    refine current.of_changes settled changes spelled ?_ ?_ ?_
    · intro x differ
      rw [documents, Table.get?_insert_of_ne _ _ differ]
    · intro document found
      rw [here] at found
      cases found
      rw [outlineRecord_congr changes.search changes.files]
      exact outline
    · intro handle named
      refine mirrors_of_says spelled named
        (changes.own current.filed.spelled rfl (spelled.symm ▸ named)) ?_
      rw [currentText?, here]
      rfl
  | @closed file after _ isOpen documents changes =>
    have spelled := current.normal isOpen
    have here : after.documents.get? file = none := by
      rw [documents, Table.get?_erase_self]
    refine current.of_changes settled changes spelled ?_ ?_ ?_
    · intro x differ
      rw [documents, Table.get?_erase_of_ne _ differ]
    · intro document found
      rw [here] at found
      cases found
    · intro handle named
      -- a node is of a file of the store, so there is a text that it falls back to
      have listed := changes.filed current.filed _ _ named
      rw [stored, changes.files] at listed
      obtain ⟨content, text⟩ := Option.isSome_iff_exists.mp (text?_of_mem_stored keys listed)
      refine mirrors_of_says spelled named
        (changes.own current.filed.spelled text (spelled.symm ▸ named)) ?_
      rw [currentText?, here, changes.files]
      exact text

end Current

/-! ## Runs -/

/-- An action on a document whose id is a normal one. -/
def Action.isNormalEdit : Action → Bool
  | .openWith file _ => file.normal = file
  | .edit file _ => file.normal = file
  | .close file => file.normal = file
  | .write _ _ => false
  | .delete _ => false

theorem Action.keepsFiles_of_isNormalEdit (normal : action.isNormalEdit = true) :
    action.keepsFiles = true := by
  cases action with
  | openWith file text => rfl
  | edit file text => rfl
  | close file => rfl
  | write path text => cases normal
  | delete path => cases normal

theorem Action.normal_of_gives (normal : action.isNormalEdit = true)
    (gives : action.gives file = true) : file.normal = file := by
  cases action with
  | openWith other text => simp_all [Action.isNormalEdit, Action.gives]
  | edit other text => simp_all [Action.isNormalEdit, Action.gives]
  | close other => cases gives
  | write path text => cases gives
  | delete path => cases gives

theorem run_current [Alphabets] {actions : List Action} (current : Current workspace)
    (keys : workspace.files.Normal) (edits : ∀ action ∈ actions, action.isNormalEdit = true) :
    Current (workspace.run actions) ∧ (workspace.run actions).search = workspace.search ∧
      (workspace.run actions).files = workspace.files := by
  induction actions generalizing workspace with
  | nil => exact ⟨current, rfl, rfl⟩
  | cons action rest ih =>
    have edit := edits action List.mem_cons_self
    have effect := perform_effect current.settled.sound (Action.keepsFiles_of_isNormalEdit edit)
    have next := current.step keys (fun _ gives => Action.normal_of_gives edit gives)
      (perform_settled current.settled action) effect
    obtain ⟨last, search, files⟩ := ih next (effect.files ▸ keys)
      fun other member => edits other (List.mem_cons_of_mem _ member)
    exact ⟨last, search.trans effect.search, files.trans effect.files⟩

theorem run_sources [Alphabets] {config : Config} {files : FileStore} {actions : List Action}
    (keys : files.Normal) (edits : ∀ action ∈ actions, action.isNormalEdit = true) :
    ((start config files).run actions).sources =
      ⟨.ofConfig config, files, ((start config files).run actions).openText?⟩ := by
  obtain ⟨_, search, stored⟩ := run_current (start_current config files) keys edits
  rw [sources, search, stored]
  rfl

/--
After any run that opens, edits and closes documents under normal ids, over files that stay what they
are, every open document has the scope that is computed from the texts alone, along the walk that
begins with the document itself visited. So two runs that leave the same texts open show the same
scopes.
-/
theorem run_scope_from_scratch [Alphabets] (config : Config) (files : FileStore) (keys : files.Normal)
    (actions : List Action) (edits : ∀ action ∈ actions, action.isNormalEdit = true) :
    (∀ file text, ((start config files).run actions).openText? file = some text →
      ((start config files).run actions).scope file =
        .ok (Sources.scope
          ⟨.ofConfig config, files, ((start config files).run actions).openText?⟩ file text) ∧
      Visits
        (Sources.targets ⟨.ofConfig config, files, ((start config files).run actions).openText?⟩)
        [file]
        (Sources.record ⟨.ofConfig config, files, ((start config files).run actions).openText?⟩
          file text false).targets
        (file :: Sources.visited
          ⟨.ofConfig config, files, ((start config files).run actions).openText?⟩ file text)) ∧
    ∀ others : List Action, (∀ action ∈ others, action.isNormalEdit = true) →
      ((start config files).run others).openText? = ((start config files).run actions).openText? →
      ∀ file, ((start config files).run actions).isOpen file = true →
        ((start config files).run others).scope file =
          ((start config files).run actions).scope file := by
  have shown : ∀ {actions : List Action}, (∀ action ∈ actions, action.isNormalEdit = true) →
      ∀ {file text}, ((start config files).run actions).openText? file = some text →
      ((start config files).run actions).scope file = .ok (Sources.scope
        ⟨.ofConfig config, files, ((start config files).run actions).openText?⟩ file text) := by
    intro actions edits file text open'
    obtain ⟨document, found, rfl⟩ := Option.map_eq_some_iff.mp open'
    obtain ⟨current, _⟩ := run_current (start_current config files) keys edits
    rw [current.scope_eq found, run_sources keys edits]
  refine ⟨fun file text open' => ⟨shown edits open', ?_⟩, ?_⟩
  · rw [← run_sources keys edits]
    exact visits_sources _ file text
  · intro others edits' same file open'
    obtain ⟨document, found⟩ := Option.isSome_iff_exists.mp open'
    have text : ((start config files).run actions).openText? file = some document.buffer.chars := by
      rw [openText?, found]
      rfl
    rw [shown edits text, shown edits' (same ▸ text), same]

/-! ## Two ways to the same texts -/

/-- Two files that include each other. -/
def cyclicFiles : FileStore :=
  ⟨[(⟨"/inc/a.inc".toList⟩, "#include <b>\nnative one();".toList),
    (⟨"/inc/b.inc".toList⟩, "#include <a>\nnative two();".toList)]⟩

def cyclicConfig : Config :=
  { Config.default with includePaths := [⟨"/inc".toList⟩] }

/-- A document is opened, then one of the files, which is edited afterwards. -/
def documentFirst : List Action :=
  [.openWith ⟨"/src/m.sma".toList⟩ "#include <a>".toList,
    .openWith ⟨"/inc/b.inc".toList⟩ "native early();".toList,
    .edit ⟨"/inc/b.inc".toList⟩ "#include <a>\nnative late();".toList]

/-- The file is opened first, when nothing includes it yet, and closed and opened again. -/
def fileFirst : List Action :=
  [.openWith ⟨"/inc/b.inc".toList⟩ "#include <b>".toList,
    .openWith ⟨"/src/m.sma".toList⟩ "#include <a>".toList,
    .close ⟨"/inc/b.inc".toList⟩,
    .openWith ⟨"/inc/b.inc".toList⟩ "#include <a>\nnative late();".toList]

theorem openText?_congr
    (same : before.documents.entries.map (fun entry => (entry.1, entry.2.buffer.chars)) =
      after.documents.entries.map fun entry => (entry.1, entry.2.buffer.chars)) :
    before.openText? = after.openText? := by
  have texts : ∀ workspace : Workspace, workspace.openText? = fun file =>
      ((workspace.documents.entries.map fun entry => (entry.1, entry.2.buffer.chars)).find?
        (·.1 = file)).map Prod.snd := by
    intro workspace
    funext file
    simp only [openText?, Table.get?, List.find?_map, Option.map_map]
    rfl
  rw [texts, texts, same]

open scoped Identifier.European

theorem run_scope_from_scratch_cyclic :
    ((start cyclicConfig cyclicFiles).run fileFirst).scope ⟨"/src/m.sma".toList⟩ =
      ((start cyclicConfig cyclicFiles).run documentFirst).scope ⟨"/src/m.sma".toList⟩ :=
  (run_scope_from_scratch cyclicConfig cyclicFiles (by decide +kernel) documentFirst
    (by decide +kernel)).2 fileFirst (by decide +kernel) (openText?_congr (by decide +kernel)) _
    (by decide +kernel)

end Workspace

end PawnScope
