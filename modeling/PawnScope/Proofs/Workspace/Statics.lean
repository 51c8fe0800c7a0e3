import PawnScope.Identifier.European
import PawnScope.Proofs.Scope.Merge
import PawnScope.Proofs.Source.Statics
import PawnScope.Proofs.Workspace.Buffers
/-!
Static symbols stay in their file. Nodes are read without static declarations whenever they are loaded
or brought up to date, and only the record of the document itself is read with them. Main result:
`run_scope_statics`, that the static symbols of a scope are those of the buffer.
-/

namespace PawnScope

/-- Nothing in the record is visible only in its own file. -/
def FileRecord.Public (record : FileRecord) : Prop :=
  (∀ callable ∈ record.callables, callable.isStatic = false) ∧
    ∀ global ∈ record.globals, global.isStatic = false

namespace Workspace

/-- No node has a static symbol in its record. -/
def NodesPublic (workspace : Workspace) : Prop :=
  ∀ handle record, workspace.records.get? handle = some record → record.Public

/-- The record of each open document has the symbols that its buffer declares. -/
def DocumentsTold [Alphabets] (workspace : Workspace) : Prop :=
  ∀ file document, workspace.documents.get? file = some document →
    document.record.file = file ∧
      document.record.callables = (Outline.ofText file document.buffer.chars false).callables ∧
      document.record.globals = (Outline.ofText file document.buffer.chars false).globals

variable {workspace after : Workspace} {file : SourceId} {handle : Handle} {record : FileRecord}

/-! ## Nodes -/

theorem outlineRecord_public [Alphabets] (workspace : Workspace) (file : SourceId) (text : Text)
    (edges : List Handle) : ((workspace.outlineRecord file text true).linkedTo edges).Public :=
  ⟨fun _ member => (Outline.of_callable_mem member).2 rfl,
    fun _ member => (Outline.of_global_mem member).2 rfl⟩

namespace NodesPublic

theorem insert (hidden : NodesPublic workspace) (shown : record.Public) (handle : Handle) :
    NodesPublic { workspace with records := workspace.records.insert handle record } := by
  intro other held found
  by_cases same : other = handle
  · rw [same, Table.get?_insert_self] at found
    exact Option.some.inj found ▸ shown
  · rw [Table.get?_insert_of_ne _ _ same] at found
    exact hidden other held found

theorem link {load : Workspace → Handle → SourceId → Workspace}
    (loads : ∀ {workspace}, NodesPublic workspace →
      ∀ handle file, NodesPublic (load workspace handle file))
    (hidden : NodesPublic workspace) (old : List Handle) (targets : List SourceId) :
    NodesPublic (Workspace.link load old workspace targets).workspace := by
  induction targets generalizing workspace with
  | nil => exact hidden
  | cons target rest ih =>
    unfold Workspace.link
    cases workspace.edgeTo? old target with
    | some handle => exact ih hidden
    | none =>
      have retained :
          NodesPublic { workspace with graph := (workspace.graph.retain target).graph } := hidden
      refine ih ?_
      split
      · exact loads retained _ _
      · exact retained

theorem load [Alphabets] (depth : Nat) (hidden : NodesPublic workspace) (handle : Handle)
    (file : SourceId) :
    NodesPublic (Workspace.load depth workspace handle file) := by
  induction depth generalizing workspace handle file with
  | zero => exact hidden
  | succ depth ih =>
    unfold Workspace.load
    cases workspace.currentText? file with
    | none => exact hidden
    | some text =>
      refine (link (fun hidden handle file => ih hidden handle file) hidden _ _).insert ?_ handle
      exact outlineRecord_public workspace file text _

theorem build [Alphabets] (hidden : NodesPublic workspace) (file : SourceId) (text : Text)
    (skipStatic : Bool)
    (old : List Handle) : NodesPublic (workspace.build file text skipStatic old).workspace :=
  link (load _) hidden old _

theorem refresh [Alphabets] (hidden : NodesPublic workspace) (file : SourceId) (text : Text) :
    NodesPublic (workspace.refresh file text).workspace := by
  unfold Workspace.refresh
  cases workspace.nodeOf? file with
  | none => exact hidden
  | some handle =>
    dsimp only
    cases workspace.graph.node? handle with
    | none => exact hidden
    | some node =>
      refine (hidden.build node.file text true _).insert ?_ handle
      exact outlineRecord_public workspace node.file text _

theorem release (hidden : NodesPublic workspace) (dropped : List Handle) :
    NodesPublic (workspace.release dropped) := by
  unfold Workspace.release
  split
  · exact hidden
  · intro handle record found
    rw [Table.get?_foldl_erase] at found
    split at found
    · cases found
    · exact hidden handle record found

theorem settle [Alphabets] (hidden : NodesPublic workspace) (owed : List Handle) (file : SourceId)
    (text : Text) : NodesPublic (workspace.settle owed file text) :=
  ((hidden.refresh file text).release owed).release _

theorem openWith [Alphabets] (hidden : NodesPublic workspace) (file : SourceId) (text : Text) :
    NodesPublic (workspace.openWith file text) := by
  rw [openWith_eq]
  have built := hidden.build file text false (workspace.documentEdges file)
  generalize workspace.build file text false (workspace.documentEdges file) = record at *
  have placed : NodesPublic (record.placed file text) := built
  exact placed.settle _ file text

theorem close [Alphabets] (hidden : NodesPublic workspace) (sound : Sound workspace [])
    (closed : workspace.close file = .ok after) : NodesPublic after := by
  have erased : NodesPublic { workspace with documents := workspace.documents.erase file } := hidden
  have left : NodesPublic (workspace.left file) := erased.release _
  rcases close_cases sound closed with ⟨_, rfl⟩ | ⟨content, _, rfl⟩
  · exact left
  · exact left.settle [] file content

/-- The variables that a walk over the nodes collects are not static. -/
theorem included_globals (hidden : NodesPublic workspace) {handles : List Handle} {global : Global}
    (included : global ∈ (handles.filterMap workspace.records.get?).flatMap FileRecord.globals) :
    global.isStatic = false := by
  obtain ⟨handle, _, record, found, declared⟩ := Scope.exists_included included
  exact (hidden handle record found).2 global declared

theorem perform [Alphabets] (hidden : NodesPublic workspace) (sound : Sound workspace [])
    (action : Action) :
    NodesPublic (workspace.perform action) :=
  perform_keeps hidden hidden.openWith (fun _ _ closed => hidden.close sound closed)
    (fun _ => hidden) action

end NodesPublic

/-! ## Documents -/

namespace DocumentsTold

theorem openWith [Alphabets] (told : DocumentsTold workspace) (sound : Sound workspace []) (file : SourceId)
    (text : Text) : DocumentsTold (workspace.openWith file text) := by
  intro other document found
  rcases openWith_document sound found with ⟨rfl, buffer, outline⟩ | early
  · rw [buffer]
    exact ⟨congrArg FileRecord.file outline, congrArg FileRecord.callables outline,
      congrArg FileRecord.globals outline⟩
  · exact told other document early

theorem close [Alphabets] (told : DocumentsTold workspace) (sound : Sound workspace [])
    (closed : workspace.close file = .ok after) : DocumentsTold after := by
  intro other document found
  exact told other document (close_document sound closed found)

theorem perform [Alphabets] (told : DocumentsTold workspace) (sound : Sound workspace [])
    (action : Action) :
    DocumentsTold (workspace.perform action) :=
  perform_keeps told (told.openWith sound) (fun _ _ closed => told.close sound closed)
    (fun _ => told) action

end DocumentsTold

/-! ## Runs -/

theorem start_nodesPublic (config : Config) (files : FileStore) :
    NodesPublic (start config files) :=
  fun _ _ found => nomatch found

theorem start_documentsTold [Alphabets] (config : Config) (files : FileStore) :
    DocumentsTold (start config files) :=
  fun _ _ found => nomatch found

/--
After any run the static symbols in the scope of an open document are symbols of that document: each
static callable is declared in its buffer, and the static variables are exactly those of the buffer.
-/
theorem run_scope_statics [Alphabets] (config : Config) (files : FileStore) (actions : List Action)
    {file : SourceId} {document : Document}
    (found : ((start config files).run actions).documents.get? file = some document) :
    ∃ shown, ((start config files).run actions).scope file = .ok shown ∧
      (∀ callable ∈ shown.callables, callable.isStatic = true → callable.file = file ∧
        callable ∈ (Outline.ofText file document.buffer.chars false).callables) ∧
      (∀ global ∈ shown.globals, global.isStatic = true → global.file = file) ∧
      shown.globals.filter (·.isStatic) =
        (Outline.ofText file document.buffer.chars false).globals.filter (·.isStatic) := by
  have hidden := run_keeps (start_settled config files) (start_nodesPublic config files)
    (fun settled hidden action => hidden.perform settled.sound action) actions
  have told := run_keeps (start_settled config files) (start_documentsTold config files)
    (fun settled told action => told.perform settled.sound action) actions
  generalize (start config files).run actions = workspace at *
  obtain ⟨_, callables, globals⟩ := told file document found
  refine ⟨_, by rw [scope, Workspace.document, found]; rfl, ?_, ?_, ?_⟩
  · intro callable member isStatic
    rcases Scope.callable_mem_of_ofRecord member with own | ⟨_, included, stored, declared⟩
    · rw [callables] at own
      exact ⟨(Outline.of_callable_mem own).1, own⟩
    · rw [(hidden _ included stored).1 callable declared] at isStatic
      cases isStatic
  · intro global member isStatic
    rw [Scope.globals_ofRecord, globals] at member
    rcases List.mem_append.mp member with own | included
    · exact (Outline.of_global_mem own).1
    · rw [hidden.included_globals included] at isStatic
      cases isStatic
  · have none : ∀ global ∈ ((Scope.visited workspace.records
        (workspace.nodeOf? document.record.file) document.record).filterMap
          workspace.records.get?).flatMap FileRecord.globals, ¬global.isStatic = true := by
      intro global included
      rw [hidden.included_globals included]
      exact Bool.false_ne_true
    rw [Scope.globals_ofRecord, globals, List.filter_append, List.filter_eq_nil_iff.mpr none,
      List.append_nil]

/-! ## A file that is both open and included -/

/-- An include file with a static variable. -/
def staticFiles : FileStore :=
  ⟨[(⟨"/inc/a.inc".toList⟩, "static disk;\nnative shared();".toList)]⟩

/-- The include file is open and edited while another document includes it. -/
def editStatic : List Action :=
  [.openWith ⟨"/src/m.sma".toList⟩ "#include <a>\nstatic own;".toList,
    .openWith ⟨"/inc/a.inc".toList⟩ "static early;".toList,
    .edit ⟨"/inc/a.inc".toList⟩ "static late;\nnative shared();".toList]

open scoped Identifier.European

/-- Each of the two documents shows its own static variable and no other. -/
theorem run_scope_statics_included :
    (∃ shown, ((start incConfig staticFiles).run editStatic).scope ⟨"/src/m.sma".toList⟩ =
        .ok shown ∧
      (shown.globals.filter (·.isStatic)).map (·.name) = ["own".toList]) ∧
    ∃ shown, ((start incConfig staticFiles).run editStatic).scope ⟨"/inc/a.inc".toList⟩ =
        .ok shown ∧
      (shown.globals.filter (·.isStatic)).map (·.name) = ["late".toList] := by
  have including : (((start incConfig staticFiles).run editStatic).documents.get?
      ⟨"/src/m.sma".toList⟩).map (·.buffer.chars) = some "#include <a>\nstatic own;".toList := by
    decide +kernel
  have included : (((start incConfig staticFiles).run editStatic).documents.get?
      ⟨"/inc/a.inc".toList⟩).map (·.buffer.chars) =
        some "static late;\nnative shared();".toList := by
    decide +kernel
  obtain ⟨document, found, chars⟩ := Option.map_eq_some_iff.mp including
  obtain ⟨document', found', chars'⟩ := Option.map_eq_some_iff.mp included
  obtain ⟨shown, ok, _, _, statics⟩ := run_scope_statics incConfig staticFiles editStatic found
  obtain ⟨shown', ok', _, _, statics'⟩ := run_scope_statics incConfig staticFiles editStatic found'
  refine ⟨⟨shown, ok, ?_⟩, shown', ok', ?_⟩
  · rw [statics, chars]
    decide +kernel
  · rw [statics', chars']
    decide +kernel

end Workspace

end PawnScope
