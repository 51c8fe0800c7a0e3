import PawnScope.Proofs.Workspace.Editing
/-!
Runs of a workspace: documents are opened, edited and closed under any ids and with any texts, and
files come and go in between. Main results, for every state that a run leads to:

* `run_live_iff_reach`: the live nodes are those that the open documents lead to, and nothing else has
  a record.
* `run_tied`: the edges of every open document and of every record are those of its inclusions, one
  for each file, to the live node of that file.
-/

namespace PawnScope.Workspace

/-- One step of a run. -/
inductive Action where
  | openWith (file : SourceId) (text : Text)
  | edit (file : SourceId) (text : Text)
  | close (file : SourceId)
  | write (path : Path) (text : Text)
  | delete (path : Path)

namespace Action

/-- Whether the files stay what they are. -/
def keepsFiles : Action → Bool
  | openWith _ _ => true
  | edit _ _ => true
  | close _ => true
  | write _ _ => false
  | delete _ => false

/-- Whether a document is given a text. -/
def gives (file : SourceId) : Action → Bool
  | openWith other _ => other = file
  | edit other _ => other = file
  | close _ => false
  | write _ _ => false
  | delete _ => false

end Action

/-- What an action does; one that fails does nothing. -/
def perform [Alphabets] (workspace : Workspace) : Action → Workspace
  | .openWith file text => workspace.openWith file text
  | .edit file text => (workspace.edit file text).toOption.getD workspace
  | .close file => (workspace.close file).toOption.getD workspace
  | .write path text => { workspace with files := workspace.files.insert path text }
  | .delete path => { workspace with files := workspace.files.erase path }

/-- Several actions in order. -/
def run [Alphabets] (workspace : Workspace) (actions : List Action) : Workspace :=
  actions.foldl perform workspace

variable {workspace after : Workspace} {file : SourceId} {text : Text}

/-! ## One step -/

theorem isOpen_of_get? {document : Document}
    (found : workspace.documents.get? file = some document) : workspace.isOpen file = true := by
  rw [isOpen, Table.contains, found]
  rfl

/-- An edit is a further opening, if the document is open, and nothing otherwise. -/
theorem perform_edit [Alphabets] (workspace : Workspace) (file : SourceId) (text : Text) :
    workspace.perform (.edit file text) =
      if workspace.isOpen file then workspace.openWith file text else workspace := by
  cases found : workspace.documents.get? file with
  | none =>
    simp [perform, edit, document, isOpen, Table.contains, found, Except.map, Except.toOption]
  | some document =>
    simp [perform, edit, Workspace.document, isOpen, Table.contains, found, Except.map,
      Except.toOption]

/-- Closing does what it does if the document is open, and nothing otherwise. -/
theorem perform_close [Alphabets] (workspace : Workspace) (file : SourceId) :
    (workspace.isOpen file = false ∧ workspace.perform (.close file) = workspace) ∨
      (workspace.isOpen file = true ∧
        workspace.close file = .ok (workspace.perform (.close file))) := by
  cases found : workspace.documents.get? file with
  | none =>
    refine .inl ⟨by rw [isOpen, Table.contains, found]; rfl, ?_⟩
    simp [perform, close, document, found, Except.map, Except.toOption]
  | some document =>
    refine .inr ⟨by rw [isOpen, Table.contains, found]; rfl, ?_⟩
    simp [perform, close, Workspace.document, found, Except.map, Except.toOption]

theorem close_eq_perform [Alphabets] (isOpen : workspace.isOpen file = true) :
    workspace.close file = .ok (workspace.perform (.close file)) := by
  rcases perform_close workspace file with ⟨shut, _⟩ | ⟨_, closed⟩
  · rw [isOpen] at shut
    cases shut
  · exact closed

/-- What openings and closings keep, whatever the files are, every action keeps. -/
theorem perform_keeps [Alphabets] {holds : Workspace → Prop} (kept : holds workspace)
    (opens : ∀ file text, holds (workspace.openWith file text))
    (closes : ∀ file after, workspace.close file = .ok after → holds after)
    (stores : ∀ files, holds { workspace with files }) (action : Action) :
    holds (workspace.perform action) := by
  cases action with
  | openWith file text => exact opens file text
  | edit file text =>
    rw [perform_edit]
    split
    · exact opens file text
    · exact kept
  | close file =>
    rcases perform_close workspace file with ⟨_, same⟩ | ⟨_, closed⟩
    · exact same.symm ▸ kept
    · exact closes file _ closed
  | write path text => exact stores _
  | delete path => exact stores _

/-- The invariant between two steps: nothing is owed, and nothing is left over. -/
structure Settled (workspace : Workspace) : Prop where
  sound : Sound workspace []
  covered : Covered workspace []

theorem start_settled (config : Config) (files : FileStore) : Settled (start config files) where
  sound := start_sound config files
  covered := by
    intro handle alive
    cases alive

theorem Changes.settled [Alphabets] {content : Option Text} (changes : Changes workspace file content after)
    (settled : Settled workspace) : Settled after :=
  ⟨changes.sound, changes.covered settled.covered⟩

/-- The files do not matter to the invariant. -/
theorem Settled.with_files (settled : Settled workspace) (files : FileStore) :
    Settled { workspace with files } where
  sound :=
    { graph := settled.sound.graph
      documents_distinct := settled.sound.documents_distinct
      records_distinct := settled.sound.records_distinct
      alive := settled.sound.alive
      documents_tied := settled.sound.documents_tied
      records_tied := settled.sound.records_tied
      counted := settled.sound.counted }
  covered := settled.covered

theorem perform_settled [Alphabets] (settled : Settled workspace) (action : Action) :
    Settled (workspace.perform action) :=
  perform_keeps settled (fun file text => (openWith_changes settled.sound file text).settled settled)
    (fun _ _ closed => (close_changes settled.sound closed).2.settled settled)
    (fun files => settled.with_files files) action

/-- What an action does that keeps the files. -/
inductive Effect [Alphabets] (before : Workspace) (action : Action) : Workspace → Prop where
  | idle :
      (∀ file, action.gives file = true → before.isOpen file = false) →
      Effect before action before
  | given {file : SourceId} {text : Text} {record : FileRecord} {after : Workspace} :
      (∀ other, action.gives other = true ↔ other = file) →
      after.documents = before.documents.insert file ⟨.ofText text, record⟩ →
      record.unlinked = before.outlineRecord file text false →
      Changes before file (some text) after → Effect before action after
  | closed {file : SourceId} {after : Workspace} :
      (∀ other, action.gives other = false) → before.isOpen file = true →
      after.documents = before.documents.erase file →
      Changes before file (before.files.text? file.toPath) after → Effect before action after

theorem effect_of_openWith [Alphabets] (sound : Sound workspace []) {action : Action}
    (gives : ∀ other, action.gives other = true ↔ other = file) :
    Effect workspace action (workspace.openWith file text) := by
  obtain ⟨record, documents, outline⟩ := openWith_documents sound file text
  exact .given gives documents outline (openWith_changes sound file text)

theorem Changes.filed [Alphabets] {content : Option Text} (changes : Changes workspace file content after)
    (filed : Filed workspace) : Filed after := by
  intro handle x named
  rw [stored, changes.files]
  rcases changes.named named with early | listed
  · exact filed _ _ early
  · exact listed

theorem Effect.filed [Alphabets] {action : Action} (effect : Effect workspace action after)
    (filed : Filed workspace) : Filed after := by
  cases effect with
  | idle _ => exact filed
  | given _ _ _ changes => exact changes.filed filed
  | closed _ _ _ changes => exact changes.filed filed

theorem Effect.search [Alphabets] {action : Action} (effect : Effect workspace action after) :
    after.search = workspace.search := by
  cases effect with
  | idle _ => rfl
  | given _ _ _ changes => exact changes.search
  | closed _ _ _ changes => exact changes.search

theorem Effect.files [Alphabets] {action : Action} (effect : Effect workspace action after) :
    after.files = workspace.files := by
  cases effect with
  | idle _ => rfl
  | given _ _ _ changes => exact changes.files
  | closed _ _ _ changes => exact changes.files

theorem perform_effect [Alphabets] (sound : Sound workspace []) {action : Action}
    (keeps : action.keepsFiles = true) :
    Effect workspace action (workspace.perform action) := by
  cases action with
  | openWith file text => exact effect_of_openWith sound (by simp [Action.gives, eq_comm])
  | edit file text =>
    rw [perform_edit]
    cases isOpen : workspace.isOpen file with
    | true => exact effect_of_openWith sound (by simp [Action.gives, eq_comm])
    | false =>
      refine .idle fun other gives => ?_
      have same : file = other := by simpa [Action.gives] using gives
      exact same ▸ isOpen
  | close file =>
    rcases perform_close workspace file with ⟨_, same⟩ | ⟨isOpen, closed⟩
    · rw [same]
      exact .idle fun _ gives => nomatch gives
    · obtain ⟨documents, changes⟩ := close_changes sound closed
      exact .closed (fun _ => rfl) isOpen documents changes
  | write path text => cases keeps
  | delete path => cases keeps

/-! ## Runs -/

theorem run_settled [Alphabets] (settled : Settled workspace) (actions : List Action) :
    Settled (workspace.run actions) := by
  induction actions generalizing workspace with
  | nil => exact settled
  | cons action rest ih => exact ih (perform_settled settled action)

/-- What every action keeps that begins in a settled workspace, every run keeps. -/
theorem run_keeps [Alphabets] {holds : Workspace → Prop} (settled : Settled workspace)
    (kept : holds workspace)
    (step : ∀ {workspace}, Settled workspace → holds workspace →
      ∀ action, holds (workspace.perform action))
    (actions : List Action) : holds (workspace.run actions) := by
  induction actions generalizing workspace with
  | nil => exact kept
  | cons action rest ih => exact ih (perform_settled settled action) (step settled kept action)

theorem mem_roots_iff (sound : Sound workspace []) {handle : Handle} :
    handle ∈ workspace.roots ↔ ∃ file document, workspace.documents.get? file = some document ∧
      handle ∈ document.record.dependencies := by
  constructor
  · intro root
    obtain ⟨⟨file, document⟩, member, edge⟩ := List.mem_flatMap.mp root
    exact ⟨file, document, (Table.mem_entries_iff sound.documents_distinct).mp member, edge⟩
  · rintro ⟨file, document, found, edge⟩
    exact List.mem_flatMap.mpr ⟨(file, document), Table.mem_of_get? found, edge⟩

/--
After any run the live nodes are exactly those that the edges of the open documents lead to through
the edges of the records, and only live nodes have records.
-/
theorem run_live_iff_reach [Alphabets] (config : Config) (files : FileStore) (actions : List Action) :
    (∀ handle, ((start config files).run actions).graph.isAlive handle = true ↔
      Reach ((start config files).run actions).records.edges
        ((start config files).run actions).roots handle) ∧
    (∀ handle, handle ∈ ((start config files).run actions).roots ↔
      ∃ file document, ((start config files).run actions).documents.get? file = some document ∧
        handle ∈ document.record.dependencies) ∧
    (∀ handle, (((start config files).run actions).records.get? handle).isSome →
      ((start config files).run actions).graph.isAlive handle = true) := by
  have settled := run_settled (start_settled config files) actions
  refine ⟨fun handle => ⟨fun alive => ?_, fun reached => ?_⟩, fun _ => mem_roots_iff settled.sound, ?_⟩
  · have reached := settled.covered handle alive
    rwa [List.append_nil] at reached
  · exact reached.of_closed (fun _ root => settled.sound.root_alive root)
      fun _ _ _ edge => settled.sound.edge_alive edge
  · intro handle stored
    obtain ⟨record, found⟩ := Option.isSome_iff_exists.mp stored
    exact settled.sound.record_alive found

/--
After any run the edges of every open document, and of every node that has a record, are live handles
of the files that its inclusions were resolved to: one for each file, in the order of first mention.
-/
theorem run_tied [Alphabets] (config : Config) (files : FileStore) (actions : List Action) :
    (∀ file document, ((start config files).run actions).documents.get? file = some document →
      document.record.dependencies.map ((start config files).run actions).graph.file? =
        document.record.targets.map some) ∧
    (∀ handle record, ((start config files).run actions).records.get? handle = some record →
      ((start config files).run actions).graph.isAlive handle = true ∧
      record.dependencies.map ((start config files).run actions).graph.file? =
        record.targets.map some) := by
  have settled := run_settled (start_settled config files) actions
  constructor
  · intro file document found
    exact settled.sound.documents_tied _ (Table.mem_of_get? found)
  · intro handle record found
    exact ⟨settled.sound.record_alive found, settled.sound.record_tied found⟩

end PawnScope.Workspace
