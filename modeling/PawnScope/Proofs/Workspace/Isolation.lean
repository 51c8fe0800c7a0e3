import PawnScope.Identifier.European
import PawnScope.Proofs.Workspace.Run
import PawnScope.Proofs.Workspace.Walk
/-!
What a change to one document leaves alone. A document sees what its edges lead to, so as long as the
node of the changed file is not among that, it sees the same afterwards, whatever nodes come and go.
Main results: `reach_kept`, for the nodes that a document leads to, and `run_scope_isolated`, for its
scope after any run.
-/

namespace PawnScope

/-- Edges that are tied in two graphs lead to the same files. -/
theorem FileRecord.Tied.file?_eq {record : FileRecord} {graph graph' : IncludeGraph}
    {handle : Handle} (tied : record.Tied graph) (tied' : record.Tied graph')
    (edge : handle ∈ record.dependencies) : graph'.file? handle = graph.file? handle :=
  List.map_inj_left.mp (tied'.trans tied.symm) handle edge

namespace Workspace

variable {workspace before after : Workspace} {file other : SourceId} {document : Document}
  {handle : Handle} {content : Option Text} {action : Action}

/-! ## One change -/

theorem Spelled.nodeOf?_alive (spelled : Spelled workspace) (sound : Sound workspace []) :
    ∀ handle ∈ workspace.nodeOf? file, workspace.graph.isAlive handle = true :=
  fun _ found => IncludeGraph.isAlive_of_file? ((spelled.nodeOf?_eq_some_iff sound).mp found)

/-- A node that survives keeps its record, unless it is the node of the changed file. -/
theorem Changes.record_kept [Alphabets] (changes : Changes before file content after)
    (sound : Sound before []) (spelled : Spelled before)
    (was : before.graph.isAlive handle = true)
    (same : after.graph.file? handle = before.graph.file? handle)
    (differ : before.nodeOf? file ≠ some handle) :
    after.records.get? handle = before.records.get? handle := by
  obtain ⟨x, named⟩ := IncludeGraph.isAlive_iff_file?.mp was
  have unlike : x ≠ file.normal := by
    rintro rfl
    exact differ ((spelled.nodeOf?_eq_some_iff sound).mpr named)
  have unlike' : x ≠ file := by
    rintro rfl
    exact unlike (spelled _ _ named).symm
  cases changes.others (same.trans named) unlike' unlike with
  | kept _ record => exact record
  | new dead _ =>
    rw [was] at dead
    cases dead

/-- What a document leads to stays what it is, if the node of the changed file is not part of it. -/
theorem Changes.reach_kept [Alphabets] (changes : Changes before file content after)
    (sound : Sound before []) (spelled : Spelled before)
    (found : before.documents.get? other = some document)
    (found' : after.documents.get? other = some document)
    (apart : ∀ handle, before.nodeOf? file = some handle →
      ¬ Reach before.records.edges document.record.dependencies handle)
    (reached : Reach before.records.edges document.record.dependencies handle) :
    after.graph.file? handle = before.graph.file? handle ∧
      after.records.get? handle = before.records.get? handle := by
  have record : ∀ {handle}, Reach before.records.edges document.record.dependencies handle →
      before.graph.isAlive handle = true →
      after.graph.file? handle = before.graph.file? handle →
      after.records.get? handle = before.records.get? handle :=
    fun reached was same =>
      changes.record_kept sound spelled was same fun own => apart _ own reached
  -- the same record is tied before and after, so its edges go to the same files
  induction reached with
  | @start handle edge =>
    have tied := sound.documents_tied _ (Table.mem_of_get? found)
    have tied' := changes.sound.documents_tied _ (Table.mem_of_get? found')
    have same := tied.file?_eq tied' edge
    exact ⟨same, record (.start edge) (tied.alive edge) same⟩
  | @step source target reached edge ih =>
    have step := reached.step edge
    rw [RecordTable.edges_eq] at edge
    cases stored : before.records.get? source with
    | none => simp [stored] at edge
    | some held =>
      rw [stored, Option.elim_some] at edge
      have tied := sound.record_tied stored
      have tied' := changes.sound.record_tied (ih.2.trans stored)
      have same := tied.file?_eq tied' edge
      exact ⟨same, record step (tied.alive edge) same⟩

theorem Changes.spelled [Alphabets] (changes : Changes before file content after)
    (spelled : Spelled before) : Spelled after := by
  intro handle x named
  rcases changes.named named with early | listed
  · exact spelled _ _ early
  · exact normal_of_mem_stored listed

/-- A document that does not lead to the node of the changed file has the same scope afterwards. -/
theorem Changes.scope_kept [Alphabets] (changes : Changes before file content after)
    (sound : Sound before []) (spelled : Spelled before)
    (found : before.documents.get? other = some document)
    (found' : after.documents.get? other = some document)
    (apart : ∀ handle, before.nodeOf? file = some handle →
      ¬ Reach before.records.edges document.record.dependencies handle) :
    after.scope other = before.scope other := by
  have spelled' := changes.spelled spelled
  have kept : ∀ {handle}, Reach before.records.edges document.record.dependencies handle →
      after.graph.file? handle = before.graph.file? handle ∧
        after.records.get? handle = before.records.get? handle :=
    changes.reach_kept sound spelled found found' apart
  have visited : Scope.visited after.records (after.nodeOf? document.record.file)
        document.record =
      Scope.visited before.records (before.nodeOf? document.record.file) document.record := by
    refine sound.visited_congr changes.sound found found' (spelled.nodeOf?_alive sound)
      (spelled'.nodeOf?_alive changes.sound) ?_ ?_
    · intro handle reached
      rw [RecordTable.edges_eq, RecordTable.edges_eq, (kept reached).2]
    · intro handle reached
      rw [spelled.nodeOf?_eq_some_iff sound, spelled'.nodeOf?_eq_some_iff changes.sound,
        (kept reached).1]
  have contributed :
      (Scope.visited before.records (before.nodeOf? document.record.file)
          document.record).filterMap after.records.get? =
        (Scope.visited before.records (before.nodeOf? document.record.file)
          document.record).filterMap before.records.get? := by
    refine List.filterMap_congr fun handle member => ?_
    exact (kept (sound.reach_of_visited (spelled.nodeOf?_alive sound) found member)).2
  rw [scope, scope, Workspace.document, Workspace.document, found, found']
  simp only [Except.map, Scope.ofRecord, visited, contributed]

/-! ## Runs -/

/-- The document that an action opens, edits or closes. -/
def Action.document? : Action → Option SourceId
  | openWith file _ => some file
  | edit file _ => some file
  | close file => some file
  | write _ _ => none
  | delete _ => none

/-- An action on a document changes that document, and no other, or does nothing. -/
theorem perform_changes [Alphabets] (sound : Sound workspace []) (about : action.document? = some file) :
    workspace.perform action = workspace ∨
      (∃ content, Changes workspace file content (workspace.perform action)) ∧
        ∀ other, other ≠ file →
          (workspace.perform action).documents.get? other = workspace.documents.get? other := by
  have given : ∀ text, (∃ content, Changes workspace file content (workspace.openWith file text)) ∧
      ∀ other, other ≠ file →
        (workspace.openWith file text).documents.get? other = workspace.documents.get? other := by
    intro text
    obtain ⟨record, documents, _⟩ := openWith_documents sound file text
    refine ⟨⟨_, openWith_changes sound file text⟩, fun other differ => ?_⟩
    rw [documents, Table.get?_insert_of_ne _ _ differ]
  cases action with
  | openWith file text =>
    cases about
    exact .inr (given text)
  | edit file text =>
    cases about
    rw [perform_edit]
    split
    · exact .inr (given text)
    · exact .inl rfl
  | close file =>
    cases about
    rcases perform_close workspace file with ⟨_, same⟩ | ⟨_, closed⟩
    · exact .inl same
    · obtain ⟨documents, changes⟩ := close_changes sound closed
      refine .inr ⟨⟨_, changes⟩, fun other differ => ?_⟩
      rw [documents, Table.get?_erase_of_ne _ differ]
  | write path text => cases about
  | delete path => cases about

theorem perform_spelled [Alphabets] (sound : Sound workspace []) (spelled : Spelled workspace)
    (action : Action) : Spelled (workspace.perform action) :=
  perform_keeps spelled (fun file text => (openWith_changes sound file text).spelled spelled)
    (fun _ _ closed => (close_changes sound closed).2.spelled spelled) (fun _ => spelled) action

theorem start_spelled (config : Config) (files : FileStore) : Spelled (start config files) := by
  intro handle x named
  cases named

theorem run_spelled [Alphabets] {actions : List Action} (settled : Settled workspace)
    (spelled : Spelled workspace) : Spelled (workspace.run actions) :=
  run_keeps settled spelled
    (fun settled spelled action => perform_spelled settled.sound spelled action) actions

/--
After any run, opening, editing or closing a document leaves the scope of every other open document
alone whose edges do not lead to the node that stands for the changed one.
-/
theorem run_scope_isolated [Alphabets] (config : Config) (files : FileStore) (actions : List Action)
    {action : Action} {file other : SourceId} {document : Document}
    (about : action.document? = some file) (differ : other ≠ file)
    (found : ((start config files).run actions).documents.get? other = some document)
    (apart : ∀ handle, ((start config files).run actions).nodeOf? file = some handle →
      ¬ Reach ((start config files).run actions).records.edges document.record.dependencies
        handle) :
    ∃ shown, ((start config files).run actions).scope other = .ok shown ∧
      (((start config files).run actions).perform action).scope other = .ok shown := by
  have settled := run_settled (start_settled config files) actions
  have spelled : Spelled ((start config files).run actions) :=
    run_spelled (start_settled config files) (start_spelled config files)
  generalize (start config files).run actions = workspace at *
  refine ⟨_, by rw [scope, Workspace.document, found]; rfl, ?_⟩
  have kept : (workspace.perform action).scope other = workspace.scope other := by
    rcases perform_changes settled.sound about with same | ⟨⟨_, changes⟩, others⟩
    · rw [same]
    · exact changes.scope_kept settled.sound spelled found ((others other differ).trans found)
        apart
  rw [kept, scope, Workspace.document, found]
  rfl

/-! ## Two documents apart -/

/-- Two files that include each other, and one that includes nothing. -/
def apartFiles : FileStore :=
  ⟨[(⟨"/inc/a.inc".toList⟩, "#include <b>\nnative one();".toList),
    (⟨"/inc/b.inc".toList⟩, "#include <a>\nnative two();".toList),
    (⟨"/inc/c.inc".toList⟩, "native three();".toList)]⟩

def apartConfig : Config :=
  { Config.default with includePaths := [⟨"/inc".toList⟩] }

/-- The third file is open, and included by another document than the first two. -/
def openApart : List Action :=
  [.openWith ⟨"/src/m.sma".toList⟩ "#include <a>".toList,
    .openWith ⟨"/src/n.sma".toList⟩ "#include <c>".toList,
    .openWith ⟨"/inc/c.inc".toList⟩ "#include <b>".toList]

open scoped Identifier.European

/-- What the first document leads to. -/
theorem mem_of_reach_apart {handle : Handle}
    (reached : Reach ((start apartConfig apartFiles).run openApart).records.edges [⟨0, 0⟩] handle) :
    handle ∈ [(⟨0, 0⟩ : Handle), ⟨1, 0⟩] :=
  reached.of_closed (by decide) (by decide +kernel)

/-- The open file loses its edge to a file that the first document leads to as well. -/
theorem run_scope_isolated_apart :
    ∃ shown, ((start apartConfig apartFiles).run openApart).scope ⟨"/src/m.sma".toList⟩ =
        .ok shown ∧
      (((start apartConfig apartFiles).run openApart).perform
        (.edit ⟨"/inc/c.inc".toList⟩ "native four();".toList)).scope ⟨"/src/m.sma".toList⟩ =
        .ok shown := by
  have edges : (((start apartConfig apartFiles).run openApart).documents.get?
      ⟨"/src/m.sma".toList⟩).map (·.record.dependencies) = some [⟨0, 0⟩] := by decide +kernel
  obtain ⟨document, found, leads⟩ := Option.map_eq_some_iff.mp edges
  have own : ((start apartConfig apartFiles).run openApart).nodeOf? ⟨"/inc/c.inc".toList⟩ =
      some ⟨2, 0⟩ := by decide +kernel
  refine run_scope_isolated apartConfig apartFiles openApart rfl (by decide) found ?_
  intro handle same reached
  rw [leads] at reached
  rw [own] at same
  cases same
  exact absurd (mem_of_reach_apart reached) (by decide)

end Workspace

end PawnScope
