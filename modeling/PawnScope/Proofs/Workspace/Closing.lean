import PawnScope.Identifier.European
import PawnScope.Proofs.Scope.Lookup
import PawnScope.Proofs.Source.Statics
import PawnScope.Proofs.Workspace.Buffers
import PawnScope.Proofs.Workspace.Isolation
/-!
What a document leaves behind when it is closed. Its node, if something still includes it, is read again
from the file, and the symbols of the buffer are gone from every scope; but if there is no file any more,
the node stays as it was. Main result: `run_close_falls_back`.
-/

namespace PawnScope

/-! ## The symbols of records -/

/-- All symbols that a record has. -/
def FileRecord.symbols (record : FileRecord) : List Symbol :=
  record.constants.map .constant ++ record.callables.map .callable ++ record.globals.map .global

/-- All symbols of the record are symbols of the file. -/
def FileRecord.IsOf (record : FileRecord) (file : SourceId) : Prop :=
  ∀ symbol ∈ record.symbols, symbol.file = file

theorem FileRecord.forall_symbols {record : FileRecord} {holds : Symbol → Prop} :
    (∀ symbol ∈ record.symbols, holds symbol) ↔
      (∀ constant ∈ record.constants, holds (.constant constant)) ∧
      (∀ callable ∈ record.callables, holds (.callable callable)) ∧
      ∀ global ∈ record.globals, holds (.global global) := by
  simp [FileRecord.symbols, or_imp, forall_and]

namespace Scope

variable {records : RecordTable} {self : Option Handle} {record : FileRecord}

/-- A symbol of a scope comes from the file itself or from the record of a node. -/
theorem symbol_mem_of_ofRecord (records : RecordTable) (self : Option Handle) (record : FileRecord) :
    ∀ symbol ∈ (ofRecord records self record).symbols, symbol ∈ record.symbols ∨
      ∃ handle included, records.get? handle = some included ∧ symbol ∈ included.symbols := by
  have listed (record : FileRecord) :=
    FileRecord.forall_symbols.mp fun symbol (member : symbol ∈ record.symbols) => member
  refine forall_symbols.mpr ⟨fun constant member => ?_, fun callable member => ?_,
    fun global member => ?_⟩
  · rw [constants_ofRecord] at member
    rcases own_or_included member with own | ⟨handle, included, stored, declared⟩
    · exact .inl ((listed record).1 constant own)
    · exact .inr ⟨handle, included, stored, (listed included).1 constant declared⟩
  · rcases callable_mem_of_ofRecord member with own | ⟨handle, included, stored, declared⟩
    · exact .inl ((listed record).2.1 callable own)
    · exact .inr ⟨handle, included, stored, (listed included).2.1 callable declared⟩
  · rw [globals_ofRecord] at member
    rcases own_or_included member with own | ⟨handle, included, stored, declared⟩
    · exact .inl ((listed record).2.2 global own)
    · exact .inr ⟨handle, included, stored, (listed included).2.2 global declared⟩

end Scope

namespace Workspace

variable {workspace before after : Workspace} {file other : SourceId} {handle : Handle} {text : Text}
  {record : FileRecord} {document : Document} {symbol : Symbol} {shown : Scope}

/-! ## Whose symbols there are -/

/-- A record that has been read from a text has symbols of its file only. -/
theorem isOf_of_unlinked [Alphabets] {skipStatic : Bool}
    (same : record.unlinked = workspace.outlineRecord file text skipStatic) : record.IsOf file := by
  have constants : record.constants = (Outline.ofText file text skipStatic).constants :=
    congrArg FileRecord.constants same
  have callables : record.callables = (Outline.ofText file text skipStatic).callables :=
    congrArg FileRecord.callables same
  have globals : record.globals = (Outline.ofText file text skipStatic).globals :=
    congrArg FileRecord.globals same
  rw [FileRecord.IsOf, FileRecord.forall_symbols, constants, callables, globals]
  exact ⟨fun _ member => Outline.of_constant_mem member,
    fun _ member => (Outline.of_callable_mem member).1,
    fun _ member => (Outline.of_global_mem member).1⟩

theorem Mirrors.isOf [Alphabets] (mirrors : Mirrors workspace handle)
    (named : workspace.graph.file? handle = some file)
    (found : workspace.records.get? handle = some record) : record.IsOf file := by
  obtain ⟨file', named', same⟩ := mirrors
  obtain rfl : file = file' := Option.some.inj (named.symm.trans named')
  rw [found, Option.map_some] at same
  obtain ⟨_, _, same⟩ := Option.map_eq_some_iff.mp same.symm
  exact isOf_of_unlinked same.symm

theorem Says.exists_record [Alphabets] (told : Says workspace handle file text) :
    ∃ record, workspace.records.get? handle = some record ∧
      record.unlinked = workspace.outlineRecord file text true :=
  Option.map_eq_some_iff.mp told

/-- Nodes have normal ids, and documents and nodes have symbols of their own files only. -/
structure Attributed (workspace : Workspace) : Prop where
  spelled : Spelled workspace
  documents : ∀ {file document}, workspace.documents.get? file = some document →
    document.record.IsOf file
  nodes : ∀ {handle file record}, workspace.graph.file? handle = some file →
    workspace.records.get? handle = some record → record.IsOf file

namespace Attributed

theorem start (config : Config) (files : FileStore) : Attributed (start config files) where
  spelled := start_spelled config files
  documents := fun found => nomatch found
  nodes := fun _ found => nomatch found

/-- A change that gives a file a text leaves its node and all others with symbols of their own files. -/
theorem changes [Alphabets] (attributed : Attributed before)
    (changes : Changes before file (some text) after)
    (documents : ∀ {file document}, after.documents.get? file = some document →
      document.record.IsOf file) : Attributed after where
  spelled := changes.spelled attributed.spelled
  documents := documents
  nodes := by
    intro handle x record named found
    have normal := changes.spelled attributed.spelled handle x named
    by_cases own : x = file.normal
    · obtain ⟨record', stored, outline⟩ :=
        (changes.own attributed.spelled rfl (own ▸ named)).exists_record
      rw [found] at stored
      obtain rfl : record = record' := Option.some.inj stored
      exact own ▸ isOf_of_unlinked outline
    · have differ : x ≠ file := fun same => own (same ▸ normal.symm)
      cases changes.others named differ own with
      | kept early same => exact attributed.nodes early (same ▸ found)
      | new _ mirrors => exact mirrors.isOf named found

theorem openWith [Alphabets] (attributed : Attributed workspace) (sound : Sound workspace [])
    (file : SourceId) (text : Text) : Attributed (workspace.openWith file text) := by
  refine attributed.changes (openWith_changes sound file text) ?_
  intro x document found
  rcases openWith_document sound found with ⟨rfl, _, outline⟩ | early
  · exact isOf_of_unlinked outline
  · exact attributed.documents early

theorem close [Alphabets] (attributed : Attributed workspace) (sound : Sound workspace [])
    (closed : workspace.close file = .ok after) : Attributed after := by
  obtain ⟨_, changes⟩ := close_changes sound closed
  have others : ∀ {x document}, after.documents.get? x = some document →
      document.record.IsOf x :=
    fun found => attributed.documents (close_document sound closed found)
  rcases close_cases sound closed with ⟨_, rfl⟩ | ⟨content, text, _⟩
  · have shrinks := (left_releases sound file).shrinks
    refine ⟨fun _ _ named => attributed.spelled _ _ (shrinks.file named), others,
      fun named found => attributed.nodes (shrinks.file named) ?_⟩
    rw [shrinks.record (IncludeGraph.isAlive_of_file? named)] at found
    exact found
  · exact attributed.changes (text ▸ changes) others

theorem with_files (attributed : Attributed workspace) (files : FileStore) :
    Attributed { workspace with files } :=
  ⟨attributed.spelled, attributed.documents, attributed.nodes⟩

theorem perform [Alphabets] (attributed : Attributed workspace) (sound : Sound workspace [])
    (action : Action) : Attributed (workspace.perform action) :=
  perform_keeps attributed (attributed.openWith sound)
    (fun _ _ closed => attributed.close sound closed) attributed.with_files action

/-- The node that a normal id finds is the one that has the id. -/
theorem nodeOf?_eq_some_iff (attributed : Attributed workspace) (sound : Sound workspace [])
    (normal : file.normal = file) :
    workspace.nodeOf? file = some handle ↔ workspace.graph.file? handle = some file := by
  rw [attributed.spelled.nodeOf?_eq_some_iff sound, normal]

/-- A symbol of a file that is not open comes from the record of its node. -/
theorem exists_record (attributed : Attributed workspace) (sound : Sound workspace [])
    (shut : workspace.isOpen file = false) (scope : workspace.scope other = .ok shown)
    (member : symbol ∈ shown.symbols) (own : symbol.file = file) :
    ∃ handle record, workspace.graph.file? handle = some file ∧
      workspace.records.get? handle = some record ∧ symbol ∈ record.symbols := by
  cases found : workspace.documents.get? other with
  | none =>
    rw [Workspace.scope, Workspace.document, found] at scope
    cases scope
  | some document =>
    rw [Workspace.scope, Workspace.document, found] at scope
    cases scope
    rcases Scope.symbol_mem_of_ofRecord _ _ _ symbol member with listed | ⟨handle, included, stored, listed⟩
    · have same : other = file := (attributed.documents found symbol listed).symm.trans own
      rw [← same, isOpen_of_get? found] at shut
      cases shut
    · obtain ⟨x, named⟩ := IncludeGraph.isAlive_iff_file?.mp (sound.record_alive stored)
      have same : x = file := (attributed.nodes named stored symbol listed).symm.trans own
      exact ⟨handle, included, same ▸ named, stored, listed⟩

end Attributed

/-! ## Closing -/

/-- The node of a file that is closed says what its file says; if there is none, it is left alone. -/
theorem close_node [Alphabets] (sound : Sound workspace []) (spelled : Spelled workspace)
    (normal : file.normal = file) (closed : workspace.close file = .ok after)
    (named : after.graph.file? handle = some file) :
    (∀ content, workspace.files.text? file.toPath = some content →
      Says after handle file content) ∧
    (workspace.files.text? file.toPath = none →
      workspace.graph.file? handle = some file ∧
        after.records.get? handle = workspace.records.get? handle) := by
  obtain ⟨_, changes⟩ := close_changes sound closed
  constructor
  · intro content text
    have told := changes.own spelled text (normal.symm ▸ named)
    rwa [normal] at told
  · intro absent
    rcases close_cases sound closed with ⟨_, rfl⟩ | ⟨content, text, _⟩
    · have shrinks := (left_releases sound file).shrinks
      exact ⟨shrinks.file named, shrinks.record (IncludeGraph.isAlive_of_file? named)⟩
    · rw [absent] at text
      cases text

/--
After any run, and whatever the files are then, a document that is open under its normal id can be
closed. If there is a file for it, its node says what the file says now, with edges to what that
includes, and every symbol of the file that an open document still shows is declared in the file. If
there is none, the node keeps the record that it had, and what is shown of the file is what it says.
-/
theorem run_close_falls_back [Alphabets] (config : Config) (files stored : FileStore)
    (actions : List Action)
    {file : SourceId} (normal : file.normal = file)
    (open' : ((start config files).run actions).isOpen file = true) :
    ∃ after, { (start config files).run actions with files := stored }.close file = .ok after ∧
      after.files = stored ∧ after.isOpen file = false ∧
      (∀ content, stored.text? file.toPath = some content →
        (∀ handle, after.nodeOf? file = some handle →
          ∃ record, after.records.get? handle = some record ∧
            record.unlinked = after.outlineRecord file content true ∧
            record.dependencies.map after.graph.file? = record.targets.map some) ∧
        ∀ other shown, after.scope other = .ok shown → ∀ symbol ∈ shown.symbols,
          symbol.file = file → symbol ∈ (after.outlineRecord file content true).symbols) ∧
      (stored.text? file.toPath = none →
        (∀ handle, after.nodeOf? file = some handle →
          ((start config files).run actions).nodeOf? file = some handle ∧
            after.records.get? handle = ((start config files).run actions).records.get? handle) ∧
        ∀ other shown, after.scope other = .ok shown → ∀ symbol ∈ shown.symbols,
          symbol.file = file → ∃ handle record, after.nodeOf? file = some handle ∧
            after.records.get? handle = some record ∧ symbol ∈ record.symbols) := by
  have settled := run_settled (start_settled config files) actions
  have attributed := run_keeps (start_settled config files) (Attributed.start config files)
    (fun settled attributed action => attributed.perform settled.sound action) actions
  generalize (start config files).run actions = workspace at *
  have sound := (settled.with_files stored).sound
  obtain ⟨after, closed⟩ : ∃ after, { workspace with files := stored }.close file = .ok after :=
    ⟨_, close_eq_perform (show isOpen { workspace with files := stored } file = true from open')⟩
  obtain ⟨documents, changes⟩ := close_changes sound closed
  have attributed' := (attributed.with_files stored).close sound closed
  have shut : after.isOpen file = false := by
    rw [isOpen, Table.contains, documents, Table.get?_erase_self]
    rfl
  have own {handle : Handle} : after.nodeOf? file = some handle ↔ after.graph.file? handle = some file :=
    attributed'.nodeOf?_eq_some_iff changes.sound normal
  have node {handle : Handle} (named : after.graph.file? handle = some file) :=
    close_node sound attributed.spelled normal closed named
  refine ⟨after, closed, changes.files, shut, fun content text => ⟨?_, ?_⟩, fun absent => ⟨?_, ?_⟩⟩
  · intro handle here
    obtain ⟨record, stored, outline⟩ := ((node (own.mp here)).1 content text).exists_record
    exact ⟨record, stored, outline, changes.sound.record_tied stored⟩
  · intro other shown scope symbol member same
    obtain ⟨handle, record, named, stored, listed⟩ :=
      attributed'.exists_record changes.sound shut scope member same
    obtain ⟨record', stored', outline⟩ := ((node named).1 content text).exists_record
    rw [stored] at stored'
    cases stored'
    rw [← outline]
    exact listed
  · intro handle here
    obtain ⟨early, kept⟩ := (node (own.mp here)).2 absent
    exact ⟨(attributed.nodeOf?_eq_some_iff settled.sound normal).mpr early, kept⟩
  · intro other shown scope symbol member same
    obtain ⟨handle, record, named, stored, listed⟩ :=
      attributed'.exists_record changes.sound shut scope member same
    exact ⟨handle, record, own.mpr named, stored, listed⟩

/-! ## A file that changes, or goes, while it is open -/

/-- The id of an include file. -/
def included : SourceId :=
  ⟨"/inc/a.inc".toList⟩

/-- The include file is opened while another document includes it. -/
def openBoth : List Action :=
  [openIncluder, .openWith included "#include <b>\nnew buf;".toList]

/-- The include file is another one now, and is part of a cycle. -/
def laterFiles : FileStore :=
  ⟨[(⟨"/inc/a.inc".toList⟩, "#include <b>\nnew late;".toList),
    (⟨"/inc/b.inc".toList⟩, "#include <a>\nnative two();".toList)]⟩

open scoped Identifier.European

/-- The workspace when the include file is closed and the files have become others. -/
def closedWith (stored : FileStore) : Workspace :=
  perform { (start incConfig incFiles).run openBoth with files := stored } (.close included)

theorem close_eq_closedWith (stored : FileStore) :
    close { (start incConfig incFiles).run openBoth with files := stored } included =
      .ok (closedWith stored) :=
  close_eq_perform (show isOpen ((start incConfig incFiles).run openBoth) included = true by
    decide +kernel)

/-- The node is read from the present file, and linked to what that includes. -/
theorem run_close_falls_back_later :
    ∃ after, { (start incConfig incFiles).run openBoth with files := laterFiles }.close included =
        .ok after ∧
      (∃ record, after.records.get? ⟨0, 0⟩ = some record ∧
        record.globals.map Global.name = ["late".toList] ∧
        record.dependencies.map after.graph.file? = [some ⟨"/inc/b.inc".toList⟩]) ∧
      ∀ shown, after.scope ⟨"/src/m.sma".toList⟩ = .ok shown → ∀ symbol ∈ shown.symbols,
        symbol.file = included → symbol.name = "late".toList := by
  have normal : included.normal = included := by decide +kernel
  obtain ⟨after, closed, _, _, present, _⟩ := run_close_falls_back incConfig incFiles laterFiles
    openBoth normal (by decide +kernel)
  obtain rfl := Except.ok.inj (closed.symm.trans (close_eq_closedWith laterFiles))
  obtain ⟨node, shows⟩ := present "#include <b>\nnew late;".toList (by decide +kernel)
  obtain ⟨record, stored, outline, tied⟩ := node ⟨0, 0⟩ (by decide +kernel)
  have globals := congrArg FileRecord.globals outline
  have targets := congrArg FileRecord.targets outline
  refine ⟨_, closed, ⟨record, stored, ?_, ?_⟩, ?_⟩
  · exact (congrArg (List.map Global.name) globals).trans (by decide +kernel)
  · exact tied.trans ((congrArg (List.map some) targets).trans (by decide +kernel))
  · intro shown scope symbol member own
    have listed := shows _ shown scope symbol member own
    have names : ∀ symbol ∈ ((closedWith laterFiles).outlineRecord included
        "#include <b>\nnew late;".toList true).symbols, symbol.name = "late".toList := by
      decide +kernel
    exact names symbol listed

/-- A file that is gone leaves the symbols of the buffer behind, though nothing else has it open. -/
theorem run_close_falls_back_gone :
    ¬∀ (config : Config) (files stored : FileStore) (actions : List Action) (file : SourceId),
      file.normal = file → ((start config files).run actions).isOpen file = true →
      Apart ((start config files).run actions) → stored.text? file.toPath = none →
      ∀ after, { (start config files).run actions with files := stored }.close file = .ok after →
      ∀ other shown, after.scope other = .ok shown → ∀ symbol ∈ shown.symbols,
        symbol.file ≠ file := by
  intro claimed
  have cleared := claimed incConfig incFiles .empty openBoth included (by decide +kernel)
    (by decide +kernel) (apart_of_entries _ (by decide +kernel)) (by decide +kernel) _
    (close_eq_closedWith .empty) ⟨"/src/m.sma".toList⟩
  have left : ((closedWith .empty).scope ⟨"/src/m.sma".toList⟩).toOption.any
      (·.symbols.any (·.file = included)) = true := by decide +kernel
  cases scope : (closedWith .empty).scope ⟨"/src/m.sma".toList⟩ with
  | error failure =>
    rw [scope] at left
    cases left
  | ok shown =>
    rw [scope] at left
    obtain ⟨symbol, member, own⟩ := List.any_eq_true.mp left
    exact cleared shown scope symbol member (of_decide_eq_true own)

end Workspace

end PawnScope
