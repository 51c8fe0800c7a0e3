import PawnScope.Identifier.European
import PawnScope.Proofs.Source.Statics
import PawnScope.Proofs.Workspace.FromScratch
/-!
Typing that leaves the included files what they are. An edit builds two records, that of the document
and that of its node. Each finds all its edges among the old ones, so that no reference is taken, and
needs all of them, so that none is given back. Main result: `run_edit_steady`.
-/

namespace PawnScope

/-- What is included does not depend on the edges. -/
theorem FileRecord.targets_of_unlinked {record outline : FileRecord}
    (same : record.unlinked = outline) : record.targets = outline.targets :=
  same ▸ rfl

namespace Workspace

/-- The graph is what it was, and so is the record of every node but `node`. -/
structure Steady (node : Option Handle) (before after : Workspace) : Prop where
  graph : after.graph = before.graph
  record : ∀ {handle}, node ≠ some handle → after.records.get? handle = before.records.get? handle

variable {workspace : Workspace} {owed : List Handle} {record : FileRecord} {file : SourceId}
  {text : Text} {skipStatic : Bool}

/-! ## Building -/

/-- Among the edges of a record there is one to each file that it includes. -/
theorem edgeTo?_of_tied (tied : record.Tied workspace.graph) (listed : file ∈ record.targets) :
    ∃ handle, workspace.edgeTo? record.dependencies file = some handle := by
  have named : some file ∈ record.dependencies.map workspace.graph.file? :=
    tied ▸ List.mem_map_of_mem listed
  obtain ⟨handle, edge, named⟩ := List.mem_map.mp named
  obtain ⟨node, alive, same⟩ := IncludeGraph.file?_eq_some_iff.mp named
  rw [edgeTo?, ← Option.isSome_iff_exists, List.find?_isSome]
  exact ⟨handle, edge, by simp [alive, same]⟩

/-- Linking to files that there are edges to takes no reference. -/
theorem link_steady (load : Workspace → Handle → SourceId → Workspace)
    (tied : record.Tied workspace.graph) {targets : List SourceId}
    (known : targets ⊆ record.targets) :
    (link load record.dependencies workspace targets).workspace = workspace := by
  induction targets with
  | nil => rfl
  | cons target rest ih =>
    obtain ⟨first, later⟩ := List.cons_subset.mp known
    obtain ⟨handle, found⟩ := edgeTo?_of_tied tied first
    rw [link, found]
    exact ih later

/-- A text that includes the files of a record is built out of the edges of that record. -/
theorem build_steady [Alphabets] (sound : Sound workspace owed)
    (alive : ∀ handle ∈ owed, workspace.graph.isAlive handle = true)
    (tied : record.Tied workspace.graph)
    (same : ∀ target, target ∈ (workspace.outlineRecord file text skipStatic).targets ↔
      target ∈ record.targets) :
    (workspace.build file text skipStatic record.dependencies).workspace = workspace ∧
      (workspace.build file text skipStatic record.dependencies).dropped = [] := by
  have builds := build_builds sound alive file text skipStatic record.dependencies
  have stays : (workspace.build file text skipStatic record.dependencies).workspace = workspace :=
    link_steady _ tied fun target listed => (same target).mp listed
  refine ⟨stays, ?_⟩
  generalize workspace.build file text skipStatic record.dependencies = built at *
  rw [builds.dropped, List.filter_eq_nil_iff]
  intro handle edge
  -- the file of an old edge is included still, and there is only one handle for it
  have named : workspace.graph.file? handle ∈ record.targets.map some :=
    tied ▸ List.mem_map_of_mem edge
  obtain ⟨target, listed, named⟩ := List.mem_map.mp named
  have targets := FileRecord.targets_of_unlinked builds.record
  have relinked : some target ∈ built.record.dependencies.map built.workspace.graph.file? := by
    rw [builds.tied, targets]
    exact List.mem_map_of_mem ((same target).mpr listed)
  obtain ⟨other, kept, named'⟩ := List.mem_map.mp relinked
  rw [stays] at named'
  have equal : handle = other := sound.graph.file_unique named.symm named'
  simpa [equal] using kept

/-! ## Editing -/

/-- What is included does not depend on whether static symbols are read. -/
theorem targets_outlineRecord [Alphabets] (workspace : Workspace) (file : SourceId) (text : Text)
    (skipStatic skipStatic' : Bool) :
    (workspace.outlineRecord file text skipStatic).targets =
      (workspace.outlineRecord file text skipStatic').targets := by
  simp only [outlineRecord, FileRecord.targets, FileRecord.ofOutline]
  rw [Outline.inclusions_ofText file text skipStatic skipStatic']

theorem release_nil (workspace : Workspace) : workspace.release [] = workspace :=
  rfl

/-- Bringing the node of a file up to date leaves the graph alone if it includes the same files. -/
theorem refresh_steady [Alphabets] (sound : Sound workspace []) (file : SourceId) (text : Text)
    (own : ∀ handle, workspace.nodeOf? file = some handle →
      workspace.graph.file? handle = some file ∧
        ∃ record, workspace.records.get? handle = some record ∧
          ∀ target, target ∈ (workspace.outlineRecord file text true).targets ↔
            target ∈ record.targets) :
    Steady (workspace.nodeOf? file) workspace (workspace.refresh file text).workspace ∧
      (workspace.refresh file text).dropped = [] := by
  unfold refresh
  cases found : workspace.nodeOf? file with
  | none => exact ⟨⟨rfl, fun _ => rfl⟩, rfl⟩
  | some handle =>
    obtain ⟨named, record, stored, same⟩ := own handle found
    obtain ⟨node, alive, rfl⟩ := IncludeGraph.file?_eq_some_iff.mp named
    have edges : workspace.records.edges handle = record.dependencies := by
      rw [RecordTable.edges_eq, stored, Option.elim_some]
    obtain ⟨stays, kept⟩ := build_steady sound (by simp) (sound.record_tied stored) same
    simp only [alive, edges]
    refine ⟨⟨?_, fun {other} differ => ?_⟩, kept⟩
    · rw [stays]
    · rw [Table.get?_insert_of_ne _ _ fun equal => differ (congrArg some equal.symm), stays]

namespace Current

variable {document : Document} {handle : Handle}

/-- The node of an open document includes what the document includes. -/
theorem node_targets [Alphabets] (current : Current workspace)
    (found : workspace.documents.get? file = some document)
    (node : workspace.nodeOf? file = some handle) :
    workspace.graph.file? handle = some file ∧
      ∃ record, workspace.records.get? handle = some record ∧
        record.targets = (workspace.outlineRecord file document.buffer.chars false).targets := by
  rw [current.filed.nodeOf?_eq_some_iff current.settled.sound,
    current.normal (isOpen_of_get? found)] at node
  obtain ⟨x, named, mirrors⟩ := current.nodes (IncludeGraph.isAlive_of_file? node)
  rw [node] at named
  cases named
  rw [currentText?, found, Option.map_some] at mirrors
  obtain ⟨record, stored, unlinked⟩ := Option.map_eq_some_iff.mp mirrors
  refine ⟨node, record, stored, ?_⟩
  rw [FileRecord.targets_of_unlinked unlinked, targets_outlineRecord workspace file _ true false]

/-- An edit that includes the same files leaves the graph alone. -/
theorem openWith_steady [Alphabets] (current : Current workspace)
    (found : workspace.documents.get? file = some document)
    (same : ∀ target, target ∈ (workspace.outlineRecord file text false).targets ↔
      target ∈ (workspace.outlineRecord file document.buffer.chars false).targets) :
    Steady (workspace.nodeOf? file) workspace (workspace.openWith file text) := by
  have sound := current.settled.sound
  have tied : document.record.Tied workspace.graph :=
    sound.documents_tied _ (Table.mem_of_get? found)
  have edges : workspace.documentEdges file = document.record.dependencies := by
    rw [documentEdges_eq, found, Option.elim_some]
  have targets := FileRecord.targets_of_unlinked (current.documents found)
  have builds := build_builds sound (by simp) file text false (workspace.documentEdges file)
  obtain ⟨stays, kept⟩ := build_steady sound (by simp) tied (targets ▸ same)
  rw [← edges] at stays kept
  rw [openWith_eq]
  generalize workspace.build file text false (workspace.documentEdges file) = built at *
  obtain ⟨built, record, dropped⟩ := built
  cases stays
  cases kept
  have placed := builds.placed_sound text
  obtain ⟨steady, none⟩ := refresh_steady placed file text (by
    intro handle node
    obtain ⟨named, record, stored, told⟩ := current.node_targets found node
    refine ⟨named, record, stored, fun target => ?_⟩
    rw [told, ← same]
    exact targets_outlineRecord built file text true false ▸ Iff.rfl)
  rw [settle, none, release_nil, release_nil]
  exact ⟨steady.graph, steady.record⟩

end Current

/--
After any run that opens, edits and closes documents under normal ids, over files that stay what they
are, an edit that includes the same files as before, in any order and any number of times, succeeds
and leaves the graph exactly as it was, and the record of every node but that of the document.
-/
theorem run_edit_steady [Alphabets] (config : Config) (files : FileStore) (keys : files.Normal)
    (actions : List Action) (edits : ∀ action ∈ actions, action.isNormalEdit = true)
    {file : SourceId} {document : Document} (text : Text)
    (found : ((start config files).run actions).documents.get? file = some document)
    (same : ∀ target,
      target ∈ (((start config files).run actions).outlineRecord file text false).targets ↔
        target ∈ (((start config files).run actions).outlineRecord file document.buffer.chars
          false).targets) :
    ∃ after, ((start config files).run actions).edit file text = .ok after ∧
      after.graph = ((start config files).run actions).graph ∧
      ∀ handle, ((start config files).run actions).nodeOf? file ≠ some handle →
        after.records.get? handle = ((start config files).run actions).records.get? handle := by
  obtain ⟨current, _⟩ := run_current (start_current config files) keys edits
  have steady := current.openWith_steady found same
  refine ⟨_, ?_, steady.graph, fun _ differ => steady.record differ⟩
  rw [edit, Workspace.document, found]
  rfl

/-! ## Typing in a cycle -/

/-- One file of a cycle is open, includes itself, and is included. -/
def openCyclic : List Action :=
  [.openWith ⟨"/src/m.sma".toList⟩ "#include <a>".toList,
    .openWith ⟨"/inc/a.inc".toList⟩ "#include <b>\n#include <a>".toList]

open scoped Identifier.European

/-- Its inclusions are put into another order, and one of them is repeated. -/
theorem run_edit_steady_cyclic :
    ∃ after, ((start cyclicConfig cyclicFiles).run openCyclic).edit ⟨"/inc/a.inc".toList⟩
        "#include <a>\nnew typed;\n#include <b>\n#include <a>".toList = .ok after ∧
      after.graph = ((start cyclicConfig cyclicFiles).run openCyclic).graph ∧
      after.records.get? ⟨1, 0⟩ =
        ((start cyclicConfig cyclicFiles).run openCyclic).records.get? ⟨1, 0⟩ := by
  have texts : (((start cyclicConfig cyclicFiles).run openCyclic).documents.get?
      ⟨"/inc/a.inc".toList⟩).map (·.buffer.chars) = some "#include <b>\n#include <a>".toList := by
    decide +kernel
  obtain ⟨document, found, chars⟩ := Option.map_eq_some_iff.mp texts
  have before : (((start cyclicConfig cyclicFiles).run openCyclic).outlineRecord
      ⟨"/inc/a.inc".toList⟩ "#include <b>\n#include <a>".toList false).targets =
        [⟨"/inc/b.inc".toList⟩, ⟨"/inc/a.inc".toList⟩] := by
    decide +kernel
  have typed : (((start cyclicConfig cyclicFiles).run openCyclic).outlineRecord
      ⟨"/inc/a.inc".toList⟩ "#include <a>\nnew typed;\n#include <b>\n#include <a>".toList
        false).targets = [⟨"/inc/a.inc".toList⟩, ⟨"/inc/b.inc".toList⟩] := by
    decide +kernel
  obtain ⟨after, edited, graph, records⟩ := run_edit_steady cyclicConfig cyclicFiles
    (by decide +kernel) openCyclic (by decide +kernel)
    "#include <a>\nnew typed;\n#include <b>\n#include <a>".toList found (fun target => by
      rw [chars, before, typed]
      exact (List.Perm.swap ..).mem_iff)
  exact ⟨after, edited, graph, records _ (by decide +kernel)⟩

end Workspace

end PawnScope
