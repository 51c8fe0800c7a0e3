import PawnScope.Workspace.Load
/-!
Opening, editing and closing documents. Each brings the record of the document up to date, then
that of the node which stands for it, and gives back the references that are not needed any more.
-/

namespace PawnScope.Workspace

variable [Alphabets]

/-- Give references back, and delete what no open document leads to any more. -/
def release (workspace : Workspace) (dropped : List Handle) : Workspace :=
  if dropped.isEmpty then workspace
  else
    let released := workspace.graph.releaseAll workspace.records.edges dropped
    let swept := released.graph.sweep workspace.records.edges workspace.roots
    { workspace with
      graph := swept.graph
      records := (released.deleted ++ swept.deleted).foldl Table.erase workspace.records }

/-- A workspace after a node has been brought up to date, and the edges that it dropped. -/
structure Refreshed where
  workspace : Workspace
  dropped : List Handle
deriving DecidableEq, Repr

/-- Bring the node that stands for a file, if there is one, up to date with a text. -/
def refresh (workspace : Workspace) (file : SourceId) (text : Text) : Refreshed :=
  match workspace.nodeOf? file with
  | none => ⟨workspace, []⟩
  | some handle =>
    match workspace.graph.node? handle with
    | none => ⟨workspace, []⟩
    | some node =>
      let built := workspace.build node.file text true (workspace.records.edges handle)
      let records := built.workspace.records.insert handle built.record
      ⟨{ built.workspace with records }, built.dropped⟩

/-- The edges of an open document. -/
def documentEdges (workspace : Workspace) (file : SourceId) : List Handle :=
  match workspace.documents.get? file with
  | some document => document.record.dependencies
  | none => []

/-- Give a document a text, opening it if it is not open. -/
def openWith (workspace : Workspace) (file : SourceId) (text : Text) : Workspace :=
  let built := workspace.build file text false (workspace.documentEdges file)
  let documents := built.workspace.documents.insert file ⟨.ofText text, built.record⟩
  let refreshed := { built.workspace with documents }.refresh file text
  (refreshed.workspace.release built.dropped).release refreshed.dropped

/-- Give a document that is open another text. -/
def edit (workspace : Workspace) (file : SourceId) (text : Text) :
    Except Failure Workspace :=
  (workspace.document file).map fun _ => workspace.openWith file text

/-- Close a document; whoever includes it falls back to its file. -/
def close (workspace : Workspace) (file : SourceId) : Except Failure Workspace :=
  (workspace.document file).map fun document =>
    let documents := workspace.documents.erase file
    let left := { workspace with documents }.release document.record.dependencies
    match left.currentText? file with
    | none => left
    | some text =>
      let refreshed := left.refresh file text
      refreshed.workspace.release refreshed.dropped

end PawnScope.Workspace
