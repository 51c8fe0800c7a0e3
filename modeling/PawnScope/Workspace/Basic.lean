import PawnScope.Cursor.Basic
import PawnScope.Graph.Teardown
import PawnScope.Scope.Merge
/-!
A workspace: the open documents, the files behind them, and the graph of everything that the open
documents include. The text of an open document goes before the file of the same id.
-/

namespace PawnScope

/-- A document that is open in an editor. -/
structure Document where
  buffer : Buffer
  record : FileRecord
deriving DecidableEq, Repr

/-- The state of a workspace. -/
structure Workspace where
  search : SearchPath
  files : FileStore
  documents : Table SourceId Document
  graph : IncludeGraph
  /-- The records of the nodes of the graph; a node that could not be read has none. -/
  records : RecordTable
deriving DecidableEq, Repr

namespace Workspace

/-- A workspace without open documents. -/
def start (config : Config) (files : FileStore) : Workspace :=
  ⟨.ofConfig config, files, .empty, .empty, .empty⟩

def isOpen (workspace : Workspace) (file : SourceId) : Bool :=
  workspace.documents.contains file

/-- The open document of an id. -/
def document (workspace : Workspace) (file : SourceId) : Except Failure Document :=
  match workspace.documents.get? file with
  | some document => .ok document
  | none => .error (.notOpen file)

/-- The node that stands for a file: by its id as it is, or by the normal form of it. -/
def nodeOf? (workspace : Workspace) (file : SourceId) : Option Handle :=
  workspace.graph.handleOf? file <|> workspace.graph.handleOf? file.normal

/-- The text that an included file has now. -/
def currentText? (workspace : Workspace) (file : SourceId) : Option Text :=
  match workspace.documents.get? file with
  | some document => some document.buffer.chars
  | none => workspace.files.text? file.toPath

/-- The edges of all open documents. -/
def roots (workspace : Workspace) : List Handle :=
  workspace.documents.entries.flatMap fun entry => entry.2.record.dependencies

/-- The scope of an open document. -/
def scope (workspace : Workspace) (file : SourceId) : Except Failure Scope :=
  (workspace.document file).map fun document =>
    .ofRecord workspace.records (workspace.nodeOf? document.record.file) document.record

end Workspace

end PawnScope
