import PawnScope.Source.Outline
import PawnScope.Workspace.Basic
/-!
Building the record of a file and linking it to the files it includes. A file that gets its first
reference is loaded at once, with all that it includes in turn; one that has a node already is only
referred to, so that cycles end.
-/

namespace PawnScope.Workspace

variable [Alphabets]

/-- The record of a text, without edges yet. -/
def outlineRecord (workspace : Workspace) (file : SourceId) (text : Text) (skipStatic : Bool) :
    FileRecord :=
  let outline := Outline.ofText file text skipStatic
  .ofOutline file outline (workspace.search.resolveAll workspace.files outline.inclusions file)

/-- Among `edges` the one to the node of a file. -/
def edgeTo? (workspace : Workspace) (edges : List Handle) (file : SourceId) : Option Handle :=
  edges.find? fun handle => (workspace.graph.node? handle).any (·.file = file)

/-- A workspace after linking, and the edges that were asked for. -/
structure Linked where
  workspace : Workspace
  edges : List Handle
deriving DecidableEq, Repr

/--
Edges to the files of `targets`, in order. An edge that is among `old` is kept as it is; for any
other a reference is added, and `load` is called for a node that is new.
-/
def link (load : Workspace → Handle → SourceId → Workspace) (old : List Handle)
    (workspace : Workspace) : List SourceId → Linked
  | [] => ⟨workspace, []⟩
  | target :: rest =>
    match workspace.edgeTo? old target with
    | some handle =>
      let linked := link load old workspace rest
      ⟨linked.workspace, handle :: linked.edges⟩
    | none =>
      let retained := workspace.graph.retain target
      let workspace := { workspace with graph := retained.graph }
      let workspace :=
        if retained.isNew then load workspace retained.handle target else workspace
      let linked := link load old workspace rest
      ⟨linked.workspace, retained.handle :: linked.edges⟩

/-- Load the file of a new node, following inclusions no deeper than `depth`. -/
def load : Nat → Workspace → Handle → SourceId → Workspace
  | 0, workspace, _, _ => workspace
  | depth + 1, workspace, handle, file =>
    match workspace.currentText? file with
    | none => workspace
    | some text =>
      let record := workspace.outlineRecord file text true
      let linked := link (load depth) [] workspace record.targets
      let record := { record with dependencies := linked.edges }
      { linked.workspace with records := linked.workspace.records.insert handle record }

/-- A path of new nodes is never longer than the files are many. -/
def loadDepth (workspace : Workspace) : Nat :=
  workspace.files.entries.length

/-- A record that has been built, and the old edges that it does not need any more. -/
structure Built where
  workspace : Workspace
  record : FileRecord
  dropped : List Handle
deriving DecidableEq, Repr

/-- Build the record of a text whose file had the edges `old` before. -/
def build (workspace : Workspace) (file : SourceId) (text : Text) (skipStatic : Bool)
    (old : List Handle) : Built :=
  let record := workspace.outlineRecord file text skipStatic
  let linked := link (load workspace.loadDepth) old workspace record.targets
  ⟨linked.workspace, { record with dependencies := linked.edges },
    old.filter (!linked.edges.contains ·)⟩

end PawnScope.Workspace
