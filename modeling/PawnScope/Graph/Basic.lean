import PawnScope.Path.SourceId
import PawnScope.Table
/-!
The graph of included files. A node stands for one file and counts the references to it. Nodes live
in slots that are used again; a handle names a slot together with its generation, and a deletion
moves the slot on to the next generation, so that a handle dies with its node. A table leads from
files to their nodes.
-/

namespace PawnScope

/-- A name for a node, dead once the node is deleted. -/
structure Handle where
  index : Nat
  generation : UInt32
deriving DecidableEq, Repr

/-- An included file, and the number of references to it. -/
structure Node where
  file : SourceId
  references : Nat
deriving DecidableEq, Repr

structure Slot where
  generation : UInt32
  node : Option Node
deriving DecidableEq, Repr

/-- The nodes in their slots; of the free slots the one freed last comes first. -/
structure IncludeGraph where
  slots : List Slot
  free : List Nat
  /-- The live nodes by file. -/
  byFile : Table SourceId Handle
deriving DecidableEq, Repr

namespace IncludeGraph

def empty : IncludeGraph :=
  ⟨[], [], .empty⟩

/-- The node that a handle names, if it is still alive. -/
def node? (graph : IncludeGraph) (handle : Handle) : Option Node :=
  match graph.slots[handle.index]? with
  | some slot => if slot.generation = handle.generation then slot.node else none
  | none => none

def isAlive (graph : IncludeGraph) (handle : Handle) : Bool :=
  (graph.node? handle).isSome

/-- The live nodes with their handles, in slot order, of slots that begin at `index`. -/
def nodesFrom (index : Nat) : List Slot → List (Handle × Node)
  | [] => []
  | ⟨generation, some node⟩ :: rest => (⟨index, generation⟩, node) :: nodesFrom (index + 1) rest
  | ⟨_, none⟩ :: rest => nodesFrom (index + 1) rest

/-- The live nodes with their handles, in slot order. -/
def nodes (graph : IncludeGraph) : List (Handle × Node) :=
  nodesFrom 0 graph.slots

/-- The live handles, in slot order. -/
def handles (graph : IncludeGraph) : List Handle :=
  graph.nodes.map Prod.fst

/-- How many live nodes there are, by the table of files. -/
def size (graph : IncludeGraph) : Nat :=
  graph.byFile.size

def isEmpty (graph : IncludeGraph) : Bool :=
  graph.size == 0

/-- The handle of the live node for a file. -/
def handleOf? (graph : IncludeGraph) (file : SourceId) : Option Handle :=
  graph.byFile.get? file

/-- Put a node, or nothing, into the slot of a handle. -/
def setNode (graph : IncludeGraph) (handle : Handle) (node : Option Node) : IncludeGraph :=
  { graph with slots := graph.slots.set handle.index ⟨handle.generation, node⟩ }

/-- A reference to a file: its node, and whether the node is new. -/
structure Retained where
  graph : IncludeGraph
  handle : Handle
  isNew : Bool
deriving DecidableEq, Repr

/-- A new node with one reference, in the slot freed last or in a slot of its own. -/
def create (graph : IncludeGraph) (file : SourceId) : IncludeGraph × Handle :=
  match graph.free with
  | index :: free =>
    let handle : Handle := ⟨index, ((graph.slots[index]?).map Slot.generation).getD 0⟩
    let byFile := graph.byFile.insert file handle
    ({ graph with free, byFile }.setNode handle (some ⟨file, 1⟩), handle)
  | [] =>
    let handle : Handle := ⟨graph.slots.length, 0⟩
    let byFile := graph.byFile.insert file handle
    ({ graph with slots := graph.slots ++ [⟨0, some ⟨file, 1⟩⟩], byFile }, handle)

/-- Add a reference to a file. -/
def retain (graph : IncludeGraph) (file : SourceId) : Retained :=
  match graph.handleOf? file with
  | some handle =>
    match graph.node? handle with
    | some node =>
      ⟨graph.setNode handle (some { node with references := node.references + 1 }), handle, false⟩
    | none => ⟨graph, handle, false⟩
  | none => ⟨(graph.create file).1, (graph.create file).2, true⟩

/-- Delete a live node. -/
def delete (graph : IncludeGraph) (handle : Handle) : IncludeGraph :=
  { slots := graph.slots.set handle.index ⟨handle.generation + 1, none⟩
    free := handle.index :: graph.free
    byFile :=
      match graph.node? handle with
      | some node => graph.byFile.erase node.file
      | none => graph.byFile }

/-- Take a reference from a node; the last one deletes it. The answer says whether it did. -/
def release (graph : IncludeGraph) (handle : Handle) : IncludeGraph × Bool :=
  match graph.node? handle with
  | none => (graph, false)
  | some node =>
    if node.references ≤ 1 then (graph.delete handle, true)
    else (graph.setNode handle (some { node with references := node.references - 1 }), false)

/-- Take a reference from the node for a file. -/
def releaseFile (graph : IncludeGraph) (file : SourceId) : IncludeGraph × Bool :=
  match graph.handleOf? file with
  | some handle => graph.release handle
  | none => (graph, false)

end IncludeGraph

end PawnScope
