import PawnScope.Graph.Basic
import PawnScope.Graph.Preorder
/-!
Giving references back: along the edges of every node that this deletes, and by sweeping away what
no root leads to. The second is needed for cycles, whose members refer to each other.
-/

namespace PawnScope

/-- The edges of a node, which whoever owns the node's data knows. -/
abbrev Edges := Handle → List Handle

namespace IncludeGraph

/-- A graph, and the nodes that were deleted to come to it, in the order of their deletion. -/
structure Deletion where
  graph : IncludeGraph
  deleted : List Handle
deriving DecidableEq, Repr

/-- A teardown under way. -/
structure Teardown where
  graph : IncludeGraph
  /-- The nodes that have given a reference back. -/
  visited : List Handle
  /-- The deleted nodes, in the order of their deletion. -/
  deleted : List Handle
deriving DecidableEq, Repr

namespace Teardown

/--
Take one reference from a node, at most once in a teardown, and go on along its edges if that
deletes it. A node that survives is still referred to, and so is all that it leads to.
-/
def visit (edges : Edges) : Nat → Teardown → Handle → Teardown
  | 0, teardown, _ => teardown
  | bound + 1, teardown, handle =>
    if !teardown.graph.isAlive handle || teardown.visited.contains handle then teardown
    else
      let released := teardown.graph.release handle
      let visited := handle :: teardown.visited
      if released.2 then
        (edges handle).foldl (visit edges bound)
          ⟨released.1, visited, teardown.deleted ++ [handle]⟩
      else ⟨released.1, visited, teardown.deleted⟩

end Teardown

/-- Take one reference from each of `start`, and from what deleted nodes lead to. -/
def releaseAll (graph : IncludeGraph) (edges : Edges) (start : List Handle) : Deletion :=
  let teardown := start.foldl (Teardown.visit edges (graph.slots.length + 1)) ⟨graph, [], []⟩
  ⟨teardown.graph, teardown.deleted⟩

/-- The live nodes that a path of live nodes leads to from a live root. -/
def reachable (graph : IncludeGraph) (edges : Edges) (roots : List Handle) : List Handle :=
  preorder (fun handle => (edges handle).filter graph.isAlive) (graph.slots.length + 1) []
    (roots.filter graph.isAlive)

/-- Delete what no root leads to, in slot order. -/
def sweep (graph : IncludeGraph) (edges : Edges) (roots : List Handle) : Deletion :=
  let kept := graph.reachable edges roots
  let orphans := graph.handles.filter (!kept.contains ·)
  ⟨orphans.foldl delete graph, orphans⟩

end IncludeGraph

end PawnScope
