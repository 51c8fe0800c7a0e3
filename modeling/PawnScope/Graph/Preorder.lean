/-!
Visiting the nodes of a graph in depth-first preorder, each node once.
-/

namespace PawnScope

/--
The nodes seen after visiting `todo` and all that `next` leads to, in the order of first visit;
`seen` has been visited before. A path longer than `bound` is not followed to its end.
-/
def preorder {α : Type} [BEq α] (next : α → List α) : Nat → List α → List α → List α
  | 0, seen, _ => seen
  | bound + 1, seen, todo =>
    todo.foldl
      (fun seen node =>
        if seen.contains node then seen else preorder next bound (seen ++ [node]) (next node))
      seen

end PawnScope
