import PawnScope.Graph.Preorder
import PawnScope.Scope.Basic
import PawnScope.Scope.Record
/-!
The scope of a file: its own symbols, and those of all files that its inclusions lead to, each file
once and in depth-first preorder. Of two callables with one key a prototype goes before a body, and
otherwise the one met first stays.
-/

namespace PawnScope

namespace Scope

/-- A further callable: it takes the place of a body with its key if it is a prototype. -/
def absorb (callable : Callable) : List Callable → List Callable
  | [] => [callable]
  | other :: rest =>
    if other.key = callable.key then
      (if callable.isPrototype && !other.isPrototype then callable else other) :: rest
    else other :: absorb callable rest

/-- The symbols of the file itself; of two callables with one key the later one stays. -/
def own (record : FileRecord) : Scope where
  callables :=
    record.callables.foldl (fun callables callable => Outline.place callable callables) []
  globals := record.globals
  constants := record.constants

/-- The symbols of an included file. -/
def add (scope : Scope) (record : FileRecord) : Scope where
  callables :=
    record.callables.foldl (fun callables callable => absorb callable callables)
      scope.callables
  globals := scope.globals ++ record.globals
  constants := scope.constants ++ record.constants

/-- The nodes that a file's inclusions lead to, in preorder; `self` stands for the file itself. -/
def visited (records : RecordTable) (self : Option Handle) (record : FileRecord) : List Handle :=
  (preorder records.edges (records.entries.length + 1) self.toList record.dependencies).drop
    self.toList.length

/-- The scope of a file; `self` is the node that stands for it, if something includes it. -/
def ofRecord (records : RecordTable) (self : Option Handle) (record : FileRecord) : Scope :=
  ((visited records self record).filterMap records.get?).foldl add (own record)

end Scope

end PawnScope
