import PawnScope.Graph.Basic
import PawnScope.Include.SearchPath
import PawnScope.Symbol.Outline
import PawnScope.Table
/-!
What is kept of each file: its symbols, its resolved inclusions, and its edges in the graph.
-/

namespace PawnScope

/-- What one file contributes. -/
structure FileRecord where
  file : SourceId
  inclusions : List FoundInclusion
  callables : List Callable
  globals : List Global
  constants : List Constant
  /-- The nodes of the included files, which the record does not keep alive. -/
  dependencies : List Handle
deriving DecidableEq, Repr

namespace FileRecord

/-- The record of an outline whose inclusions have been resolved, without edges yet. -/
def ofOutline (file : SourceId) (outline : Outline) (inclusions : List FoundInclusion) :
    FileRecord :=
  ⟨file, inclusions, outline.callables, outline.globals, outline.constants, []⟩

/-- The included files, each once, in the order in which they are named first. -/
def targets (record : FileRecord) : List SourceId :=
  (record.inclusions.map FoundInclusion.target).eraseDups

end FileRecord

/-- The records of included files by node. -/
abbrev RecordTable := Table Handle FileRecord

namespace RecordTable

/-- The edges that the records give; a node without a record has none. -/
def edges (records : RecordTable) (handle : Handle) : List Handle :=
  match records.get? handle with
  | some record => record.dependencies
  | none => []

end RecordTable

end PawnScope
