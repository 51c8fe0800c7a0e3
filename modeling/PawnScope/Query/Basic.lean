import PawnScope.Query.Completion
import PawnScope.Query.Hover
import PawnScope.Query.Signature
import PawnScope.Workspace.Basic
/-!
The questions that an editor asks at a position of an open document.
-/

namespace PawnScope.Workspace

variable [Alphabets]

/-- Ask `question` of the scope of an open document and of a cursor in it. -/
def ask (workspace : Workspace) (file : SourceId) (position : Position)
    (question : Scope → Cursor → α) : Except Failure α := do
  let document ← workspace.document file
  let scope ← workspace.scope file
  return question scope ⟨file, document.buffer, position⟩

/-- The declaration of what stands at a position. -/
def declaration (workspace : Workspace) (file : SourceId) (position : Position) :
    Except Failure (Option Query.Target) :=
  workspace.ask file position Query.target?

def hover (workspace : Workspace) (file : SourceId) (position : Position) :
    Except Failure (Option Query.Hover) :=
  workspace.ask file position Query.hover?

def completions (workspace : Workspace) (file : SourceId) (position : Position) :
    Except Failure (List Query.Completion) :=
  workspace.ask file position Query.completions

def signature (workspace : Workspace) (file : SourceId) (position : Position) :
    Except Failure (Option Query.Signature) :=
  workspace.ask file position Query.signature?

end PawnScope.Workspace
