import PawnScope.Proofs.Query.Target
import PawnScope.Proofs.Workspace.Closing
import PawnScope.Proofs.Workspace.FromScratch
import PawnScope.Query.Basic
/-!
Where the declarations are that a workspace leads to. After any run under normal ids, the declaration of
what stands at a position is in the text that its file has now, and the name of a function or a variable
stands there at the span: `run_declaration`. Questions fail only for documents that are not open
(`ask_eq_error_iff`), and what is shown at a position is what the declaration is looked up for
(`hover_declaration`).
-/

namespace PawnScope

/-! ## Symbols of outlines -/

namespace Outline

variable {file : SourceId} {text : Text} {skipStatic : Bool} {symbol : Symbol}

/-- The name of a function or of a variable stands in the text at its span. -/
theorem written_of_mem [Alphabets] {inclusions : List FoundInclusion}
    (member : symbol ∈ (FileRecord.ofOutline file (ofText file text skipStatic) inclusions).symbols)
    (declared : symbol.kind = .function ∨ symbol.kind = .global) :
    text.Written ((LineTable.ofText text).offset symbol.span.start)
      ((LineTable.ofText text).offset symbol.span.stop) symbol.name := by
  have declares : (ofText file text skipStatic).Declares symbol.name symbol.span := by
    cases symbol with
    | constant constant => rcases declared with kind | kind <;> contradiction
    | callable callable =>
      have kind : callable.kind = .function := by
        rcases declared with kind | kind
        · exact kind
        · cases template : callable.isTemplate <;> simp [Symbol.kind, Callable.kind, template] at kind
      exact .inr ⟨callable, by simpa [FileRecord.symbols, FileRecord.ofOutline] using member, kind, rfl, rfl⟩
    | global global =>
      exact .inl ⟨global, by simpa [FileRecord.symbols, FileRecord.ofOutline] using member, rfl, rfl⟩
  obtain ⟨above, rest, around, start, stop⟩ := around_of_declares declares
  rw [start, stop]
  refine Text.written_of_prefix around.filled ?_
  rw [around.whole, List.drop_left]
  exact List.prefix_append _ _

end Outline

namespace Workspace

variable {workspace : Workspace} {file : SourceId} {symbol : Symbol} {scope : Scope} {position : Position}

/-! ## Asking -/

/-- A question fails only if the document is not open. -/
theorem ask_eq_error_iff [Alphabets] {α : Type} {question : Scope → Cursor → α} {failure : Failure} :
    workspace.ask file position question = .error failure ↔
      workspace.isOpen file = false ∧ failure = .notOpen file := by
  unfold ask Workspace.scope Workspace.document isOpen Table.contains
  cases found : workspace.documents.get? file with
  | none => simp [bind, Except.bind, eq_comm]
  | some document => simp [bind, Except.bind, Except.map, pure, Except.pure]

/-- An answer is for the buffer of an open document, and for the scope that it has. -/
theorem of_ask [Alphabets] {α : Type} {question : Scope → Cursor → α} {answer : α}
    (answered : workspace.ask file position question = .ok answer) :
    ∃ document scope, workspace.documents.get? file = some document ∧ workspace.scope file = .ok scope ∧
      question scope ⟨file, document.buffer, position⟩ = answer := by
  unfold ask Workspace.document at answered
  cases found : workspace.documents.get? file with
  | none =>
    rw [found] at answered
    cases answered
  | some document =>
    rw [found] at answered
    cases shown : workspace.scope file with
    | error failure =>
      rw [shown] at answered
      cases answered
    | ok scope =>
      rw [shown] at answered
      exact ⟨document, scope, rfl, rfl, Except.ok.inj answered⟩

/-- In every workspace, what is shown at a position is what its declaration is looked up for. -/
theorem hover_declaration [Alphabets] (workspace : Workspace) (file : SourceId) (position : Position) :
    (workspace.hover file position).map (Option.map fun hover => (hover.name, hover.file)) =
      (workspace.declaration file position).map (Option.map fun target => (target.name, target.file)) := by
  unfold hover declaration ask
  cases workspace.document file with
  | error failure => rfl
  | ok document =>
    cases workspace.scope file with
    | error failure => rfl
    | ok scope => exact congrArg Except.ok (Query.hover?_target? scope _)

/-! ## Symbols of a scope -/

/-- A symbol that a document shows is one of the text that its file has now. -/
theorem Current.exists_text [Alphabets] (current : Current workspace)
    (shown : workspace.scope file = .ok scope) (member : symbol ∈ scope.symbols) :
    ∃ text skipStatic, workspace.currentText? symbol.file = some text ∧
      symbol ∈ (workspace.outlineRecord symbol.file text skipStatic).symbols := by
  unfold Workspace.scope Workspace.document at shown
  cases found : workspace.documents.get? file with
  | none =>
    rw [found] at shown
    cases shown
  | some document =>
    rw [found] at shown
    cases shown
    rcases Scope.symbol_mem_of_ofRecord _ _ _ symbol member with own | ⟨handle, included, stored, listed⟩
    · have outline := current.documents found
      obtain rfl : symbol.file = file := isOf_of_unlinked outline symbol own
      refine ⟨document.buffer.chars, false, ?_, ?_⟩
      · rw [currentText?, found]
      · rw [← outline]
        exact own
    · obtain ⟨other, named, mirrored⟩ := current.nodes (current.settled.sound.record_alive stored)
      rw [stored, Option.map_some] at mirrored
      obtain ⟨text, present, outline⟩ := Option.map_eq_some_iff.mp mirrored.symm
      obtain rfl : symbol.file = other := isOf_of_unlinked outline.symm symbol listed
      refine ⟨text, true, present, ?_⟩
      rw [outline]
      exact listed

/--
After any run that opens, edits and closes documents under normal ids, a declaration that is found is that
of a symbol which the document shows and which is named where the position is. The name of a function or of
a variable is written at its span in the text that its file has now, be that a buffer or a file.
-/
theorem run_declaration [Alphabets] (config : Config) (files : FileStore) (keys : files.Normal)
    (actions : List Action) (edits : ∀ action ∈ actions, action.isNormalEdit = true)
    {target : Query.Target}
    (found : ((start config files).run actions).declaration file position = .ok (some target)) :
    ∃ document scope reference, ((start config files).run actions).documents.get? file = some document ∧
      ((start config files).run actions).scope file = .ok scope ∧
      Query.Reference.Refers reference scope ⟨file, document.buffer, position⟩ ∧
      target =
        ⟨reference.symbol.file, reference.symbol.span, reference.symbol.kind, reference.symbol.name⟩ ∧
      (target.kind = .function ∨ target.kind = .global →
        ∃ text, ((start config files).run actions).currentText? target.file = some text ∧
          text.Written ((LineTable.ofText text).offset target.span.start)
            ((LineTable.ofText text).offset target.span.stop) target.name) := by
  obtain ⟨current, -, -⟩ := run_current (start_current config files) keys edits
  obtain ⟨document, scope, opened, shown, targeted⟩ := of_ask found
  obtain ⟨reference, refers, rfl⟩ := Query.of_target? targeted
  refine ⟨document, scope, reference, opened, shown, refers, rfl, fun plain => ?_⟩
  obtain ⟨text, skipStatic, present, listed⟩ := current.exists_text shown refers.shown
  exact ⟨text, present, Outline.written_of_mem listed plain⟩

end Workspace

end PawnScope
