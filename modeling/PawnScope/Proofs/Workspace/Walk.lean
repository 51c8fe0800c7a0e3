import PawnScope.Proofs.Scope.Merge
import PawnScope.Proofs.Workspace.Linking
/-!
The walk over nodes that a scope is made of. Main results: `visits_nodes`, that it is the walk along the
stored edges and meets live nodes only, and `visited_congr`, that it depends on nothing but the edges
of the nodes that the document leads to.
-/

namespace PawnScope

namespace Workspace

variable {workspace before after : Workspace} {owed owed' : List Handle} {file : SourceId}
  {document : Document} {handle : Handle}

namespace Sound

/-- The walk that a scope is made of meets live nodes only. -/
theorem visits_nodes (sound : Sound workspace owed) {self : Option Handle}
    (alive : ∀ handle ∈ self, workspace.graph.isAlive handle = true)
    (found : workspace.documents.get? file = some document) :
    Visits workspace.records.edges self.toList document.record.dependencies
        (self.toList ++ Scope.visited workspace.records self document.record) ∧
      ∀ handle ∈ self.toList ++ Scope.visited workspace.records self document.record,
        workspace.graph.isAlive handle = true := by
  have tied : document.record.Tied workspace.graph :=
    sound.documents_tied _ (Table.mem_of_get? found)
  have visits := Scope.visits_visited workspace.records self document.record
  refine ⟨visits, fun handle member => ?_⟩
  by_cases early : handle ∈ self.toList
  · exact alive handle (by simpa using early)
  · exact (visits.reach handle member early).of_closed (fun _ edge => tied.alive edge)
      fun _ _ _ edge => sound.edge_alive edge

/-- The nodes of the walk are led to. -/
theorem reach_of_visited (sound : Sound workspace owed) {self : Option Handle}
    (alive : ∀ handle ∈ self, workspace.graph.isAlive handle = true)
    (found : workspace.documents.get? file = some document)
    (member : handle ∈ Scope.visited workspace.records self document.record) :
    Reach workspace.records.edges document.record.dependencies handle :=
  ((sound.visits_nodes alive found).1.reach_of_fresh (Option.toList_nodup self) member).2

/-- A node of the document that nothing leads to makes no difference. -/
theorem visited_of_unreached (sound : Sound workspace owed) {self : Option Handle}
    (alive : ∀ handle ∈ self, workspace.graph.isAlive handle = true)
    (found : workspace.documents.get? file = some document)
    (unreached : ∀ handle ∈ self,
      ¬ Reach workspace.records.edges document.record.dependencies handle) :
    Scope.visited workspace.records self document.record =
      Scope.visited workspace.records none document.record := by
  cases self with
  | none => rfl
  | some own =>
    obtain ⟨visits, _⟩ := sound.visits_nodes alive found
    have absent : ∀ handle ∈ (none : Option Handle), workspace.graph.isAlive handle = true := by
      simp
    obtain ⟨visits', _⟩ := sound.visits_nodes absent found
    have unmet : own ∉ Scope.visited workspace.records none document.record :=
      fun member => unreached own rfl (visits'.mem_iff.mp member)
    exact List.tail_eq_of_cons_eq ((visits'.seen_cons unmet).unique visits)

/-- The walk depends on the edges of the nodes that the document leads to, and on no others. -/
theorem visited_congr_edges (sound : Sound before owed) (sound' : Sound after owed')
    (found : before.documents.get? file = some document)
    (found' : after.documents.get? file = some document) {self : Option Handle}
    (alive : ∀ handle ∈ self, before.graph.isAlive handle = true)
    (alive' : ∀ handle ∈ self, after.graph.isAlive handle = true)
    (edges : ∀ {handle}, Reach before.records.edges document.record.dependencies handle →
      after.records.edges handle = before.records.edges handle) :
    Scope.visited after.records self document.record =
      Scope.visited before.records self document.record := by
  obtain ⟨visits, _⟩ := sound.visits_nodes alive found
  obtain ⟨visits', _⟩ := sound'.visits_nodes alive' found'
  have along := visits.congr fun handle member fresh => edges (visits.reach handle member fresh)
  exact List.append_cancel_left (along.unique visits')

/-- The node that stands for the document itself matters only if the document leads to it. -/
theorem visited_congr (sound : Sound before owed) (sound' : Sound after owed')
    (found : before.documents.get? file = some document)
    (found' : after.documents.get? file = some document) {self self' : Option Handle}
    (alive : ∀ handle ∈ self, before.graph.isAlive handle = true)
    (alive' : ∀ handle ∈ self', after.graph.isAlive handle = true)
    (edges : ∀ {handle}, Reach before.records.edges document.record.dependencies handle →
      after.records.edges handle = before.records.edges handle)
    (own : ∀ {handle}, Reach before.records.edges document.record.dependencies handle →
      (self = some handle ↔ self' = some handle)) :
    Scope.visited after.records self' document.record =
      Scope.visited before.records self document.record := by
  have back : ∀ {handle}, Reach after.records.edges document.record.dependencies handle →
      Reach before.records.edges document.record.dependencies handle := by
    intro handle reached
    refine reached.lift (fun _ edge => .start edge) fun _ reached' _ edge => reached'.step ?_
    exact edges reached' ▸ edge
  by_cases met : ∃ handle, self = some handle ∧
      Reach before.records.edges document.record.dependencies handle
  · obtain ⟨handle, same, reached⟩ := met
    have same' := (own reached).mp same
    rw [same'.trans same.symm]
    exact visited_congr_edges sound sound' found found' alive
      (fun _ member => alive' _ (same'.trans same.symm ▸ member)) edges
  · have unreached : ∀ handle ∈ self,
        ¬ Reach before.records.edges document.record.dependencies handle :=
      fun handle same reached => met ⟨handle, same, reached⟩
    have unreached' : ∀ handle ∈ self',
        ¬ Reach after.records.edges document.record.dependencies handle :=
      fun handle same reached =>
        unreached handle ((own (back reached)).mpr same) (back reached)
    rw [sound.visited_of_unreached alive found unreached,
      sound'.visited_of_unreached alive' found' unreached']
    exact visited_congr_edges sound sound' found found' (by simp) (by simp) edges

end Sound

end Workspace

end PawnScope
