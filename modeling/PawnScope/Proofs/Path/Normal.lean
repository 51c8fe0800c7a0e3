import Mathlib.Data.List.Basic
import PawnScope.Path.SourceId
import PawnScope.Proofs.Text.Pieces
/-!
Normal forms of source ids. Main results: `ofPath_congr`, that the id of a path depends on its
components alone, and `normal_ofPath`, that the id of a path is a normal form: reading it as a path
again and folding it changes nothing.
-/

namespace PawnScope

namespace Path

/-- A segment that a path can have and that says something. -/
def IsSegment (segment : Text) : Prop :=
  '/' ∉ segment ∧ isInert segment = false

theorem parts_apart (path : Path) : ∀ segment ∈ path.parts.2, '/' ∉ segment := by
  intro segment member
  unfold parts at member
  split at member
  · exact Text.not_mem_of_mem_split member
  · cases member
  · rcases List.mem_cons.mp member with rfl | member
    · exact List.not_mem_nil
    · exact Text.not_mem_of_mem_split member
  · exact Text.not_mem_of_mem_split member

theorem isSegment_of_mem {path : Path} {segment : Text} (member : segment ∈ path.segments) :
    IsSegment segment := by
  obtain ⟨listed, speaks⟩ := List.mem_filter.mp member
  exact ⟨path.parts_apart segment listed, by simpa using speaks⟩

/-- A text whose pieces all say something is a path that begins with the first of them. -/
theorem parts_of_speaking {t : Text} (speak : ∀ piece ∈ Text.split '/' t, IsSegment piece) :
    (Path.mk t).parts = (.nothing, Text.split '/' t) := by
  have silent : ∀ piece ∈ Text.split '/' t, isInert piece = true → False := by
    intro piece member inert
    rw [(speak piece member).2] at inert
    cases inert
  unfold parts
  split
  · next rest same =>
    simp only at same
    subst same
    exact (silent [] (by simp [Text.split]) rfl).elim
  · next same =>
    simp only at same
    subst same
    exact (silent ['.'] (by simp [Text.split]) rfl).elim
  · next rest same =>
    simp only at same
    subst same
    exact (silent ['.'] (by simp [Text.split]) rfl).elim
  · rfl

/-- A path that is printed from segments has these segments, and begins as it was printed. -/
theorem parts_ofParts {segments : List Text} (nonempty : segments ≠ [])
    (speak : ∀ segment ∈ segments, IsSegment segment) {lead : Lead} (given : lead ≠ .current) :
    (ofParts lead segments).parts = (lead, segments) := by
  have pieces : Text.split '/' (Text.join ['/'] segments) = segments :=
    Text.split_join nonempty fun segment member => (speak segment member).1
  cases lead with
  | current => exact absurd rfl given
  | root => simp [ofParts, Lead.text, parts, pieces]
  | nothing =>
    have plain := parts_of_speaking (t := Text.join ['/'] segments) (pieces.symm ▸ speak)
    rw [pieces] at plain
    exact plain

theorem isRooted_ofParts {segments : List Text} (speak : ∀ segment ∈ segments, IsSegment segment)
    {lead : Lead} (given : lead ≠ .current) :
    (ofParts lead segments).isRooted = (lead == .root) ∧
      (ofParts lead segments).segments = segments := by
  by_cases nonempty : segments = []
  · subst nonempty
    cases lead with
    | current => exact absurd rfl given
    | root => exact ⟨rfl, rfl⟩
    | nothing => exact ⟨rfl, rfl⟩
  · have printed := parts_ofParts nonempty speak given
    refine ⟨by rw [isRooted, printed], ?_⟩
    rw [Path.segments, printed]
    refine List.filter_eq_self.mpr fun segment member => ?_
    rw [(speak segment member).2]
    rfl

theorem ofSegment_injective : Function.Injective ofSegment := by
  intro s t same
  unfold ofSegment at same
  split at same
  · next left =>
    split at same
    · next right => rw [left, right]
    · cases same
  · split at same
    · cases same
    · cases same
      rfl

theorem ofSegment_proper (segment : Text) :
    ofSegment segment ≠ .root ∧ ofSegment segment ≠ .current := by
  unfold ofSegment
  split <;> simp

theorem isRooted_eq (path : Path) : path.isRooted = path.components.contains .root := by
  have apart : Component.root ∉ path.segments.map ofSegment := by
    intro member
    obtain ⟨segment, _, same⟩ := List.mem_map.mp member
    exact (ofSegment_proper segment).1 same
  unfold isRooted components
  cases path.parts.1 <;> simp [Lead.components, apart]

theorem map_segments (path : Path) :
    path.segments.map ofSegment =
      path.components.filter fun component => component ≠ .root ∧ component ≠ .current := by
  have proper : (path.segments.map ofSegment).filter
      (fun component => component ≠ .root ∧ component ≠ .current) =
        path.segments.map ofSegment := by
    refine List.filter_eq_self.mpr fun component member => ?_
    obtain ⟨segment, _, rfl⟩ := List.mem_map.mp member
    simpa using ofSegment_proper segment
  unfold components
  rw [List.filter_append, proper]
  cases path.parts.1 <;> simp [Lead.components]

/-- Components tell how a path begins and which segments it has. -/
theorem components_inj {a b : Path} (same : a.components = b.components) :
    a.isRooted = b.isRooted ∧ a.segments = b.segments := by
  constructor
  · rw [isRooted_eq, same, ← isRooted_eq]
  · apply List.map_injective_iff.mpr ofSegment_injective
    rw [map_segments, same, ← map_segments]

end Path

namespace SourceId

open PawnScope.Path

theorem foldSegment_isSegment {folded : List Text} {segment : Text}
    (before : ∀ s ∈ folded, IsSegment s) (next : IsSegment segment) :
    ∀ s ∈ foldSegment folded segment, IsSegment s := by
  intro s member
  unfold foldSegment at member
  split at member
  · next isUp =>
    split at member
    · rw [List.mem_singleton.mp member, ← isUp]
      exact next
    · exact before s (List.dropLast_subset _ member)
  · rcases List.mem_append.mp member with early | late
    · exact before s early
    · rw [List.mem_singleton.mp late]
      exact next

/-- In folded segments `..` stands at the beginning only. -/
theorem foldSegment_tail {folded : List Text} (segment : Text) (before : up ∉ folded.tail) :
    up ∉ (foldSegment folded segment).tail := by
  unfold foldSegment
  split
  · split
    · simp
    · intro member
      rw [List.tail_dropLast] at member
      exact before (List.dropLast_subset _ member)
  · next notUp =>
    cases folded with
    | nil => simp
    | cons first rest =>
      rw [List.cons_append, List.tail_cons, List.mem_append, List.mem_singleton]
      rintro (early | late)
      · exact before early
      · exact notUp late.symm

theorem foldl_foldSegment {segments folded : List Text}
    (speak : ∀ segment ∈ segments, IsSegment segment) (before : ∀ s ∈ folded, IsSegment s)
    (tail : up ∉ folded.tail) :
    (∀ s ∈ segments.foldl foldSegment folded, IsSegment s) ∧
      up ∉ (segments.foldl foldSegment folded).tail := by
  induction segments generalizing folded with
  | nil => exact ⟨before, tail⟩
  | cons segment rest ih =>
    exact ih (fun s member => speak s (List.mem_cons_of_mem _ member))
      (foldSegment_isSegment before (speak segment List.mem_cons_self))
      (foldSegment_tail segment tail)

/-- Folding segments that are folded already changes nothing. -/
theorem foldl_foldSegment_names {segments : List Text} (tail : up ∉ segments) (folded : List Text) :
    segments.foldl foldSegment folded = folded ++ segments := by
  induction segments generalizing folded with
  | nil => simp
  | cons segment rest ih =>
    obtain ⟨notUp, tail'⟩ := not_or.mp (List.mem_cons.not.mp tail)
    rw [List.foldl_cons, foldSegment, if_neg (Ne.symm notUp), ih tail', List.append_assoc,
      List.singleton_append]

theorem foldl_foldSegment_folded {segments : List Text} (tail : up ∉ segments.tail) :
    segments.foldl foldSegment [] = segments := by
  cases segments with
  | nil => rfl
  | cons first rest =>
    have alone : foldSegment [] first = [first] := by
      unfold foldSegment
      split
      · next isUp => simp [isUp]
      · rfl
    rw [List.foldl_cons, alone]
    exact foldl_foldSegment_names tail [first]

/-- The id of a path depends on its components alone. -/
theorem ofPath_congr {a b : Path} (same : a.components = b.components) : ofPath a = ofPath b := by
  obtain ⟨rooted, segments⟩ := components_inj same
  rw [ofPath, ofPath, rooted, segments]

theorem folded_segments (path : Path) :
    (∀ s ∈ path.segments.foldl foldSegment [], IsSegment s) ∧
      up ∉ (path.segments.foldl foldSegment []).tail :=
  foldl_foldSegment (fun _ member => isSegment_of_mem member)
    (fun _ member => absurd member List.not_mem_nil) List.not_mem_nil

/-- The beginning that an id keeps of a path. -/
def leadOf (path : Path) : Lead :=
  if path.isRooted then .root else .nothing

theorem leadOf_ne_current (path : Path) : leadOf path ≠ .current := by
  unfold leadOf
  split <;> simp

theorem ofPath_text (path : Path) :
    ⟨(ofPath path).text⟩ = ofParts (leadOf path) (path.segments.foldl foldSegment []) :=
  rfl

/-- What an id says of its path: whether it begins at the root, and the folded segments. -/
theorem parts_ofPath (path : Path) :
    (Path.mk (ofPath path).text).isRooted = path.isRooted ∧
      (Path.mk (ofPath path).text).segments = path.segments.foldl foldSegment [] := by
  obtain ⟨speak, _⟩ := folded_segments path
  obtain ⟨rooted, segments⟩ := isRooted_ofParts speak (leadOf_ne_current path)
  rw [ofPath_text, rooted, segments, leadOf]
  cases path.isRooted <;> exact ⟨rfl, rfl⟩

/-- Folding a path that has been folded changes nothing. -/
theorem ofPath_ofPath (path : Path) : ofPath ⟨(ofPath path).text⟩ = ofPath path := by
  obtain ⟨rooted, segments⟩ := parts_ofPath path
  have again : ∀ other : Path, ofPath other =
      ⟨(ofParts (leadOf other) (other.segments.foldl foldSegment [])).text⟩ := fun _ => rfl
  rw [again, leadOf, rooted, segments, foldl_foldSegment_folded (folded_segments path).2, again, leadOf]

/-- A text with a scheme has an empty piece inside. -/
theorem nil_mem_split_scheme (rest : Text) : [] ∈ Text.split '/' (scheme ++ rest) := by
  have cut : scheme ++ rest = "file:".toList ++ '/' :: ([] ++ '/' :: rest) := rfl
  rw [cut, Text.split_append (by decide), Text.split_append (by decide)]
  exact List.mem_cons_of_mem _ List.mem_cons_self

/-- An id that comes from a path does not begin with a scheme. -/
theorem toPath_ofPath (path : Path) : (ofPath path).toPath = ⟨(ofPath path).text⟩ := by
  obtain ⟨speak, _⟩ := folded_segments path
  unfold toPath
  cases found : scheme.isPrefixOf? (ofPath path).text with
  | none => rfl
  | some rest =>
    have begins : scheme ++ rest = (ofPath path).text :=
      List.isPrefixOf?_eq_some_iff_append_eq.mp found
    have printed : (ofPath path).text =
        (leadOf path).text ++ Text.join ['/'] (path.segments.foldl foldSegment []) := rfl
    rw [printed] at begins
    cases kind : leadOf path with
    | root =>
      rw [kind] at begins
      cases begins
    | current => exact absurd kind (leadOf_ne_current path)
    | nothing =>
      rw [kind, Lead.text, List.nil_append] at begins
      by_cases nonempty : path.segments.foldl foldSegment [] = []
      · rw [nonempty] at begins
        cases begins
      · have pieces := Text.split_join nonempty fun segment member => (speak segment member).1
        have empty : [] ∈ path.segments.foldl foldSegment [] := by
          rw [← pieces, ← begins]
          exact nil_mem_split_scheme rest
        cases (speak [] empty).2

/-- The id of a path is a normal form. -/
theorem normal_ofPath (path : Path) : (ofPath path).normal = ofPath path := by
  rw [normal, toPath_ofPath, ofPath_ofPath]

theorem normal_normal (id : SourceId) : id.normal.normal = id.normal :=
  normal_ofPath id.toPath

end SourceId

end PawnScope
