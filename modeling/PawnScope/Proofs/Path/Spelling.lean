import PawnScope.Proofs.Path.Normal
/-!
Spellings of one path. Segments that say nothing, and a directory that is entered and left again at once,
may be written anywhere among the pieces of a path, as long as they do not make a relative path one from
the root or the other way round. Main result: `ofPath_normalForm`.
-/

namespace PawnScope

namespace Path

/-- What may be written among the pieces of a path without changing what the path means. -/
inductive Filler : List Text → Prop where
  /-- A `.`, or the empty piece that a further separator makes. -/
  | inert {segment : Text} : isInert segment = true → Filler [segment]
  /-- A name, and the `..` that leaves it. -/
  | back {name : Text} : IsSegment name → name ≠ up → Filler [name, up]

/-- A path, and a longer one that has a filler between its pieces `front` and `back`. -/
structure Filled (path longer : Path) (front filler back : List Text) : Prop where
  pieces : Text.split '/' path.text = front ++ back
  longer : Text.split '/' longer.text = front ++ (filler ++ back)
  filler : Filler filler

variable {path longer : Path} {front filler back : List Text}

theorem Filler.ne_nil (fills : Filler filler) : filler ≠ [] := by
  cases fills <;> exact List.cons_ne_nil _ _

/-- Folding passes over a filler. -/
theorem Filler.foldl (fills : Filler filler) (folded : List Text) :
    (filler.filter (!isInert ·)).foldl SourceId.foldSegment folded = folded := by
  cases fills with
  | inert silent => simp [silent]
  | @back name speaks plain =>
    have entered : SourceId.foldSegment folded name = folded ++ [name] := by
      simp [SourceId.foldSegment, plain]
    have left : SourceId.foldSegment (folded ++ [name]) up = folded := by
      simp [SourceId.foldSegment]
    have loud : isInert up = false := rfl
    have kept : [name, up].filter (!isInert ·) = [name, up] := by
      simp only [List.filter_cons, List.filter_nil, speaks.2, loud, Bool.not_false, if_true]
    rw [kept, List.foldl_cons, List.foldl_cons, List.foldl_nil, entered, left]

/-! ## Pieces -/

theorem split_current (rest : Text) :
    Text.split '/' ('.' :: '/' :: rest) = ['.'] :: Text.split '/' rest :=
  have bare : '/' ∉ ['.'] := by decide
  Text.split_append bare rest

/-- The segments of a path are those of its pieces that say something, wherever the path begins. -/
theorem segments_eq (path : Path) :
    path.segments = (Text.split '/' path.text).filter (!isInert ·) := by
  unfold segments parts
  split
  · next rest same =>
    rw [same, Text.split, if_pos rfl]
    rfl
  · next same =>
    rw [same]
    rfl
  · next rest same =>
    rw [same, split_current]
    rfl
  · rfl

theorem isRooted_iff_head (path : Path) : path.isRooted = true ↔ path.text.head? = some '/' := by
  unfold isRooted parts
  split
  · next rest same => simp [same]
  · next same => simp [same]
  · next rest same => simp [same]
  · next text plain _ _ =>
    refine iff_of_false (by simp) fun first => ?_
    obtain ⟨rest, same⟩ := List.head?_eq_some_iff.mp first
    exact plain rest same

/-- A path begins at the root if its first piece is empty and not the only one. -/
theorem isRooted_iff (path : Path) :
    path.isRooted = true ↔ ∃ rest, rest ≠ [] ∧ Text.split '/' path.text = [] :: rest := by
  rw [isRooted_iff_head]
  cases path.text with
  | nil => simp [Text.split]
  | cons c text =>
    rw [Text.split]
    by_cases same : c = '/'
    · simp [same, Text.split_ne_nil]
    · rw [if_neg same]
      refine iff_of_false (by simpa using same) ?_
      rintro ⟨rest, _, pieces⟩
      split at pieces <;> cases pieces

/-! ## Longer spellings -/

namespace Filled

/-- What is written behind a piece leaves the beginning alone. -/
theorem isRooted_eq (filled : Filled path longer front filler back) (behind : front ≠ [])
    (nonempty : path.text ≠ []) : longer.isRooted = path.isRooted := by
  obtain ⟨first, rest, rfl⟩ := List.exists_cons_of_ne_nil behind
  have pieces := filled.pieces
  have more := filled.filler.ne_nil
  rw [Bool.eq_iff_iff, isRooted_iff, isRooted_iff, pieces, filled.longer]
  constructor
  · rintro ⟨_, _, same⟩
    obtain ⟨rfl, _⟩ := List.cons.inj same
    refine ⟨rest ++ back, fun alone => nonempty ?_, rfl⟩
    rw [List.cons_append, alone] at pieces
    rw [← Text.join_split '/' path.text, pieces]
    rfl
  · rintro ⟨_, _, same⟩
    obtain ⟨rfl, _⟩ := List.cons.inj same
    exact ⟨rest ++ (filler ++ back), by simp [more], rfl⟩

end Filled

end Path

namespace SourceId

open PawnScope.Path

variable {path longer : Path} {front filler back : List Text}

/-- An id tells whether its path begins at the root. -/
theorem isRooted_of_ofPath {one two : Path} (same : ofPath one = ofPath two) :
    one.isRooted = two.isRooted := by
  rw [← (parts_ofPath one).1, same, (parts_ofPath two).1]

theorem ofPath_filled (filled : Filled path longer front filler back) :
    ofPath longer = ofPath path ↔ longer.isRooted = path.isRooted := by
  refine ⟨isRooted_of_ofPath, fun rooted => ?_⟩
  rw [ofPath, ofPath, rooted, segments_eq, segments_eq, filled.pieces, filled.longer]
  simp only [List.filter_append, List.foldl_append, filled.filler.foldl]

/--
The id of a path is a normal form, and does not begin with a scheme. Paths with the same components have
the same id, and so have two spellings of which one has a filler more, as long as both begin at the root
or neither does. They do if the filler stands behind a piece of a path that is not empty.
-/
theorem ofPath_normalForm :
    (∀ path, ofPath (ofPath path).toPath = ofPath path ∧ ¬scheme <+: (ofPath path).text) ∧
    (∀ one two : Path, one.sameAs two = true → ofPath one = ofPath two) ∧
    ∀ path longer front filler back, Filled path longer front filler back →
      (ofPath longer = ofPath path ↔ longer.isRooted = path.isRooted) ∧
      (front ≠ [] → path.text ≠ [] → ofPath longer = ofPath path) := by
  refine ⟨fun path => ⟨normal_ofPath path, ?_⟩, ?_, ?_⟩
  · rintro ⟨rest, begins⟩
    -- a scheme would have been dropped, but an id stands for the path of its own text
    have dropped : (ofPath path).toPath = ⟨rest⟩ := by
      rw [toPath, List.isPrefixOf?_eq_some_iff_append_eq.mpr begins]
      rfl
    rw [toPath_ofPath] at dropped
    have shorter : scheme ++ rest = rest := begins.trans (congrArg Path.text dropped)
    exact absurd (List.append_left_eq_self.mp shorter) (by decide)
  · exact fun one two same => ofPath_congr (by simpa [sameAs] using same)
  · intro path longer front filler back filled
    exact ⟨ofPath_filled filled, fun behind nonempty =>
      (ofPath_filled filled).mpr (filled.isRooted_eq behind nonempty)⟩

/-- A `.` at the beginning, a separator at the end, and a directory entered and left in between. -/
theorem ofPath_normalForm_longer :
    ofPath ⟨"./inc/a".toList⟩ = ofPath ⟨"inc/a".toList⟩ ∧
      ofPath ⟨"/inc/".toList⟩ = ofPath ⟨"/inc".toList⟩ ∧
      ofPath ⟨"/srv/b/../inc".toList⟩ = ofPath ⟨"/srv/inc".toList⟩ ∧
      ofPath ⟨"/srv//./inc/".toList⟩ = ofPath ⟨"/srv/inc".toList⟩ := by
  obtain ⟨_, same, longer⟩ := ofPath_normalForm
  have first : Filled ⟨"inc/a".toList⟩ ⟨"./inc/a".toList⟩ [] [['.']] ["inc".toList, ['a']] :=
    ⟨by decide, by decide, .inert rfl⟩
  have last : Filled ⟨"/inc".toList⟩ ⟨"/inc/".toList⟩ [[], "inc".toList] [[]] [] :=
    ⟨by decide, by decide, .inert rfl⟩
  have between : Filled ⟨"/srv/inc".toList⟩ ⟨"/srv/b/../inc".toList⟩ [[], "srv".toList]
      [['b'], up] ["inc".toList] :=
    ⟨by decide, by decide, .back ⟨by decide, rfl⟩ (by decide)⟩
  exact ⟨(longer _ _ _ _ _ first).1.mpr rfl, (longer _ _ _ _ _ last).2 (by decide) (by decide),
    (longer _ _ _ _ _ between).2 (by decide) (by decide), same _ _ (by decide)⟩

end SourceId

end PawnScope
