import Mathlib.Data.List.TakeWhile
import PawnScope.Proofs.Path.Spelling
/-!
Files in directories, and the names of files. A name that is joined to a directory is the last segment of
the path, behind those of the directory: `segments_join`. And the parent of a path has all segments but
the last: `segments_parent?`. A file name is its stem and its extension: `cutName_eq_iff`.
-/

namespace PawnScope

namespace Text

variable {mark : Char} {text front rest : Text}

/-- A text is cut at the first mark. -/
theorem cut?_eq_some_iff :
    cut? mark text = some (front, rest) ↔ text = front ++ mark :: rest ∧ mark ∉ front := by
  induction text generalizing front with
  | nil => simp [cut?]
  | cons c text ih =>
    rw [cut?]
    split
    case isTrue same =>
      subst same
      cases front with
      | nil => simp [eq_comm]
      | cons d front => grind
    case isFalse differ =>
      rw [Option.map_eq_some_iff]
      constructor
      · rintro ⟨⟨front, rest⟩, found, same⟩
        cases same
        obtain ⟨rfl, apart⟩ := ih.mp found
        exact ⟨rfl, by simp [apart, Ne.symm differ]⟩
      · rintro ⟨whole, apart⟩
        cases front with
        | nil => exact absurd (List.cons.inj whole).1 differ
        | cons d front =>
          obtain ⟨rfl, rfl⟩ := List.cons.inj whole
          exact ⟨(front, rest), ih.mpr ⟨rfl, fun member => apart (List.mem_cons_of_mem _ member)⟩, rfl⟩

end Text

namespace Path

variable {path parent : Path} {name stem : Text} {extension : Option Text}

/-! ## Names -/

/-- A name that a file can have in a directory. -/
structure IsName (name : Text) : Prop where
  segment : IsSegment name
  proper : name ≠ up

theorem isName_of_fileName? (found : path.fileName? = some name) : IsName name := by
  unfold fileName? at found
  split at found
  case h_1 segment last =>
    split at found
    case isTrue => contradiction
    case isFalse proper =>
      obtain rfl := Option.some.inj found
      exact ⟨isSegment_of_mem (List.mem_of_getLast? last), proper⟩
  case h_2 => contradiction

theorem IsName.ne_nil (given : IsName name) : name ≠ [] := by
  rintro rfl
  exact absurd given.segment.2 (by decide)

/-- A name that ends in a dot and an extension is cut there. -/
theorem cutName_append {extension : Text} (filled : stem ≠ []) (apart : '.' ∉ extension) :
    cutName (stem ++ '.' :: extension) = (stem, some extension) := by
  have backwards : (stem ++ '.' :: extension).reverse = extension.reverse ++ '.' :: stem.reverse := by simp
  have cut : Text.cut? '.' (stem ++ '.' :: extension).reverse = some (extension.reverse, stem.reverse) :=
    Text.cut?_eq_some_iff.mpr ⟨backwards, by simpa using apart⟩
  unfold cutName
  rw [cut]
  split
  case h_1 nothing => contradiction
  case h_2 front nothing =>
    obtain ⟨-, empty⟩ := Prod.mk.inj (Option.some.inj nothing)
    exact absurd (List.reverse_eq_nil_iff.mp empty) filled
  case h_3 extension' stem' _ found =>
    obtain ⟨rfl, rfl⟩ := Prod.mk.inj (Option.some.inj found)
    simp only [List.reverse_reverse]

/-- A name is its stem, which is not empty, and perhaps a dot and an extension behind it. -/
theorem append_of_cutName (filled : name ≠ []) (found : cutName name = (stem, extension)) :
    name = stem ++ extension.elim [] ('.' :: ·) ∧ stem ≠ [] := by
  unfold cutName at found
  split at found
  case h_1 =>
    obtain ⟨rfl, rfl⟩ := Prod.mk.inj found
    exact ⟨(List.append_nil name).symm, filled⟩
  case h_2 =>
    obtain ⟨rfl, rfl⟩ := Prod.mk.inj found
    exact ⟨(List.append_nil name).symm, filled⟩
  case h_3 behind before more cut =>
    obtain ⟨rfl, rfl⟩ := Prod.mk.inj found
    have backwards := congrArg List.reverse (Text.cut?_eq_some_iff.mp cut).1
    rw [List.reverse_reverse] at backwards
    exact ⟨by rw [backwards]; simp, mt List.reverse_eq_nil_iff.mp more⟩

/-! ## Files in a directory -/

/-- A text that is written behind a directory keeps the pieces of the directory. -/
theorem split_directory (text : Text) :
    (Text.split '/' (text ++ ['/'])).filter (!isInert ·) = (Text.split '/' text).filter (!isInert ·) := by
  rw [Text.split_append_cons, List.filter_append]
  exact List.append_nil _

/-- The segments of a file in a directory are those of the directory, and its name. -/
theorem segments_join (speaks : IsSegment name) (directory : Path) :
    (directory.join ⟨name⟩).segments = directory.segments ++ [name] := by
  have pieces : (Text.split '/' name).filter (!isInert ·) = [name] := by
    simp [Text.split_of_not_mem speaks.1, speaks.2]
  have relative : isRooted ⟨name⟩ = false := by
    rw [Bool.eq_false_iff, Ne, isRooted_iff_head]
    exact fun first => speaks.1 (List.mem_of_head? first)
  rw [join, relative, if_neg Bool.false_ne_true, segments_eq directory]
  split
  case isTrue ends =>
    rw [segments_eq]
    rcases ends with empty | slash
    · rw [empty]
      exact pieces
    · obtain ⟨above, same⟩ := List.getLast?_eq_some_iff.mp slash
      dsimp only
      rw [same, split_directory, List.append_assoc, List.singleton_append, Text.split_append_cons,
        List.filter_append, pieces]
  case isFalse =>
    rw [segments_eq]
    dsimp only
    rw [Text.split_append_cons, List.filter_append, pieces]

/-- It begins at the root if the directory does. -/
theorem isRooted_join (apart : '/' ∉ name) (directory : Path) :
    (directory.join ⟨name⟩).isRooted = directory.isRooted := by
  have relative : isRooted ⟨name⟩ = false := by
    rw [Bool.eq_false_iff, Ne, isRooted_iff_head]
    exact fun first => apart (List.mem_of_head? first)
  by_cases empty : directory.text = []
  · have same : directory.join ⟨name⟩ = ⟨name⟩ := by simp [join, relative, empty]
    rw [same, relative, eq_comm, Bool.eq_false_iff, Ne, isRooted_iff_head, empty]
    nofun
  · obtain ⟨c, rest, begins⟩ := List.exists_cons_of_ne_nil empty
    rw [Bool.eq_iff_iff, isRooted_iff_head, isRooted_iff_head, join, relative,
      if_neg Bool.false_ne_true]
    split <;> simp [begins]

theorem fileName?_join (given : IsName name) (directory : Path) :
    (directory.join ⟨name⟩).fileName? = some name := by
  unfold fileName?
  rw [segments_join given.segment, List.getLast?_concat]
  exact if_neg given.proper

/-! ## Parents -/

/-- Nothing is dropped at the end that says something. -/
theorem filter_dropInertEnd (pieces : List Text) :
    (dropInertEnd pieces).filter (!isInert ·) = pieces.filter (!isInert ·) := by
  have cut : pieces = dropInertEnd pieces ++ (pieces.reverse.takeWhile isInert).reverse := by
    rw [dropInertEnd, ← List.reverse_append, List.takeWhile_append_dropWhile, List.reverse_reverse]
  have silent : (pieces.reverse.takeWhile isInert).reverse.filter (!isInert ·) = [] := by
    refine List.filter_eq_nil_iff.mpr fun piece member => ?_
    simpa using List.mem_takeWhile_imp (List.mem_reverse.mp member)
  exact (List.append_nil _).symm.trans (by rw [← silent, ← List.filter_append, ← cut])

theorem dropInertEnd_isPrefix (pieces : List Text) : dropInertEnd pieces <+: pieces := by
  rw [← List.reverse_suffix, dropInertEnd, List.reverse_reverse]
  exact List.dropWhile_suffix _

/-- What is left ends with a piece that says something. -/
theorem isInert_of_dropInertEnd {pieces : List Text} {last : Text}
    (ends : (dropInertEnd pieces).getLast? = some last) : isInert last = false := by
  rw [dropInertEnd, List.getLast?_reverse] at ends
  have stops := List.head?_dropWhile_not isInert pieces.reverse
  rwa [ends] at stops

/-- Behind the `.` that a path begins with there is nothing, or a separator. -/
theorem parts_current (path : Path) (current : path.parts.1 = .current) :
    ∀ first ∈ path.parts.2.head?, first = [] := by
  revert current
  unfold parts
  split
  case h_1 => nofun
  case h_2 => nofun
  case h_3 => simp
  case h_4 => nofun

/-- A path printed from segments has those of them that say something. -/
theorem segments_ofParts {lead : Lead} {pieces : List Text} (apart : ∀ piece ∈ pieces, '/' ∉ piece)
    (current : lead = .current → ∀ first ∈ pieces.head?, first = []) :
    (ofParts lead pieces).segments = pieces.filter (!isInert ·) := by
  have printed : (Text.split '/' (Text.join ['/'] pieces)).filter (!isInert ·) =
      pieces.filter (!isInert ·) := by
    cases pieces with
    | nil => rfl
    | cons first rest => rw [Text.split_join (List.cons_ne_nil _ _) apart]
  rw [segments_eq, ← printed]
  cases lead with
  | nothing => rfl
  | root => rfl
  | current =>
    cases pieces with
    | nil => rfl
    | cons first rest =>
      obtain rfl : first = [] := current rfl first rfl
      cases rest with
      | nil => rfl
      | cons next rest =>
        rw [Text.join_cons _ _ (List.cons_ne_nil _ _)]
        rfl

/-- The parent of a path has all its segments but the last. -/
theorem segments_parent? (found : path.parent? = some parent) : parent.segments = path.segments.dropLast := by
  have segments : path.segments = (dropInertEnd path.parts.2).filter (!isInert ·) :=
    (filter_dropInertEnd _).symm
  unfold parent? at found
  split at found
  case h_1 nothing =>
    split at found
    case isTrue =>
      obtain rfl := Option.some.inj found
      rw [segments, nothing]
      rfl
    case isFalse => contradiction
  case h_2 filled =>
    obtain rfl := Option.some.inj found
    obtain ⟨last, ends⟩ := Option.isSome_iff_exists.mp (List.getLast?_isSome.mpr filled)
    obtain ⟨front, cut⟩ := List.getLast?_eq_some_iff.mp ends
    have kept : dropInertEnd front <+: path.parts.2 :=
      ((dropInertEnd_isPrefix front).trans ⟨[last], cut.symm⟩).trans (dropInertEnd_isPrefix _)
    have loud : [last].filter (!isInert ·) = [last] := by simp [isInert_of_dropInertEnd ends]
    rw [segments, cut, List.dropLast_concat, List.filter_append, loud, List.dropLast_concat,
      segments_ofParts (fun piece member => path.parts_apart piece (kept.subset member)),
      filter_dropInertEnd]
    intro current first begins
    obtain ⟨rest, whole⟩ := kept
    refine path.parts_current current first ?_
    rw [← whole]
    exact List.mem_head?_append_of_mem_head? begins

/-- Only a path without segments has no parent. -/
theorem segments_of_parent?_eq_none (orphan : path.parent? = none) : path.segments = [] := by
  unfold parent? at orphan
  split at orphan
  case h_1 nothing => rw [Path.segments, ← filter_dropInertEnd, nothing, List.filter_nil]
  case h_2 => contradiction

end Path

end PawnScope
