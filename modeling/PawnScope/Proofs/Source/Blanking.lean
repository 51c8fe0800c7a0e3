import PawnScope.Proofs.Identifier.Around
import PawnScope.Source.Region
/-!
A name in the code of a line stands in the line as it is written as well: `Around.unblank`. Comments
are blanked out column by column, and where a comment meets code there is a `/`, with which no name
goes on.
-/

namespace PawnScope

namespace Mode

variable {mode : Mode} {c : Char} {raw rest : Text} {region next : Region} {index : Nat}

/-- In this mode code or a literal is read. -/
def isKeeping : Mode → Bool
  | code | literal _ | escaped _ => true
  | lineComment | opening _ _ | block _ | closing _ => false

/-- A comment is closed by the `/` that follows. -/
def Fits (mode : Mode) (raw : Text) : Prop :=
  ∀ isDoc, mode = closing isDoc → raw.head? = some '/'

theorem step_fits (mode : Mode) (c : Char) (rest : Text) : (mode.step c rest).2.Fits rest := by
  intro isDoc closes
  unfold step at closes
  grind

/-- Code and literals are read in a keeping mode, and lead to one. -/
theorem isKeeping_of_kept (kept : (mode.step c rest).1.isKept = true) :
    mode.isKeeping = true ∧ (mode.step c rest).2.isKeeping = true := by
  unfold step Region.isKept isKeeping at *
  grind

/-- Code goes over into a comment at a `/`. -/
theorem slash_of_keeping (keeps : mode.isKeeping = true)
    (hidden : (mode.step c rest).1.isKept = false) : c = '/' := by
  unfold step Region.isKept isKeeping at *
  grind

/-- Only the end of a block comment leads back to code. -/
theorem closing_of_hidden (hidden : (mode.step c rest).1.isKept = false)
    (keeps : (mode.step c rest).2.isKeeping = true) : ∃ isDoc, mode = closing isDoc := by
  unfold step Region.isKept isKeeping at *
  grind

theorem regions_cons (mode : Mode) (c : Char) (rest : Text) :
    mode.regions (c :: rest) = (mode.step c rest).1 :: (mode.step c rest).2.regions rest :=
  rfl

/-- The last character of a comment before code. -/
theorem slash_before_kept (fits : mode.Fits raw) (here : (mode.regions raw)[index]? = some region)
    (hidden : region.isKept = false) (behind : (mode.regions raw)[index + 1]? = some next)
    (kept : next.isKept = true) : raw[index]? = some '/' := by
  induction raw generalizing mode index with
  | nil => simp [regions] at here
  | cons c rest ih =>
    rw [regions_cons] at here behind
    cases index with
    | succ index => exact ih (step_fits mode c rest) here behind
    | zero =>
      obtain rfl := Option.some.inj here
      cases rest with
      | nil => simp [regions] at behind
      | cons d rest =>
        obtain rfl := Option.some.inj behind
        obtain ⟨isDoc, closes⟩ := closing_of_hidden hidden (isKeeping_of_kept kept).1
        exact fits isDoc closes

/-- The first character of a comment behind code. -/
theorem slash_behind_kept (here : (mode.regions raw)[index]? = some region)
    (kept : region.isKept = true) (behind : (mode.regions raw)[index + 1]? = some next)
    (hidden : next.isKept = false) : raw[index + 1]? = some '/' := by
  induction raw generalizing mode index with
  | nil => simp [regions] at here
  | cons c rest ih =>
    rw [regions_cons] at here behind
    cases index with
    | succ index => exact ih here behind
    | zero =>
      obtain rfl := Option.some.inj here
      cases rest with
      | nil => simp [regions] at behind
      | cons d rest =>
        obtain rfl := Option.some.inj behind
        rw [slash_of_keeping (isKeeping_of_kept kept).2 hidden]
        rfl

end Mode

/-! ## Names in code -/

theorem getElem?_blankComments {raw : Text} {regions : List Region} {index : Nat} {c : Char}
    (found : (blankComments raw regions)[index]? = some c) :
    ∃ d region, raw[index]? = some d ∧ regions[index]? = some region ∧
      c = if region.isKept then d else ' ' := by
  rw [blankComments, List.getElem?_zipWith] at found
  split at found
  case h_1 d region here there => exact ⟨d, region, here, there, (Option.some.inj found).symm⟩
  case h_2 => contradiction

theorem length_blankComments (mode : Mode) (raw : Text) :
    (blankComments raw (mode.regions raw)).length = raw.length := by
  rw [blankComments, List.length_zipWith, Mode.length_regions, Nat.min_self]

/-- A character that is written is kept, or a blank stands in its place. -/
theorem blankComments_of_getElem? (mode : Mode) {raw : Text} {index : Nat} {c : Char}
    (found : raw[index]? = some c) :
    ∃ region, (mode.regions raw)[index]? = some region ∧
      (blankComments raw (mode.regions raw))[index]? = some (if region.isKept then c else ' ') := by
  have short : index < (blankComments raw (mode.regions raw)).length := by
    rw [length_blankComments]
    exact (List.getElem?_eq_some_iff.mp found).1
  have code := List.getElem?_eq_getElem short
  obtain ⟨d, region, written, belongs, same⟩ := getElem?_blankComments code
  obtain rfl : d = c := Option.some.inj (written.symm.trans found)
  exact ⟨region, belongs, code.trans (congrArg some same)⟩

/-- What stands in the code without a blank is written in the same columns. -/
theorem slice_of_blankComments {mode : Mode} {raw front name rest : Text}
    (stands : blankComments raw (mode.regions raw) = front ++ (name ++ rest))
    (solid : ∀ c ∈ name, c ≠ ' ') : (raw.drop front.length).take name.length = name := by
  refine List.ext_getElem? fun index => ?_
  rw [List.getElem?_take]
  split
  case isFalse past => exact (List.getElem?_eq_none (Nat.le_of_not_lt past)).symm
  case isTrue short =>
    have here : (blankComments raw (mode.regions raw))[front.length + index]? = some name[index] := by
      rw [stands, List.getElem?_append_right (Nat.le_add_right _ _), Nat.add_sub_cancel_left,
        List.getElem?_append_left short, List.getElem?_eq_getElem short]
    obtain ⟨d, region, written, -, same⟩ := getElem?_blankComments here
    rw [List.getElem?_drop, written, List.getElem?_eq_getElem short]
    split at same
    case isTrue => rw [same]
    case isFalse => exact absurd same (solid _ (List.getElem_mem short))

namespace Identifier.Around

variable {mode : Mode} {raw name above rest : Text}

/-- The characters of a name are kept. -/
theorem kept [Alphabets] (around : Around (blankComments raw (mode.regions raw)) name above rest)
    {index : Nat} {c : Char} (found : name[index]? = some c) :
    raw[above.length + index]? = some c ∧
      ∃ region, (mode.regions raw)[above.length + index]? = some region ∧
        region.isKept = true := by
  have short : index < name.length := (List.getElem?_eq_some_iff.mp found).1
  have here : (blankComments raw (mode.regions raw))[above.length + index]? = some c := by
    rw [around.whole, List.getElem?_append_right (Nat.le_add_right _ _), Nat.add_sub_cancel_left,
      List.getElem?_append_left short, found]
  obtain ⟨d, region, written, belongs, same⟩ := getElem?_blankComments here
  cases kept : region.isKept with
  | true =>
    rw [kept, if_pos rfl] at same
    exact ⟨same ▸ written, region, belongs, kept⟩
  | false =>
    have part := around.parts c (List.mem_of_getElem? found)
    rw [same, kept, if_neg Bool.false_ne_true] at part
    exact Bool.noConfusion part

/-- What is written directly before a name. -/
theorem written_before [Alphabets] (around : Around (blankComments raw (mode.regions raw)) name above rest)
    (fits : mode.Fits raw) {index : Nat} (next : above.length = index + 1) {c : Char}
    (found : raw[index]? = some c) : isPart c = false := by
  obtain ⟨region, belongs, code⟩ := blankComments_of_getElem? mode found
  cases kept : region.isKept with
  | true =>
    refine around.before c ?_
    rw [around.whole, List.getElem?_append_left (by omega), if_pos kept] at code
    rw [List.getLast?_eq_getElem?, next, Nat.add_sub_cancel]
    exact code
  | false =>
    obtain ⟨first, more, letters⟩ := List.exists_cons_of_ne_nil around.filled
    obtain ⟨-, region', behind, kept'⟩ := around.kept (show name[0]? = some first by rw [letters]; rfl)
    rw [next] at behind
    rw [Mode.slash_before_kept fits belongs kept behind kept'] at found
    obtain rfl := Option.some.inj found
    rfl

/-- What is written directly after a name. -/
theorem written_after [Alphabets] (around : Around (blankComments raw (mode.regions raw)) name above rest)
    {c : Char} (found : raw[above.length + name.length]? = some c) : isTokenPart c = false := by
  obtain ⟨region, belongs, code⟩ := blankComments_of_getElem? mode found
  cases kept : region.isKept with
  | true =>
    refine around.after c ?_
    rw [around.whole, ← List.append_assoc, List.getElem?_append_right (by simp),
      List.length_append, Nat.sub_self, if_pos kept] at code
    rw [List.head?_eq_getElem?]
    exact code
  | false =>
    obtain ⟨index, size⟩ : ∃ index, name.length = index + 1 :=
      Nat.exists_eq_succ_of_ne_zero (fun nothing => around.filled (List.length_eq_zero_iff.mp nothing))
    have last : name[index]? = some name[index] := List.getElem?_eq_getElem (by omega)
    obtain ⟨-, region', before, kept'⟩ := around.kept last
    rw [size, ← Nat.add_assoc] at belongs found
    rw [Mode.slash_behind_kept before kept' belongs kept] at found
    obtain rfl := Option.some.inj found
    rfl

/-- A name in the code of a line stands in the line as it is written as well. -/
theorem unblank [Alphabets] (around : Around (blankComments raw (mode.regions raw)) name above rest)
    (fits : mode.Fits raw) :
    ∃ above' rest', Around raw name above' rest' ∧ above'.length = above.length := by
  have long : (above ++ (name ++ rest)).length = raw.length := by
    rw [← around.whole, length_blankComments]
  rw [List.length_append, List.length_append] at long
  have same : (raw.drop above.length).take name.length = name := by
    refine slice_of_blankComments around.whole fun c member => ?_
    rintro rfl
    exact Bool.noConfusion (around.parts ' ' member)
  refine ⟨raw.take above.length, (raw.drop above.length).drop name.length,
    ⟨?_, around.filled, around.parts, ?_, ?_⟩, ?_⟩
  · conv_lhs => rw [← List.take_append_drop above.length raw,
      ← List.take_append_drop name.length (raw.drop above.length), same]
  · intro c last
    rw [List.getLast?_eq_getElem?, List.length_take, List.getElem?_take] at last
    split at last
    case isFalse => contradiction
    case isTrue inside => exact around.written_before fits (by omega) last
  · intro c first
    rw [List.head?_drop, List.getElem?_drop] at first
    exact around.written_after first
  · rw [List.length_take]
    omega

end Identifier.Around

end PawnScope
