import Mathlib.Data.List.Basic
import PawnScope.Text.Basic
/-!
The pieces of a text between separators, and what trimming leaves of a text.
-/

namespace PawnScope

namespace Text

/-! ## Pieces -/

variable {separator : Char}

theorem split_of_not_mem {piece : Text} (apart : separator ∉ piece) :
    split separator piece = [piece] := by
  induction piece with
  | nil => rfl
  | cons c rest ih =>
    obtain ⟨differ, apart'⟩ := not_or.mp (List.mem_cons.not.mp apart)
    rw [split, if_neg (Ne.symm differ), ih apart']

/-- The pieces of two texts with a separator between them. -/
theorem split_append_cons (t more : Text) :
    split separator (t ++ separator :: more) = split separator t ++ split separator more := by
  induction t with
  | nil => simp [split]
  | cons c rest ih =>
    rw [List.cons_append, split, split, ih]
    split
    · rfl
    · cases found : split separator rest with
      | nil => exact absurd found (split_ne_nil _ _)
      | cons piece pieces => rfl

theorem split_append {piece : Text} (apart : separator ∉ piece) (rest : Text) :
    split separator (piece ++ separator :: rest) = piece :: split separator rest := by
  rw [split_append_cons, split_of_not_mem apart, List.singleton_append]

theorem split_join {pieces : List Text} (nonempty : pieces ≠ [])
    (apart : ∀ piece ∈ pieces, separator ∉ piece) :
    split separator (join [separator] pieces) = pieces := by
  induction pieces with
  | nil => exact absurd rfl nonempty
  | cons piece rest ih =>
    have first : separator ∉ piece := apart piece List.mem_cons_self
    cases rest with
    | nil => exact split_of_not_mem first
    | cons next rest =>
      have later := ih (by simp) fun other member => apart other (List.mem_cons_of_mem _ member)
      rw [join, List.append_assoc, List.singleton_append, split_append first, later]
      simp

theorem join_cons (separator piece : Text) {pieces : List Text} (more : pieces ≠ []) :
    join separator (piece :: pieces) = piece ++ (separator ++ join separator pieces) := by
  cases pieces with
  | nil => exact absurd rfl more
  | cons next rest => simp [join]

theorem join_split (separator : Char) (t : Text) : join [separator] (split separator t) = t := by
  induction t with
  | nil => rfl
  | cons c rest ih =>
    rw [split]
    split
    case isTrue same =>
      rw [join_cons _ _ (split_ne_nil _ _), ih, same]
      rfl
    case isFalse =>
      cases found : split separator rest with
      | nil => exact absurd found (split_ne_nil _ _)
      | cons piece pieces =>
        rw [found] at ih
        cases pieces with
        | nil => exact congrArg _ ih
        | cons next pieces =>
          rw [join_cons _ _ (List.cons_ne_nil _ _)] at ih
          dsimp only
          rw [join_cons _ _ (List.cons_ne_nil _ _), List.cons_append, ih]

theorem not_mem_of_mem_split {t piece : Text} (member : piece ∈ split separator t) :
    separator ∉ piece := by
  induction t generalizing piece with
  | nil =>
    rw [split, List.mem_singleton] at member
    simp [member]
  | cons c rest ih =>
    rw [split] at member
    by_cases same : c = separator
    · rw [if_pos same, List.mem_cons] at member
      rcases member with rfl | member
      · exact List.not_mem_nil
      · exact ih member
    · rw [if_neg same] at member
      cases found : split separator rest with
      | nil => exact absurd found (split_ne_nil _ _)
      | cons first others =>
        rw [found] at member ih
        rcases List.mem_cons.mp member with rfl | member
        · rw [List.mem_cons, not_or]
          exact ⟨Ne.symm same, ih List.mem_cons_self⟩
        · exact ih (List.mem_cons_of_mem _ member)

/-! ## Runs -/

section Run

variable {α : Type} {p : α → Bool} {run rest : List α}

/-- A run goes up to what stops it. -/
theorem takeWhile_run (inside : ∀ a ∈ run, p a = true) (stop : ∀ a ∈ rest.head?, p a = false) :
    (run ++ rest).takeWhile p = run := by
  rw [List.takeWhile_append_of_pos inside]
  cases rest with
  | nil => exact List.append_nil run
  | cons a rest => rw [List.takeWhile_cons_of_neg (by simp [stop a rfl]), List.append_nil]

theorem stop_of_takeWhile (whole : (run ++ rest).takeWhile p = run) :
    (∀ a ∈ run, p a = true) ∧ ∀ a ∈ rest.head?, p a = false := by
  have inside : ∀ a ∈ run, p a = true := by
    rw [← whole, ← List.all_eq_true]
    exact List.all_takeWhile
  refine ⟨inside, fun a next => ?_⟩
  cases rest with
  | nil => simp at next
  | cons b rest =>
    obtain rfl : b = a := by simpa using next
    rw [List.takeWhile_append_of_pos inside] at whole
    cases stop : p b with
    | false => rfl
    | true => simp [stop] at whole

/-- What stops a run does so at the end of a list as well. -/
theorem takeWhile_append_stop (stop : ∀ a ∈ rest.head?, p a = false) :
    (run ++ rest).takeWhile p = run.takeWhile p := by
  induction run with
  | nil =>
    have nothing : ∀ a ∈ ([] : List α), p a = true := by simp
    exact takeWhile_run nothing stop
  | cons a run ih => rw [List.cons_append, List.takeWhile_cons, List.takeWhile_cons, ih]

theorem drop_takeWhile (p : α → Bool) (l : List α) :
    l.drop (l.takeWhile p).length = l.dropWhile p := by
  induction l with
  | nil => rfl
  | cons a rest ih =>
    rw [List.takeWhile_cons, List.dropWhile_cons]
    split
    · exact ih
    · rfl

theorem of_drop_eq_cons {a : α} {l : List α} {index : Nat} (cut : l.drop index = a :: rest) :
    l[index]? = some a ∧ l.drop (index + 1) = rest := by
  constructor
  · rw [← List.head?_drop, cut]
    rfl
  · rw [← List.tail_drop, cut]
    rfl

end Run

/-- The offsets with a property, where one more offset makes no difference to those before it. -/
theorem filter_range_succ {n : Nat} {p q : Nat → Prop} [DecidablePred p] [DecidablePred q]
    (same : ∀ i < n, p i ↔ q i) :
    (List.range (n + 1)).filter p = (List.range n).filter q ++ if p n then [n] else [] := by
  have before : ∀ i ∈ List.range n, decide (p i) = decide (q i) := fun i inside =>
    decide_eq_decide.mpr (same i (List.mem_range.mp inside))
  rw [List.range_succ, List.filter_append, List.filter_congr before]
  simp [List.filter_cons]

/-! ## Trimming -/

theorem trimEnd_append {t more : Text} (filled : trimEnd more ≠ []) :
    trimEnd (t ++ more) = t ++ trimEnd more := by
  have left : (more.reverse.dropWhile isBlank).isEmpty = false := by
    simpa [trimEnd] using filled
  rw [trimEnd, List.reverse_append, List.dropWhile_append, left, trimEnd]
  simp

/-- Trimming at the start does not change where a text ends. -/
theorem getLast?_trim {t : Text} (filled : trim t ≠ []) :
    (trim t).getLast? = (trimEnd t).getLast? := by
  have whole : t.takeWhile isBlank ++ trimStart t = t := List.takeWhile_append_dropWhile
  have ends : trimEnd t = t.takeWhile isBlank ++ trim t := by
    rw [trim, ← trimEnd_append filled, whole]
  rw [ends, List.getLast?_append_of_ne_nil _ filled]

theorem trimStart_eq_self {t : Text} (first : ∀ c ∈ t.head?, isBlank c = false) : trimStart t = t := by
  cases t with
  | nil => rfl
  | cons c t => exact List.dropWhile_cons_of_neg (by simp [first c rfl])

theorem trimStart_of_allBlank {t : Text} (blank : allBlank t = true) : trimStart t = [] := by
  have nothing : (t ++ []).dropWhile isBlank = [] :=
    List.dropWhile_append_of_pos (List.all_eq_true.mp blank)
  rwa [List.append_nil] at nothing

theorem trimEnd_eq_self {t : Text} (last : ∀ c ∈ t.getLast?, isBlank c = false) : trimEnd t = t := by
  rw [← List.head?_reverse] at last
  rw [trimEnd, ← trimStart, trimStart_eq_self last, List.reverse_reverse]

/-- Nothing is trimmed of a text that begins and ends with no blank. -/
theorem trim_eq_self {t : Text} (first : ∀ c ∈ t.head?, isBlank c = false)
    (last : ∀ c ∈ t.getLast?, isBlank c = false) : trim t = t := by
  rw [trim, trimStart_eq_self first, trimEnd_eq_self last]

theorem exists_trimEnd (t : Text) : ∃ blanks, t = trimEnd t ++ blanks ∧ ∀ c ∈ blanks, isBlank c = true := by
  refine ⟨(t.reverse.takeWhile isBlank).reverse, ?_, fun c member => ?_⟩
  · rw [trimEnd, ← List.reverse_append, List.takeWhile_append_dropWhile, List.reverse_reverse]
  · exact List.all_eq_true.mp List.all_takeWhile c (List.mem_reverse.mp member)

theorem trimEnd_append_blanks {blanks : Text} (blank : ∀ c ∈ blanks, isBlank c = true) (t : Text) :
    trimEnd (t ++ blanks) = trimEnd t := by
  rw [trimEnd, List.reverse_append, List.dropWhile_append_of_pos (by simpa using blank), trimEnd]

theorem trim_append_blanks {blanks : Text} (blank : ∀ c ∈ blanks, isBlank c = true) (t : Text) :
    trim (t ++ blanks) = trim t := by
  rw [trim, trim, trimStart, trimStart, List.dropWhile_append]
  split
  case isTrue nothing =>
    have none : blanks.dropWhile isBlank = [] := trimStart_of_allBlank (List.all_eq_true.mpr blank)
    rw [none, List.isEmpty_iff.mp nothing]
  case isFalse => exact trimEnd_append_blanks blank _

theorem trimEnd_ne_nil {t : Text} {c : Char} (member : c ∈ t) (plain : isBlank c = false) :
    trimEnd t ≠ [] := by
  intro nothing
  obtain ⟨blanks, whole, blank⟩ := exists_trimEnd t
  rw [nothing, List.nil_append] at whole
  rw [blank c (whole ▸ member)] at plain
  contradiction

theorem trim_ne_nil {t : Text} (filled : allBlank t = false) : trim t ≠ [] := by
  cases solid : trimStart t with
  | nil =>
    have whole : t.takeWhile isBlank = t := by
      rw [← List.append_nil (t.takeWhile isBlank), ← solid, trimStart, List.takeWhile_append_dropWhile]
    have blank : (t.takeWhile isBlank).all isBlank = true := List.all_takeWhile
    rw [whole, ← allBlank, filled] at blank
    contradiction
  | cons c rest =>
    have plain := List.head?_dropWhile_not isBlank t
    rw [← trimStart, solid] at plain
    rw [trim, solid]
    exact trimEnd_ne_nil List.mem_cons_self plain

/-- What begins and ends with no blank is not trimmed away by what follows it. -/
theorem length_lt_trim {solid : Text} {c : Char} (first : ∀ d ∈ solid.head?, isBlank d = false)
    (plain : isBlank c = false) (rest : Text) :
    solid.length < (trim (solid ++ c :: rest)).length := by
  have start : ∀ d ∈ (solid ++ c :: rest).head?, isBlank d = false := by
    cases solid with
    | nil => exact fun d head => Option.some.inj head ▸ plain
    | cons d solid => exact first
  have filled : trimEnd (c :: rest) ≠ [] := trimEnd_ne_nil List.mem_cons_self plain
  have some := List.length_pos_of_ne_nil filled
  rw [trim, trimStart_eq_self start, trimEnd_append filled, List.length_append]
  omega

end Text

end PawnScope
