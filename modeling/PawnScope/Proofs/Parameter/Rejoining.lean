import Mathlib.Data.List.Forall2
import PawnScope.Proofs.Parameter.Pieces
/-!
Parameter lists that are cut, joined and cut again. Blanks around a text make and hide no comma that
separates, and change nothing about what is open behind it (`separable_map_trim`), so that the trimmed
pieces of a list can be joined and cut again. Main result: `split_rejoined`.
-/

namespace PawnScope

namespace Text

/-! ## Trimming -/

theorem exists_trim (t : Text) : ∃ before behind, t = before ++ (trim t ++ behind) ∧
    (∀ c ∈ before, isBlank c = true) ∧ ∀ c ∈ behind, isBlank c = true := by
  obtain ⟨behind, whole, blank⟩ := exists_trimEnd (trimStart t)
  refine ⟨t.takeWhile isBlank, behind, ?_, List.all_eq_true.mp List.all_takeWhile, blank⟩
  rw [trim, ← whole, trimStart, List.takeWhile_append_dropWhile]

theorem length_trim_le (t : Text) : (trim t).length ≤ t.length := by
  obtain ⟨before, behind, whole, -, -⟩ := exists_trim t
  have size := congrArg List.length whole
  rw [List.length_append, List.length_append] at size
  omega

/-- Blanks around a text are trimmed. -/
theorem trim_between {before behind : Text} (blank : ∀ c ∈ before, isBlank c = true)
    (blank' : ∀ c ∈ behind, isBlank c = true) (t : Text) : trim (before ++ (t ++ behind)) = trim t := by
  rw [trim, trimStart, List.dropWhile_append_of_pos blank, ← trimStart, ← trim,
    trim_append_blanks blank']

theorem trim_trim (t : Text) : trim (trim t) = trim t := by
  obtain ⟨before, behind, whole, blank, blank'⟩ := exists_trim t
  rw [← trim_between blank blank' (trim t), ← whole]

/-- A piece that is as long as the whole is the only one. -/
theorem eq_singleton_of_length_join_le {separator piece : Text} {pieces : List Text}
    (filled : separator ≠ []) (member : piece ∈ pieces)
    (long : (join separator pieces).length ≤ piece.length) : pieces = [piece] := by
  have some := List.length_pos_of_ne_nil filled
  have short {pieces : List Text} (member : piece ∈ pieces) :
      piece.length ≤ (join separator pieces).length := by
    induction pieces with
    | nil => cases member
    | cons first rest ih =>
      rcases List.mem_cons.mp member with rfl | member
      · cases rest <;> simp [join]
      · rw [join_cons _ _ (List.ne_nil_of_mem member), List.length_append, List.length_append]
        have below := ih member
        omega
  cases pieces with
  | nil => cases member
  | cons first rest =>
    cases rest with
    | nil => rw [List.mem_singleton.mp member]
    | cons next rest =>
      rw [join_cons _ _ (List.cons_ne_nil _ _), List.length_append, List.length_append] at long
      rcases List.mem_cons.mp member with rfl | member
      · omega
      · have below := short member
        omega

end Text

namespace Parameter

variable {text : Text} {texts : List Text}

/-! ## Blanks around the pieces -/

theorem pieces_trim_iff (text : Text) :
    pieces .top (Text.trim text) = [Text.trim text] ↔ pieces .top text = [text] := by
  obtain ⟨before, behind, whole, blank, blank'⟩ := Text.exists_trim text
  have opened : Nesting.top.after before = .top :=
    (Nesting.sane_top.after_eq_top_iff blank).mpr rfl
  have same : (pieces .top text).length = (pieces .top (Text.trim text)).length := by
    have front := length_pieces_append .top before (Text.trim text ++ behind)
    have rear := length_pieces_append .top (Text.trim text) behind
    rw [← whole, opened, pieces_blanks blank, List.length_singleton] at front
    rw [pieces_blanks blank', List.length_singleton] at rear
    omega
  rw [pieces_eq_singleton_iff, pieces_eq_singleton_iff, same]

theorem after_trim_iff (text : Text) :
    Nesting.top.after (Text.trim text) = .top ↔ Nesting.top.after text = .top := by
  obtain ⟨before, behind, whole, blank, blank'⟩ := Text.exists_trim text
  have opened : Nesting.top.after before = .top :=
    (Nesting.sane_top.after_eq_top_iff blank).mpr rfl
  conv => rhs; rw [whole, Nesting.after_append, Nesting.after_append, opened]
  exact ((Nesting.sane_top.after _).after_eq_top_iff blank').symm

/-- Trimming leaves texts separable, and makes none so. -/
theorem separable_map_trim (texts : List Text) :
    Separable (texts.map Text.trim) ↔ Separable texts := by
  induction texts with
  | nil => rfl
  | cons text texts ih =>
    rw [List.map_cons, separable_cons, separable_cons, pieces_trim_iff, after_trim_iff, ih, ne_eq,
      List.map_eq_nil_iff]

/-! ## Cutting again -/

/-- The parameters of a list are separable. -/
theorem separable_split (text : Text) : Separable (split text) :=
  ((separable_map_trim _).mpr (separable_pieces text)).sublist List.filter_sublist

/-- Separable texts with blanks around them can be joined and cut again. -/
theorem split_join_of_trimmed {spaced : List Text} (trimmed : spaced.map Text.trim = texts)
    (filled : ∀ text ∈ texts, text ≠ []) (separable : Separable texts) :
    split (Text.join [','] spaced) = texts := by
  cases spaced with
  | nil => exact trimmed
  | cons first spaced =>
    have separable' : Separable (first :: spaced) := (separable_map_trim _).mp (trimmed ▸ separable)
    rw [split, separable'.pieces_join (List.cons_ne_nil _ _), trimmed]
    exact List.filter_eq_self.mpr fun text member => by simpa using filled text member

/-- A text that is its own only parameter is not cut. -/
theorem pieces_of_split (alone : split text = [text]) : pieces .top text = [text] := by
  have member : text ∈ split text := alone ▸ List.mem_singleton_self text
  obtain ⟨piece, cut, same⟩ := List.mem_map.mp (List.mem_of_mem_filter member)
  have long : (Text.join [','] (pieces .top text)).length ≤ piece.length := by
    rw [join_pieces]
    conv => lhs; rw [← same]
    exact Text.length_trim_le piece
  have one := Text.eq_singleton_of_length_join_le (List.cons_ne_nil _ _) cut long
  rw [pieces_eq_singleton_iff, one, List.length_singleton]

theorem split_of_pieces (whole : pieces .top text = [text]) (trimmed : Text.trim text = text)
    (filled : text ≠ []) : split text = [text] := by
  rw [split, whole, List.map_singleton, trimmed]
  exact List.filter_cons_of_pos (by simpa using filled)

theorem mem_split {parameter : Text} (member : parameter ∈ split text) :
    Text.trim parameter = parameter ∧ parameter ≠ [] := by
  obtain ⟨listed, filled⟩ := List.mem_filter.mp member
  obtain ⟨piece, -, rfl⟩ := List.mem_map.mp listed
  exact ⟨Text.trim_trim piece, by simpa using filled⟩

/-- A blank behind each comma is one before each text but the first. -/
theorem exists_join_blank (texts : List Text) :
    ∃ spaced, Text.join [',', ' '] texts = Text.join [','] spaced ∧
      spaced.map Text.trim = texts.map Text.trim := by
  induction texts with
  | nil => exact ⟨[], rfl, rfl⟩
  | cons text texts ih =>
    cases texts with
    | nil => exact ⟨[text], rfl, rfl⟩
    | cons next texts =>
      obtain ⟨spaced, joined, trimmed⟩ := ih
      cases spaced with
      | nil => cases trimmed
      | cons first spaced =>
        refine ⟨text :: (' ' :: first) :: spaced, ?_, ?_⟩
        · rw [Text.join_cons _ _ (List.cons_ne_nil _ _), joined, Text.join_cons _ _ (List.cons_ne_nil _ _)]
          cases spaced <;> simp [Text.join]
        · exact congrArg (Text.trim text :: ·) trimmed

/-- A text with blanks around it. -/
def Spaced (text spaced : Text) : Prop :=
  ∃ before behind, (∀ c ∈ before ++ behind, isBlank c = true) ∧ spaced = before ++ (text ++ behind)

theorem map_trim_of_spaced {spaced : List Text} (around : List.Forall₂ Spaced texts spaced)
    (trimmed : ∀ text ∈ texts, Text.trim text = text) : spaced.map Text.trim = texts := by
  induction around with
  | nil => rfl
  | @cons text first texts spaced here below ih =>
    obtain ⟨before, behind, blank, rfl⟩ := here
    obtain ⟨blank', blank''⟩ := List.forall_mem_append.mp blank
    obtain ⟨same, trimmed'⟩ := List.forall_mem_cons.mp trimmed
    rw [List.map_cons, Text.trim_between blank' blank'', same, ih trimmed']

/--
The parameters of a list are trimmed, are not empty, and each is the only parameter of itself; joined by
commas and blanks they are cut again where they were joined. So are any texts with these properties that
leave no group and no literal open, whatever blanks are written around the commas.
-/
theorem split_rejoined :
    (∀ text, (∀ parameter ∈ split text, Text.trim parameter = parameter ∧ parameter ≠ [] ∧
        split parameter = [parameter]) ∧
      split (Text.join [',', ' '] (split text)) = split text) ∧
    ∀ texts spaced, List.Forall₂ Spaced texts spaced →
      (∀ text ∈ texts, Text.trim text = text ∧ text ≠ [] ∧ split text = [text] ∧
        Nesting.top.after text = .top) →
      split (Text.join [','] spaced) = texts := by
  refine ⟨fun text => ⟨fun parameter member => ?_, ?_⟩, fun texts spaced around proper => ?_⟩
  · obtain ⟨trimmed, filled⟩ := mem_split member
    exact ⟨trimmed, filled, split_of_pieces ((separable_split text).whole _ member) trimmed filled⟩
  · obtain ⟨spaced, joined, trimmed⟩ := exists_join_blank (split text)
    have same : (split text).map Text.trim = split text :=
      (List.map_congr_left fun parameter member => (mem_split member).1).trans (List.map_id' _)
    rw [joined]
    exact split_join_of_trimmed (trimmed.trans same) (fun _ member => (mem_split member).2)
      (separable_split text)
  · have separable : Separable texts :=
      ⟨fun text member => pieces_of_split (proper text member).2.2.1,
        fun text member => (proper text (List.dropLast_subset _ member)).2.2.2⟩
    exact split_join_of_trimmed (map_trim_of_spaced around fun text member => (proper text member).1)
      (fun text member => (proper text member).2.1) separable

/-- A group, a literal with an escaped quote, and the blanks on both sides of the comma between them. -/
theorem split_rejoined_spaced :
    split "v[3] = {0, 1}\t,  s[] = \"a, ^\"b\"".toList =
      ["v[3] = {0, 1}".toList, "s[] = \"a, ^\"b\"".toList] :=
  split_rejoined.2 ["v[3] = {0, 1}".toList, "s[] = \"a, ^\"b\"".toList]
    ["v[3] = {0, 1}\t".toList, "  s[] = \"a, ^\"b\"".toList]
    (.cons ⟨[], ['\t'], List.all_eq_true.mp (by decide), rfl⟩
      (.cons ⟨[' ', ' '], [], List.all_eq_true.mp (by decide), rfl⟩ .nil))
    (by decide)

end Parameter

end PawnScope
