import Mathlib.Data.List.Induction
import PawnScope.Proofs.Parameter.Rejoining
import PawnScope.Proofs.Query.Positional
/-!
The arguments of a call and the parameters of a list are cut at the same commas, those that stand outside
of all groups and literals (`Parameter.commas`). So an argument that is still being written is counted
among the parameters before it: `Query.lastArgument_counts`.
-/

namespace PawnScope

namespace Parameter

variable {text rest last : Text} {c : Char} {start : Nat} {offsets : List Nat} {front : List Text}

/-! ## Commas -/

/-- A comma stands at the offset, and all groups and literals before it are closed. -/
def SeparatesAt (text : Text) (offset : Nat) : Prop :=
  text[offset]? = some ',' ∧ Nesting.top.after (text.take offset) = .top

instance (text : Text) (offset : Nat) : Decidable (SeparatesAt text offset) :=
  inferInstanceAs (Decidable (_ ∧ _))

/-- Where the commas stand that separate. -/
def commas (text : Text) : List Nat :=
  (List.range text.length).filter (SeparatesAt text)

/-- What stands from offset `start` on between the characters at some offsets. -/
def cutAt (text : Text) (start : Nat) : List Nat → List Text
  | [] => [text.drop start]
  | stop :: more => text.slice start stop :: cutAt text (stop + 1) more

theorem lt_length_of_mem_commas {offset : Nat} (member : offset ∈ commas text) : offset < text.length :=
  List.mem_range.mp (List.mem_of_mem_filter member)

/-- A further character is a comma that separates, or is none. -/
theorem commas_append_singleton (text : Text) (c : Char) :
    commas (text ++ [c]) =
      commas text ++ if (Nesting.top.after text).separates c = true then [text.length] else [] := by
  have before (offset : Nat) (short : offset < text.length) :
      SeparatesAt (text ++ [c]) offset ↔ SeparatesAt text offset := by
    rw [SeparatesAt, SeparatesAt, List.getElem?_append_left short,
      List.take_append_of_le_length (Nat.le_of_lt short)]
  have last : SeparatesAt (text ++ [c]) text.length ↔
      (Nesting.top.after text).separates c = true := by
    rw [SeparatesAt, List.getElem?_concat_length, List.take_left, Option.some.injEq]
    refine ⟨?_, fun separates => ⟨(pieces_comma separates []).1, ?_⟩⟩
    · rintro ⟨rfl, closed⟩
      rw [closed]
      rfl
    · exact (Nesting.sane_top.after text).eq_top separates
  rw [commas, List.length_append, List.length_singleton, Text.filter_range_succ before, commas]
  simp only [last]

/-! ## Pieces -/

theorem length_cutAt (text : Text) (start : Nat) (offsets : List Nat) :
    (cutAt text start offsets).length = offsets.length + 1 := by
  induction offsets generalizing start with
  | nil => rfl
  | cons stop more ih => rw [cutAt, List.length_cons, ih, List.length_cons]

theorem exists_cutAt (text : Text) (start : Nat) (offsets : List Nat) :
    ∃ front, cutAt text start offsets =
      front ++ [text.drop (offsets.getLast?.elim start (· + 1))] := by
  induction offsets generalizing start with
  | nil => exact ⟨[], rfl⟩
  | cons stop more ih =>
    obtain ⟨front, cut⟩ := ih (stop + 1)
    refine ⟨text.slice start stop :: front, ?_⟩
    rw [cutAt, cut, List.getLast?_cons, List.cons_append]
    cases more.getLast? <;> rfl

/-- A further character belongs to the last piece, or begins a new one. -/
theorem cutAt_append_singleton (inside : ∀ offset ∈ offsets, offset < text.length)
    (short : start ≤ text.length) (cut : cutAt text start offsets = front ++ [last]) (c : Char) :
    cutAt (text ++ [c]) start offsets = front ++ [last ++ [c]] ∧
      cutAt (text ++ [c]) start (offsets ++ [text.length]) = front ++ [last, []] := by
  induction offsets generalizing start front with
  | nil =>
    have alone : [] ++ [text.drop start] = front ++ [last] := cut
    obtain ⟨rfl, same⟩ := List.append_inj' alone rfl
    obtain rfl := List.singleton_inj.mp same
    simp [cutAt, Text.slice, List.drop_append_of_le_length short]
  | cons stop more ih =>
    obtain ⟨here, below⟩ := List.forall_mem_cons.mp inside
    have same : (text ++ [c]).slice start stop = text.slice start stop := by
      rw [Text.slice, Text.slice, List.drop_append_of_le_length short, List.take_append_of_le_length]
      rw [List.length_drop]
      omega
    obtain ⟨first, more', cut'⟩ := List.exists_cons_of_length_pos
      (Nat.lt_of_lt_of_eq (Nat.succ_pos _) (length_cutAt text (stop + 1) more).symm)
    cases front with
    | nil =>
      rw [cutAt, cut'] at cut
      simp at cut
    | cons piece front =>
      obtain ⟨rfl, rest⟩ := List.cons.inj cut
      obtain ⟨goesOn, begins⟩ := ih below here rest
      constructor
      · rw [cutAt, same, goesOn, List.cons_append]
      · rw [List.cons_append, cutAt, same, begins, List.cons_append]

/-- A list is cut at its commas. -/
theorem pieces_eq_cutAt (text : Text) : pieces .top text = cutAt text 0 (commas text) := by
  induction text using List.reverseRecOn with
  | nil => rfl
  | append_singleton text c ih =>
    obtain ⟨front, last, cut⟩ := exists_last_piece .top text
    obtain ⟨goesOn, begins⟩ := cutAt_append_singleton
      (fun _ => lt_length_of_mem_commas) (Nat.zero_le _) (ih.symm.trans cut) c
    rw [commas_append_singleton]
    cases separates : (Nesting.top.after text).separates c with
    | true =>
      rw [if_pos rfl, begins, pieces_append cut (pieces_comma separates []).2, List.append_nil]
      rfl
    | false =>
      rw [if_neg Bool.false_ne_true, List.append_nil, goesOn,
        pieces_append cut (pieces_cons separates rfl rfl)]

/-- The front of a text that is not cut is not cut either. -/
theorem pieces_of_prefix {front : Text} (prior : front <+: text) (whole : pieces .top text = [text]) :
    pieces .top front = [front] := by
  obtain ⟨rest, rfl⟩ := prior
  have size := length_pieces_append .top front rest
  obtain ⟨first, more, behind⟩ := exists_pieces (Nesting.top.after front) rest
  obtain ⟨first', more', here⟩ := exists_pieces .top front
  rw [pieces_eq_singleton_iff]
  rw [whole, behind, here] at size
  rw [here]
  simp only [List.length_cons, List.length_nil] at size ⊢
  omega

/-- So a list that is not written to its end is still separable. -/
theorem Separable.take {texts : List Text} (separable : Separable texts) {index : Nat} {front : Text}
    (found : text ∈ texts[index]?) (prior : front <+: text) :
    Separable (texts.take index ++ [front]) where
  whole piece member := by
    rcases List.mem_append.mp member with member | member
    · exact separable.whole piece (List.mem_of_mem_take member)
    · rw [List.mem_singleton.mp member]
      exact pieces_of_prefix prior (separable.whole text (List.mem_of_getElem? found))
  closed piece member := by
    rw [List.dropLast_concat] at member
    have short := (List.getElem?_eq_some_iff.mp found).1
    refine separable.closed piece (List.take_subset index _ ?_)
    rwa [List.dropLast_eq_take, List.take_take, Nat.min_eq_left (by omega)]

end Parameter

namespace Query

open Parameter (commas cutAt pieces)

/--
The arguments of a call are as many as a list has pieces between the commas that separate, of which its
parameters are those that are not blank, and the last argument starts where the last piece does. So it is
counted with the parameters of any list of which it is written as much as there is.
-/
theorem lastArgument_counts :
    (∀ text, let cut := cutAt text 0 (commas text)
      cut.length = (lastArgument text).index + 1 ∧
      (lastArgument text).start ≤ text.length ∧
      cut.getLast? = some (text.drop (lastArgument text).start) ∧
      Parameter.split text = (cut.map Text.trim).filter (!·.isEmpty)) ∧
    ∀ text index parameter argument, (Parameter.split text)[index]? = some parameter →
      argument <+: parameter →
      (lastArgument (Text.join [',', ' '] ((Parameter.split text).take index ++ [argument]))).index =
        index := by
  refine ⟨fun text => ?_, fun text index parameter argument found prior => ?_⟩
  · obtain ⟨front, cut⟩ := Parameter.exists_cutAt text 0 (commas text)
    have place := lastArgument_place ((Parameter.pieces_eq_cutAt text).trans cut)
    have bound : (commas text).getLast?.elim 0 (· + 1) ≤ text.length := by
      cases found : (commas text).getLast? with
      | none => exact Nat.zero_le _
      | some offset => exact Parameter.lt_length_of_mem_commas (List.mem_of_getLast? found)
    have size := Parameter.length_cutAt text 0 (commas text)
    rw [cut, List.length_append, List.length_singleton, Nat.add_right_cancel_iff] at size
    rw [place, List.length_drop, Nat.sub_sub_self bound]
    refine ⟨?_, bound, ?_, ?_⟩
    · rw [cut, List.length_append, List.length_singleton]
    · rw [cut, List.getLast?_concat]
    · rw [Parameter.split, Parameter.pieces_eq_cutAt]
  · have separable := (Parameter.separable_split text).take found prior
    obtain ⟨spaced, joined, trimmed⟩ :=
      Parameter.exists_join_blank ((Parameter.split text).take index ++ [argument])
    have separable' : Parameter.Separable spaced := by
      rw [← Parameter.separable_map_trim, trimmed, Parameter.separable_map_trim]
      exact separable
    have size := congrArg List.length trimmed
    have short := (List.getElem?_eq_some_iff.mp found).1
    rw [List.length_map, List.length_map, List.length_append, List.length_singleton, List.length_take,
      Nat.min_eq_left (Nat.le_of_lt short)] at size
    have filled : spaced ≠ [] := List.ne_nil_of_length_eq_add_one size
    have cut := separable'.pieces_join filled
    rw [← joined, ← List.dropLast_concat_getLast filled] at cut
    rw [(lastArgument_of_pieces cut).1, List.length_dropLast, size, Nat.add_sub_cancel]

/-- A parameter whose literal is still open, with a comma in it and groups before it. -/
theorem lastArgument_counts_literal :
    Parameter.split "v[2] = {0, 1},, Float:(a, b) , s[] = \"x, y\"".toList =
        ["v[2] = {0, 1}".toList, "Float:(a, b)".toList, "s[] = \"x, y\"".toList] ∧
      "s[] = \"x, ".toList <+: "s[] = \"x, y\"".toList ∧
      (lastArgument "v[2] = {0, 1}, Float:(a, b), s[] = \"x, ".toList).index = 2 := by
  have split : Parameter.split "v[2] = {0, 1},, Float:(a, b) , s[] = \"x, y\"".toList =
      ["v[2] = {0, 1}".toList, "Float:(a, b)".toList, "s[] = \"x, y\"".toList] := by decide +kernel
  have prior : "s[] = \"x, ".toList <+: "s[] = \"x, y\"".toList := by decide +kernel
  have counted := lastArgument_counts.2 "v[2] = {0, 1},, Float:(a, b) , s[] = \"x, y\"".toList 2 _ _
    (by rw [split]; rfl) prior
  rw [split] at counted
  exact ⟨split, prior, counted⟩

end Query

end PawnScope
