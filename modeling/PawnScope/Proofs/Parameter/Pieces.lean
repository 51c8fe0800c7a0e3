import PawnScope.Parameter
import PawnScope.Proofs.Text.Pieces
/-!
The pieces of a parameter list, and where the reader of a list stands behind one. A list that goes on has
its pieces up to where it did end, and then those of the rest, read from there: `pieces_append`.
-/

namespace PawnScope.Parameter

variable {nesting : Nesting} {c : Char} {text rest first last : Text} {front more : List Text}

/-! ## The reader -/

namespace Nesting

/-- Only a quote begins a literal, and only in a literal a character is escaped. -/
structure Sane (nesting : Nesting) : Prop where
  quotes : ∀ quote ∈ nesting.quote, isQuote quote = true
  escaped : nesting.quote = none → nesting.escaped = false

theorem sane_step (sane : nesting.Sane) (c : Char) : (nesting.step c).Sane := by
  obtain ⟨depth, quote, escaped⟩ := nesting
  obtain ⟨quotes, unescaped⟩ := sane
  constructor <;> cases quote <;> simp only [step] at * <;> grind

/-- A comma that separates leads nowhere. -/
theorem step_of_separates {nesting : Nesting} (separates : nesting.separates c = true) :
    nesting.step c = nesting := by
  obtain ⟨depth, quote, escaped⟩ := nesting
  simp only [Nesting.separates, Bool.and_eq_true, beq_iff_eq, Option.isNone_iff_eq_none] at separates
  obtain ⟨⟨rfl, rfl⟩, rfl⟩ := separates
  rfl

theorem sane_top : top.Sane :=
  ⟨nofun, fun _ => rfl⟩

/-- It separates only where all groups and literals are closed. -/
theorem Sane.eq_top (sane : nesting.Sane) (separates : nesting.separates c = true) : nesting = top := by
  obtain ⟨depth, quote, escaped⟩ := nesting
  simp only [Nesting.separates, Bool.and_eq_true, beq_iff_eq, Option.isNone_iff_eq_none] at separates
  obtain ⟨⟨-, rfl⟩, rfl⟩ := separates
  obtain rfl : escaped = false := sane.escaped rfl
  rfl

/-- Where a reader stands behind a text. -/
def after (nesting : Nesting) (text : Text) : Nesting :=
  text.foldl step nesting

theorem after_cons (nesting : Nesting) (c : Char) (text : Text) :
    nesting.after (c :: text) = (nesting.step c).after text :=
  rfl

theorem after_append (nesting : Nesting) (text rest : Text) :
    nesting.after (text ++ rest) = (nesting.after text).after rest :=
  List.foldl_append

/-! ### Blanks -/

theorem separates_of_isBlank (blank : isBlank c = true) : nesting.separates c = false := by
  have other : c ≠ ',' := by
    rintro rfl
    contradiction
  simp [separates, other]

/-- A blank opens and closes nothing. -/
theorem Sane.step_eq_top_iff (sane : nesting.Sane) (blank : isBlank c = true) :
    nesting.step c = top ↔ nesting = top := by
  have other : ∀ d, isBlank d = false → c ≠ d := by
    rintro d solid rfl
    rw [blank] at solid
    contradiction
  have quotes : isQuote c = false := by
    simp [isQuote, other '"' rfl, other '\'' rfl]
  obtain ⟨depth, quote, escaped⟩ := nesting
  cases quote with
  | none =>
    simp [step, quotes, other '(' rfl, other ')' rfl, other '[' rfl, other ']' rfl, other '{' rfl,
      other '}' rfl]
  | some quote =>
    have closer : c ≠ quote := by
      rintro rfl
      rw [sane.quotes c rfl] at quotes
      contradiction
    simp only [step, top, if_neg closer]
    grind

theorem Sane.after_eq_top_iff (sane : nesting.Sane) (blank : ∀ c ∈ text, isBlank c = true) :
    nesting.after text = top ↔ nesting = top := by
  induction text generalizing nesting with
  | nil => rfl
  | cons c text ih =>
    obtain ⟨here, below⟩ := List.forall_mem_cons.mp blank
    rw [after_cons, ih (sane_step sane c) below, sane.step_eq_top_iff here]

theorem Sane.after (sane : nesting.Sane) (text : Text) : (nesting.after text).Sane := by
  induction text generalizing nesting with
  | nil => exact sane
  | cons c text ih => exact ih (sane_step sane c)

end Nesting

/-! ## Pieces -/

theorem pieces_cons {next : Nesting} (inside : nesting.separates c = false)
    (step : nesting.step c = next) (behind : pieces next rest = first :: more) :
    pieces nesting (c :: rest) = (c :: first) :: more := by
  rw [pieces, inside, if_neg Bool.false_ne_true, step, behind]

theorem exists_pieces (nesting : Nesting) (text : Text) :
    ∃ first more, pieces nesting text = first :: more := by
  induction text generalizing nesting with
  | nil => exact ⟨[], [], rfl⟩
  | cons c text ih =>
    cases inside : nesting.separates c with
    | true => exact ⟨[], _, by rw [pieces, inside, if_pos rfl]⟩
    | false =>
      obtain ⟨first, more, cut⟩ := ih (nesting.step c)
      exact ⟨c :: first, more, pieces_cons inside rfl cut⟩

theorem exists_last_piece (nesting : Nesting) (text : Text) :
    ∃ front last, pieces nesting text = front ++ [last] := by
  obtain ⟨first, more, cut⟩ := exists_pieces nesting text
  exact ⟨_, _, cut.trans (List.dropLast_concat_getLast (List.cons_ne_nil first more)).symm⟩

theorem pieces_comma (separates : nesting.separates c = true) (rest : Text) :
    c = ',' ∧ pieces nesting (c :: rest) = [] :: pieces nesting rest := by
  refine ⟨?_, by rw [pieces, separates, if_pos rfl]⟩
  simp only [Nesting.separates, Bool.and_eq_true, beq_iff_eq] at separates
  exact separates.1.1

/-- A list is its pieces with the commas between them. -/
theorem join_pieces (nesting : Nesting) (text : Text) : Text.join [','] (pieces nesting text) = text := by
  induction text generalizing nesting with
  | nil => rfl
  | cons c text ih =>
    cases inside : nesting.separates c with
    | true =>
      obtain ⟨rfl, cut⟩ := pieces_comma inside text
      obtain ⟨first, more, below⟩ := exists_pieces nesting text
      rw [cut, Text.join_cons _ _ (by simp [below]), ih]
      rfl
    | false =>
      obtain ⟨first, more, below⟩ := exists_pieces (nesting.step c) text
      have same := ih (nesting.step c)
      rw [pieces_cons inside rfl below]
      rw [below] at same
      cases more with
      | nil => exact congrArg _ same
      | cons second more =>
        rw [Text.join_cons _ _ (List.cons_ne_nil _ _)] at same ⊢
        exact congrArg _ same

/-- The pieces of a list that goes on. -/
theorem pieces_append (cut : pieces nesting text = front ++ [last])
    (behind : pieces (nesting.after text) rest = first :: more) :
    pieces nesting (text ++ rest) = front ++ (last ++ first) :: more := by
  induction text generalizing nesting front last with
  | nil =>
    have alone : [] ++ [[]] = front ++ [last] := cut
    obtain ⟨rfl, same⟩ := List.append_inj' alone rfl
    obtain rfl := List.singleton_inj.mp same
    exact behind
  | cons c text ih =>
    rw [Nesting.after_cons] at behind
    cases inside : nesting.separates c with
    | true =>
      rw [(pieces_comma inside text).2] at cut
      rw [Nesting.step_of_separates inside] at behind
      obtain ⟨piece, pieces', below⟩ := exists_pieces nesting text
      rw [below] at cut
      cases front with
      | nil => simp at cut
      | cons opening front =>
        obtain ⟨rfl, same⟩ := List.cons.inj cut
        rw [List.cons_append, (pieces_comma inside _).2, ih (below.trans same) behind,
          List.cons_append]
    | false =>
      obtain ⟨piece, pieces', below⟩ := exists_pieces (nesting.step c) text
      rw [pieces_cons inside rfl below] at cut
      cases front with
      | nil =>
        obtain ⟨rfl, rfl⟩ := List.cons.inj cut
        have whole : pieces (nesting.step c) text = [] ++ [piece] := below
        exact pieces_cons inside rfl (ih whole behind)
      | cons opening front =>
        obtain ⟨rfl, rfl⟩ := List.cons.inj cut
        have longer : pieces (nesting.step c) text = (piece :: front) ++ [last] := below
        exact pieces_cons inside rfl (ih longer behind)

theorem length_pieces_append (nesting : Nesting) (text rest : Text) :
    (pieces nesting (text ++ rest)).length + 1 =
      (pieces nesting text).length + (pieces (nesting.after text) rest).length := by
  obtain ⟨front, last, cut⟩ := exists_last_piece nesting text
  obtain ⟨first, more, behind⟩ := exists_pieces (nesting.after text) rest
  rw [pieces_append cut behind, cut, behind]
  simp only [List.length_append, List.length_cons, List.length_nil]
  omega

/-- A list is one piece if it is not cut at all. -/
theorem pieces_eq_singleton_iff :
    pieces nesting text = [text] ↔ (pieces nesting text).length = 1 := by
  refine ⟨fun whole => by rw [whole, List.length_singleton], fun one => ?_⟩
  obtain ⟨piece, cut⟩ := List.length_eq_one_iff.mp one
  have whole := join_pieces nesting text
  rw [cut] at whole ⊢
  exact congrArg (fun piece => [piece]) whole

theorem pieces_blanks (blank : ∀ c ∈ text, isBlank c = true) : pieces nesting text = [text] := by
  induction text generalizing nesting with
  | nil => rfl
  | cons c text ih =>
    obtain ⟨here, below⟩ := List.forall_mem_cons.mp blank
    exact pieces_cons (Nesting.separates_of_isBlank here) rfl (ih below)

/-! ## Lists that are cut where they were joined -/

/-- No comma in any of the texts separates, and behind each but the last one does. -/
structure Separable (texts : List Text) : Prop where
  whole : ∀ text ∈ texts, pieces .top text = [text]
  closed : ∀ text ∈ texts.dropLast, Nesting.top.after text = .top

theorem separable_cons {texts : List Text} : Separable (text :: texts) ↔
    pieces .top text = [text] ∧ (texts ≠ [] → Nesting.top.after text = .top) ∧ Separable texts := by
  cases texts with
  | nil =>
    constructor
    · exact fun separable => ⟨separable.whole _ List.mem_cons_self, nofun, nofun, nofun⟩
    · exact fun ⟨whole, _, _⟩ => ⟨List.forall_mem_singleton.mpr whole, nofun⟩
  | cons next texts =>
    constructor
    · rintro ⟨whole, closed⟩
      obtain ⟨here, below⟩ := List.forall_mem_cons.mp whole
      obtain ⟨shut, shut'⟩ := List.forall_mem_cons.mp closed
      exact ⟨here, fun _ => shut, below, shut'⟩
    · rintro ⟨whole, closed, separable⟩
      exact ⟨List.forall_mem_cons.mpr ⟨whole, separable.whole⟩,
        List.forall_mem_cons.mpr ⟨closed (List.cons_ne_nil _ _), separable.closed⟩⟩

/-- Texts that are left out take no comma away that has to separate. -/
theorem Separable.sublist {texts fewer : List Text} (separable : Separable texts)
    (left : fewer.Sublist texts) : Separable fewer where
  whole text member := separable.whole text (left.subset member)
  closed text member := by
    have ends : fewer.dropLast.Sublist texts.dropLast := by
      have reversed := left.reverse.tail
      rw [List.tail_reverse, List.tail_reverse] at reversed
      exact List.reverse_sublist.mp reversed
    exact separable.closed text (ends.subset member)

theorem separable_of_pieces (sane : nesting.Sane) (cut : pieces nesting text = first :: more) :
    pieces nesting first = [first] ∧ (more ≠ [] → nesting.after first = .top) ∧ Separable more := by
  induction text generalizing nesting first more with
  | nil =>
    obtain ⟨rfl, rfl⟩ := List.cons.inj cut
    exact ⟨rfl, nofun, nofun, nofun⟩
  | cons c text ih =>
    cases inside : nesting.separates c with
    | true =>
      obtain rfl := sane.eq_top inside
      obtain ⟨piece, more', below⟩ := exists_pieces .top text
      rw [(pieces_comma inside text).2, below] at cut
      obtain ⟨rfl, rfl⟩ := List.cons.inj cut
      exact ⟨rfl, fun _ => rfl, separable_cons.mpr (ih sane below)⟩
    | false =>
      obtain ⟨piece, more', below⟩ := exists_pieces (nesting.step c) text
      rw [pieces_cons inside rfl below] at cut
      obtain ⟨rfl, rfl⟩ := List.cons.inj cut
      obtain ⟨whole, closed, separable⟩ := ih (Nesting.sane_step sane c) below
      exact ⟨pieces_cons inside rfl whole, closed, separable⟩

/-- The pieces of any list are separable. -/
theorem separable_pieces (text : Text) : Separable (pieces .top text) := by
  obtain ⟨first, more, cut⟩ := exists_pieces .top text
  rw [cut]
  exact separable_cons.mpr (separable_of_pieces Nesting.sane_top cut)

/-- A text from which only the comma behind it is cut leaves nothing open. -/
theorem closed_of_comma (cut : pieces .top (text ++ [',']) = [text, []]) :
    pieces .top text = [text] ∧ Nesting.top.after text = .top := by
  obtain ⟨front, last, parts⟩ := exists_last_piece .top text
  cases inside : (Nesting.top.after text).separates ',' with
  | true =>
    have whole := pieces_append parts (pieces_comma inside []).2
    rw [cut] at whole
    have alone : front ++ [last ++ [], []] = [] ++ [text, []] := whole.symm
    obtain ⟨rfl, same⟩ := List.append_inj' alone rfl
    rw [List.append_nil] at same
    exact ⟨by rw [parts, (List.cons.inj same).1]; rfl, (Nesting.sane_top.after text).eq_top inside⟩
  | false =>
    have comma : pieces (Nesting.top.after text) [','] = [[',']] := pieces_cons inside rfl rfl
    have whole := pieces_append parts comma
    rw [cut] at whole
    have ends := congrArg List.getLast? whole
    rw [List.getLast?_append] at ends
    simp at ends

/-- Separable texts with commas between them are cut into the texts again. -/
theorem Separable.pieces_join {texts : List Text} (separable : Separable texts) (filled : texts ≠ []) :
    pieces .top (Text.join [','] texts) = texts := by
  induction texts with
  | nil => exact absurd rfl filled
  | cons text texts ih =>
    obtain ⟨whole, closed, below⟩ := separable_cons.mp separable
    cases texts with
    | nil => exact whole
    | cons next texts =>
      have alone : pieces .top text = [] ++ [text] := whole
      have comma : pieces (Nesting.top.after text) (',' :: Text.join [','] (next :: texts)) =
          [] :: next :: texts := by
        rw [closed (List.cons_ne_nil _ _), (pieces_comma rfl _).2, ih below (List.cons_ne_nil _ _)]
      have cut := pieces_append alone comma
      rw [List.append_nil, List.nil_append] at cut
      rwa [Text.join_cons _ _ (List.cons_ne_nil _ _)]

end PawnScope.Parameter
