import PawnScope.Cursor.Call
import PawnScope.Proofs.Text.Pieces
/-!
The call around the cursor is that of the innermost parenthesis which is open there. The scan back from
the cursor counts the groups that it has come into from behind (`Call.Leads`); what it finds is told by the
numbers of parentheses alone: `Call.around?_innermost`.
-/

namespace PawnScope

namespace Text

theorem trimEnd_getLast? (t : Text) : ∀ c ∈ (trimEnd t).getLast?, isBlank c = false := by
  intro c last
  rw [trimEnd, List.getLast?_reverse] at last
  have stop := List.head?_dropWhile_not isBlank t.reverse
  rw [last] at stop
  exact stop

/-- The text ends in `name`, which is as long as it can be, and in blanks behind it. -/
def EndsInName [Alphabets] (text name : Text) : Prop :=
  ∃ above blanks, text = above ++ (name ++ blanks) ∧ (∀ c ∈ blanks, isBlank c = true) ∧
    (∀ c ∈ (above ++ name).getLast?, isBlank c = false) ∧
    (∀ c ∈ name, Identifier.isPart c = true) ∧ ∀ c ∈ above.getLast?, Identifier.isPart c = false

theorem endsInName_iff [Alphabets] {text name : Text} :
    EndsInName text name ↔ name = Word.lastRun (trimEnd text) := by
  constructor
  · rintro ⟨above, blanks, rfl, blank, solid, parts, stop⟩
    have run : (name.reverse ++ above.reverse).takeWhile Identifier.isPart = name.reverse := by
      refine takeWhile_run (fun c member => parts c (List.mem_reverse.mp member)) ?_
      rwa [List.head?_reverse]
    rw [← List.append_assoc, trimEnd_append_blanks blank, trimEnd_eq_self solid, Word.lastRun,
      List.reverse_append, run, List.reverse_reverse]
  · rintro rfl
    obtain ⟨blanks, whole, blank⟩ := exists_trimEnd text
    have cut : (((trimEnd text).reverse.dropWhile Identifier.isPart).reverse ++
        Word.lastRun (trimEnd text)) = trimEnd text := by
      rw [Word.lastRun, ← List.reverse_append, List.takeWhile_append_dropWhile, List.reverse_reverse]
    refine ⟨((trimEnd text).reverse.dropWhile Identifier.isPart).reverse, blanks, ?_, blank, ?_, ?_, ?_⟩
    · rw [← List.append_assoc, cut]
      exact whole
    · rw [cut]
      exact trimEnd_getLast? text
    · intro c member
      exact List.all_eq_true.mp List.all_takeWhile c (List.mem_reverse.mp member)
    · intro c last
      rw [List.getLast?_reverse] at last
      have stop := List.head?_dropWhile_not Identifier.isPart (trimEnd text).reverse
      rw [last] at stop
      exact stop

end Text

namespace Call

/-- A character with whether it belongs to a literal. -/
abbrev Masked := Char × Bool

/-- The characters of a text, each with whether it belongs to a literal. -/
def masked (text : Text) : List Masked :=
  text.zip (Literal.mask text)

/--
The character at `index` is a parenthesis that is open at the end: no semicolon follows it, as many
parentheses are closed behind it as are opened there, and no fewer in any part of that up to the end.
Only characters outside literals count.
-/
structure Innermost (before : List Masked) (index : Nat) : Prop where
  opens : before[index]? = some ('(', false)
  unended : (';', false) ∉ before.drop (index + 1)
  balanced : (before.drop (index + 1)).count ('(', false) =
    (before.drop (index + 1)).count (')', false)
  closes : ∀ tail, tail <:+ before.drop (index + 1) →
    tail.count ('(', false) ≤ tail.count (')', false)

/-! ## The scan back -/

/--
Over `between`, which comes last to first, a scan back leads out of `depth` groups, and never out of more.
-/
structure Leads (depth : Nat) (between : List Masked) : Prop where
  unended : (';', false) ∉ between
  balanced : between.count ('(', false) = depth + between.count (')', false)
  inside : ∀ front, front <+: between → front.count ('(', false) ≤ depth + front.count (')', false)

variable {depth index : Nat} {first : Masked} {between before : List Masked}

theorem leads_nil : Leads depth [] ↔ depth = 0 := by
  constructor
  · rintro ⟨-, balanced, -⟩
    simpa using balanced.symm
  · rintro rfl
    exact ⟨by simp, by simp, by simp⟩

/-- What a bound on the fronts of a list says of its first element. -/
theorem forall_prefix_cons (p : List Masked → Prop) (nothing : p []) :
    (∀ front, front <+: first :: between → p front) ↔
      ∀ front, front <+: between → p (first :: front) := by
  constructor
  · exact fun all front cut => all _ (List.prefix_cons_iff.mpr (.inr ⟨front, rfl, cut⟩))
  · rintro all front cut
    rcases List.prefix_cons_iff.mp cut with rfl | ⟨front, rfl, cut'⟩
    · exact nothing
    · exact all front cut'

theorem leads_cons :
    Leads depth (first :: between) ↔ first ≠ (';', false) ∧ (';', false) ∉ between ∧
      (first :: between).count ('(', false) = depth + (first :: between).count (')', false) ∧
      ∀ front, front <+: between →
        (first :: front).count ('(', false) ≤ depth + (first :: front).count (')', false) := by
  have fronts : (∀ front, front <+: first :: between →
      front.count ('(', false) ≤ depth + front.count (')', false)) ↔ _ :=
    forall_prefix_cons (fun front => front.count ('(', false) ≤ depth + front.count (')', false)) (by simp)
  constructor
  · rintro ⟨unended, balanced, inside⟩
    obtain ⟨here, below⟩ := not_or.mp (List.mem_cons.not.mp unended)
    exact ⟨Ne.symm here, below, balanced, fronts.mp inside⟩
  · rintro ⟨here, below, balanced, inside⟩
    exact ⟨List.mem_cons.not.mpr (not_or.mpr ⟨Ne.symm here, below⟩), balanced, fronts.mpr inside⟩

/-- A semicolon ends the scan. -/
theorem not_leads_semicolon : ¬Leads depth ((';', false) :: between) :=
  fun leads => (leads_cons.mp leads).1 rfl

/-- What is neither a parenthesis nor a semicolon outside of literals does not matter. -/
theorem leads_other (semicolon : first ≠ (';', false)) (opener : first ≠ ('(', false))
    (closer : first ≠ (')', false)) : Leads depth (first :: between) ↔ Leads depth between := by
  rw [leads_cons]
  simp only [List.count_cons_of_ne opener, List.count_cons_of_ne closer]
  exact ⟨fun ⟨_, unended, balanced, inside⟩ => ⟨unended, balanced, inside⟩,
    fun ⟨unended, balanced, inside⟩ => ⟨semicolon, unended, balanced, inside⟩⟩

theorem leads_closer : Leads depth ((')', false) :: between) ↔ Leads (depth + 1) between := by
  have other : ((')', false) : Masked) ≠ ('(', false) := by decide
  rw [leads_cons]
  simp only [List.count_cons_of_ne other, List.count_cons_self, Nat.add_comm _ 1, ← Nat.add_assoc]
  exact ⟨fun ⟨_, unended, balanced, inside⟩ => ⟨unended, balanced, inside⟩,
    fun ⟨unended, balanced, inside⟩ => ⟨by decide, unended, balanced, inside⟩⟩

theorem leads_opener : Leads (depth + 1) (('(', false) :: between) ↔ Leads depth between := by
  have other : (('(', false) : Masked) ≠ (')', false) := by decide
  rw [leads_cons]
  simp only [List.count_cons_of_ne other, List.count_cons_self, Nat.add_right_comm depth 1,
    Nat.add_le_add_iff_right, Nat.add_right_cancel_iff]
  exact ⟨fun ⟨_, unended, balanced, inside⟩ => ⟨unended, balanced, inside⟩,
    fun ⟨unended, balanced, inside⟩ => ⟨by decide, unended, balanced, inside⟩⟩

/-- The scan does not go past a parenthesis that is open. -/
theorem not_leads_opener : ¬Leads 0 (('(', false) :: between) := by
  intro leads
  have few := leads.inside [('(', false)] (List.prefix_append _ _)
  exact absurd few (by decide)

/--
The scan over `before`, which comes last to first, is led to a parenthesis with `index` characters above
it.
-/
def StopsAt (depth : Nat) (before : List Masked) (index : Nat) : Prop :=
  ∃ between rest, before = between ++ ('(', false) :: rest ∧ rest.length = index ∧ Leads depth between

/-- What the scan passes by comes first in what leads to the parenthesis. -/
theorem stopsAt_cons {next : Nat} (stays : depth ≠ 0 ∨ first ≠ ('(', false))
    (step : ∀ between, Leads depth (first :: between) ↔ Leads next between) :
    StopsAt depth (first :: before) index ↔ StopsAt next before index := by
  constructor
  · rintro ⟨between, rest, whole, size, leads⟩
    cases between with
    | nil =>
      obtain ⟨same, -⟩ := List.cons.inj whole
      exact absurd same (stays.resolve_left (not_not_intro (leads_nil.mp leads)))
    | cons other between =>
      obtain ⟨rfl, below⟩ := List.cons.inj whole
      exact ⟨between, rest, below, size, (step between).mp leads⟩
  · rintro ⟨between, rest, rfl, size, leads⟩
    exact ⟨first :: between, rest, rfl, size, (step between).mpr leads⟩

theorem not_stopsAt_semicolon : ¬StopsAt depth ((';', false) :: before) index := by
  rintro ⟨between, rest, whole, size, leads⟩
  cases between with
  | nil => exact absurd (List.cons.inj whole).1 (by decide)
  | cons other between =>
    obtain ⟨rfl, -⟩ := List.cons.inj whole
    exact not_leads_semicolon leads

theorem stopsAt_opener : StopsAt 0 (('(', false) :: before) index ↔ before.length = index := by
  constructor
  · rintro ⟨between, rest, whole, size, leads⟩
    cases between with
    | nil =>
      obtain ⟨-, rfl⟩ := List.cons.inj whole
      exact size
    | cons other between =>
      obtain ⟨rfl, -⟩ := List.cons.inj whole
      exact absurd leads not_leads_opener
  · exact fun size => ⟨[], before, rfl, size, leads_nil.mpr rfl⟩

/-- The scan stops at the first parenthesis that it is led to. -/
theorem lastOpen?_eq_some_iff : lastOpen? depth before = some index ↔ StopsAt depth before index := by
  induction before generalizing depth with
  | nil => simp [lastOpen?, StopsAt]
  | cons first before ih =>
    obtain ⟨c, inLiteral⟩ := first
    rw [lastOpen?]
    cases inLiteral with
    | true =>
      rw [if_pos rfl, ih]
      exact (stopsAt_cons (.inr (by simp)) fun between => leads_other (by simp) (by simp) (by simp)).symm
    | false =>
      rw [if_neg Bool.false_ne_true]
      by_cases semicolon : c = ';'
      · subst semicolon
        rw [if_pos rfl]
        exact iff_of_false nofun not_stopsAt_semicolon
      rw [if_neg semicolon]
      by_cases closer : c = ')'
      · subst closer
        rw [if_pos rfl, ih]
        exact (stopsAt_cons (.inr (by decide)) fun between => leads_closer).symm
      rw [if_neg closer]
      by_cases opener : c = '('
      · subst opener
        rw [if_pos rfl]
        cases depth with
        | zero => rw [if_pos rfl, stopsAt_opener, Option.some_inj]
        | succ depth =>
          rw [if_neg (Nat.succ_ne_zero depth), Nat.add_sub_cancel, ih]
          exact (stopsAt_cons (.inl (Nat.succ_ne_zero depth)) fun between => leads_opener).symm
      · rw [if_neg opener, ih]
        exact (stopsAt_cons (.inr (by simp [opener])) fun between =>
          leads_other (by simp [semicolon]) (by simp [opener]) (by simp [closer])).symm

/-- The scan over a whole text finds the parenthesis that is open at its end. -/
theorem lastOpen?_reverse_iff :
    lastOpen? 0 before.reverse = some index ↔ Innermost before index := by
  rw [lastOpen?_eq_some_iff]
  constructor
  · rintro ⟨between, rest, whole, rfl, unended, balanced, inside⟩
    have split : before = rest.reverse ++ ('(', false) :: between.reverse := by
      rw [← List.reverse_reverse before, whole]
      simp
    have below : before.drop (rest.length + 1) = between.reverse := by
      rw [split, ← List.length_reverse, List.drop_length_add_append]
      rfl
    refine ⟨?_, ?_, ?_, fun tail suffix => ?_⟩
    · rw [split, ← List.length_reverse, List.getElem?_append_right (Nat.le_refl _), Nat.sub_self]
      rfl
    · rwa [below, List.mem_reverse]
    · rw [below, List.count_reverse, List.count_reverse, balanced, Nat.zero_add]
    · rw [below] at suffix
      have few := inside tail.reverse (List.reverse_suffix.mp (by simpa using suffix))
      rwa [List.count_reverse, List.count_reverse, Nat.zero_add] at few
  · rintro ⟨opens, unended, balanced, closes⟩
    obtain ⟨short, here⟩ := List.getElem?_eq_some_iff.mp opens
    refine ⟨(before.drop (index + 1)).reverse, (before.take index).reverse, ?_, ?_, ?_, ?_, ?_⟩
    · have split : before = before.take index ++ ('(', false) :: before.drop (index + 1) := by
        rw [← here, ← List.drop_eq_getElem_cons short, List.take_append_drop]
      exact (congrArg List.reverse split).trans (by simp)
    · rw [List.length_reverse, List.length_take]
      omega
    · rwa [List.mem_reverse]
    · rw [List.count_reverse, List.count_reverse, balanced, Nat.zero_add]
    · intro front cut
      have few := closes front.reverse (by rwa [← List.reverse_prefix, List.reverse_reverse])
      rwa [List.count_reverse, List.count_reverse, ← Nat.zero_add (front.count (')', false))] at few

/-- At most one parenthesis is the innermost one. -/
theorem Innermost.unique {other : Nat} (one : Innermost before index) (two : Innermost before other) :
    index = other :=
  Option.some.inj ((lastOpen?_reverse_iff.mpr one).symm.trans (lastOpen?_reverse_iff.mpr two))

/-! ## The call -/

/--
The call around the cursor is that of the innermost parenthesis that is open before it, with the name that
stands before the parenthesis. There is at most one such parenthesis, and no call if there is none.
-/
theorem around?_innermost [Alphabets] (chars : Text) (offset : Nat) :
    (∀ call, around? chars offset = some call ↔
      Innermost (masked (chars.take offset)) call.openParen ∧
        Text.EndsInName (chars.take call.openParen) call.name) ∧
    (∀ one two, Innermost (masked (chars.take offset)) one →
      Innermost (masked (chars.take offset)) two → one = two) ∧
    (around? chars offset = none ↔ ∀ index, ¬Innermost (masked (chars.take offset)) index) := by
  refine ⟨fun call => ?_, fun one two => Innermost.unique, ?_⟩
  · rw [around?, Option.map_eq_some_iff, Text.endsInName_iff]
    constructor
    · rintro ⟨openParen, found, rfl⟩
      exact ⟨lastOpen?_reverse_iff.mp found, rfl⟩
    · rintro ⟨innermost, name⟩
      refine ⟨call.openParen, lastOpen?_reverse_iff.mpr innermost, ?_⟩
      rw [← name]
  · rw [around?, Option.map_eq_none_iff]
    constructor
    · intro nothing index innermost
      have found := lastOpen?_reverse_iff.mpr innermost
      rw [masked, nothing] at found
      contradiction
    · intro never
      refine Option.eq_none_iff_forall_ne_some.mpr fun index found => ?_
      exact never index (lastOpen?_reverse_iff.mp found)

end Call

end PawnScope
