import PawnScope.Proofs.Cursor.Opened
/-!
The string that the cursor is in. Its reader knows no literals but strings, and its escapes do not know
lines, so it agrees with the mask where no double quote before the cursor stands in a literal of the other
kind, and the string around the cursor does not end its line with an escape: `Literal.stringAround?_iff`.
-/

namespace PawnScope.Literal

open Token (LiteralBody)

/-! ## Inside of a literal -/

/-- What is open behind a text that stays in the literal which is open before it. -/
def within? (state : Char × Bool) (text : Text) : Option (Char × Bool) :=
  text.foldlM (fun state c => next (some state) c) state

variable {quote c : Char} {escaped : Bool} {state last : Char × Bool} {text front rest body : Text}

theorem within?_append (state : Char × Bool) (front rest : Text) :
    within? state (front ++ rest) = (within? state front).bind (within? · rest) :=
  List.foldlM_append

theorem within?_cons (state : Char × Bool) (c : Char) (rest : Text) :
    within? state (c :: rest) = (next (some state) c).bind (within? · rest) :=
  List.foldlM_cons

/-- A text that stays in a literal leaves it open. -/
theorem foldl_of_within? (stays : within? state text = some last) :
    text.foldl next (some state) = some last := by
  induction text generalizing state with
  | nil => exact stays
  | cons c text ih =>
    rw [within?_cons, Option.bind_eq_some_iff] at stays
    obtain ⟨after, step, later⟩ := stays
    rw [List.foldl_cons, step, ih later]

theorem opened_append (opens : opened front = some state) (stays : within? state body = some last) :
    opened (front ++ body) = some last := by
  rw [opened, List.foldl_append, ← opened, opens, foldl_of_within? stays]

theorem next_escaped (inner : c ≠ '\n') : next (some (quote, true)) c = some (quote, false) :=
  if_neg inner

theorem next_escape (escapes : isEscape c = true) : next (some (quote, false)) c = some (quote, true) := by
  have inner : c ≠ '\n' := by
    rintro rfl
    contradiction
  rw [next, if_neg inner]
  exact if_pos escapes

theorem next_plain (inner : c ≠ '\n') (plain : isEscape c = false) (other : c ≠ quote) :
    next (some (quote, false)) c = some (quote, false) := by
  simp [next, inner, plain, other]

theorem next_close (plain : isEscape quote = false) : next (some (quote, false)) quote = none := by
  simp [next, plain]

/-- What stands between the quotes of a literal stays in it. -/
theorem within?_of_literalBody (inside : LiteralBody quote body) (single : '\n' ∉ body) :
    within? (quote, false) body = some (quote, false) := by
  induction inside with
  | nil => rfl
  | @plain c body other plain _ ih =>
    obtain ⟨here, below⟩ := not_or.mp (List.mem_cons.not.mp single)
    rw [within?_cons, next_plain (Ne.symm here) plain other]
    exact ih below
  | @escaped c d body escapes inner _ ih =>
    have below : '\n' ∉ body := fun member => single (by simp [member])
    rw [within?_cons, next_escape escapes, Option.bind_some, within?_cons, next_escaped inner]
    exact ih below

/-- And nothing else does. -/
theorem literalBody_of_within? : ∀ {body : Text}, within? (quote, false) body = some (quote, false) →
    LiteralBody quote body ∧ '\n' ∉ body
  | [], _ => ⟨.nil, List.not_mem_nil⟩
  | c :: rest, stays => by
    have inner : c ≠ '\n' := by
      rintro rfl
      contradiction
    rw [within?_cons] at stays
    cases escapes : isEscape c with
    | false =>
      have other : c ≠ quote := by
        rintro rfl
        rw [next_close escapes] at stays
        contradiction
      rw [next_plain inner escapes other] at stays
      obtain ⟨inside, single⟩ := literalBody_of_within? stays
      exact ⟨.plain other escapes inside, by simp [Ne.symm inner, single]⟩
    | true =>
      rw [next_escape escapes, Option.bind_some] at stays
      match rest, stays with
      | d :: rest, stays =>
        have inner' : d ≠ '\n' := by
          rintro rfl
          contradiction
        rw [within?_cons, next_escaped inner'] at stays
        obtain ⟨inside, single⟩ := literalBody_of_within? stays
        exact ⟨.escaped escapes inner' inside, by simp [Ne.symm inner, Ne.symm inner', single]⟩

theorem within?_fst (stays : within? state text = some last) : last.1 = state.1 := by
  induction text generalizing state with
  | nil => rw [Option.some.inj stays]
  | cons c text ih =>
    rw [within?_cons, Option.bind_eq_some_iff] at stays
    obtain ⟨after, step, later⟩ := stays
    rw [ih later]
    obtain ⟨quote, escaped⟩ := state
    cases escaped <;> grind [next]

/-- A string is open behind the text: its quote stands behind `above`, and `front` behind that. -/
structure OpenString (text above front : Text) (escaped : Bool) : Prop where
  written : text = above ++ '"' :: front
  outside : opened above = none
  stays : within? ('"', false) front = some ('"', escaped)

namespace OpenString

variable {above above' front' : Text} {escaped' : Bool}

theorem opened (string : OpenString text above front escaped) :
    Literal.opened text = some ('"', escaped) := by
  have opens : next none '"' = some ('"', false) := rfl
  rw [string.written, Literal.opened, List.foldl_append, ← Literal.opened, string.outside,
    List.foldl_cons, opens, foldl_of_within? string.stays]

/-- It goes on as long as what follows stays in it. -/
theorem append (string : OpenString text above front escaped)
    (stays : within? ('"', escaped) body = some ('"', escaped')) :
    OpenString (text ++ body) above (front ++ body) escaped' where
  written := by rw [string.written, List.append_assoc, List.cons_append]
  outside := string.outside
  stays := by rw [within?_append, string.stays, Option.bind_some, stays]

/-- Behind a text with no literal open at its end it is open as well. -/
theorem behind {head : Text} (outside : Literal.opened head = none)
    (string : OpenString text above front escaped) :
    OpenString (head ++ text) (head ++ above) front escaped where
  written := by rw [string.written, List.append_assoc]
  outside := by rw [Literal.opened, List.foldl_append, ← Literal.opened, outside]; exact string.outside
  stays := string.stays

/-- No opening behind that of the open string is outside of literals. -/
theorem between_eq_nil {between : Text} (string : OpenString text above front escaped)
    (outside : Literal.opened (above ++ between) = none) (cut : '"' :: front = between ++ '"' :: rest) :
    between = [] := by
  cases between with
  | nil => rfl
  | cons c between =>
    obtain rfl : '"' = c := (List.cons.inj cut).1
    obtain rfl : front = between ++ '"' :: rest := (List.cons.inj cut).2
    have stays := string.stays
    rw [within?_append, Option.bind_eq_some_iff] at stays
    obtain ⟨⟨quote, escapes⟩, reached, -⟩ := stays
    obtain rfl : quote = '"' := within?_fst reached
    have inside : OpenString (above ++ '"' :: between) above between escapes :=
      ⟨rfl, string.outside, reached⟩
    rw [inside.opened] at outside
    contradiction

/-- Where it began is certain. -/
theorem unique (string : OpenString text above front escaped)
    (string' : OpenString text above' front' escaped') :
    above = above' ∧ front = front' ∧ escaped = escaped' := by
  have last : escaped = escaped' := by
    have same := string.opened.symm.trans string'.opened
    exact (Prod.mk.inj (Option.some.inj same)).2
  suffices same : above = above' by
    subst same
    exact ⟨rfl, by simpa using string.written.symm.trans string'.written, last⟩
  rcases List.append_eq_append_iff.mp (string.written.symm.trans string'.written) with
    ⟨between, rfl, cut⟩ | ⟨between, rfl, cut⟩
  · rw [string.between_eq_nil string'.outside cut, List.append_nil]
  · rw [string'.between_eq_nil string.outside cut, List.append_nil]

end OpenString

/-! ## The reader of strings -/

/--
Where the string around `offset` opens and closes, with one character read at a time; `opened` is where the
string began that is open before `here`, and whether it escapes the character there.
-/
def stringAt (offset here : Nat) (opened : Option (Nat × Bool)) : Text → Option (Nat × Nat)
  | [] => none
  | c :: rest =>
    match opened with
    | some (opening, true) => stringAt offset (here + 1) (some (opening, false)) rest
    | some (opening, false) =>
      if c = '\n' then none
      else if isEscape c then stringAt offset (here + 1) (some (opening, true)) rest
      else if c ≠ '"' then stringAt offset (here + 1) (some (opening, false)) rest
      else if offset ≤ here then some (opening, here)
      else stringAt offset (here + 1) none rest
    | none =>
      if c = '\n' ∨ offset ≤ here then none
      else stringAt offset (here + 1) (if c = '"' then some (here, false) else none) rest

variable {offset here opening index : Nat} {found : Nat × Nat} {content row : Text}

theorem stringFrom_eq (offset here : Nat) (string : Option Nat) (text : Text) :
    stringFrom offset here string text = stringAt offset here (string.map (·, false)) text := by
  fun_induction stringFrom offset here string text with
  | case2 here string => cases string <;> rfl
  | _ => grind [stringAt]

/-- A character of a line goes on with the string that is open before it or closes it. -/
theorem next_string (inner : c ≠ '\n') (escaped : Bool) :
    (∃ escapes, next (some ('"', escaped)) c = some ('"', escapes)) ∨ escaped = false ∧ c = '"' := by
  cases escaped with
  | true => exact .inl ⟨false, next_escaped inner⟩
  | false =>
    by_cases quote : c = '"'
    · exact .inr ⟨rfl, quote⟩
    · cases escapes : isEscape c with
      | true => exact .inl ⟨true, next_escape escapes⟩
      | false => exact .inl ⟨false, next_plain inner escapes quote⟩

/-- Within a string the reader goes on as the mask does. -/
theorem stringAt_cons {escapes : Bool} (step : next (some ('"', escaped)) c = some ('"', escapes))
    (rest : Text) :
    stringAt offset here (some (opening, escaped)) (c :: rest) =
      stringAt offset (here + 1) (some (opening, escapes)) rest := by
  cases escaped <;> grind [next, stringAt]

theorem stringAt_cons_quote (offset here opening : Nat) (rest : Text) :
    stringAt offset here (some (opening, false)) ('"' :: rest) =
      if offset ≤ here then some (opening, here) else stringAt offset (here + 1) none rest :=
  rfl

/-- Nothing that begins behind the cursor is around it. -/
theorem stringAt_none (behind : offset ≤ here) (rest : Text) : stringAt offset here none rest = none := by
  cases rest with
  | nil => rfl
  | cons c rest => exact if_pos (.inr behind)

/-! ### Behind the cursor -/

/-- The string that is open, as `state` says, closes at `index` of the text. -/
def ClosesAt (state : Char × Bool) (text : Text) (index : Nat) : Prop :=
  ∃ body below, text = body ++ '"' :: below ∧ within? state body = some ('"', false) ∧ body.length = index

theorem not_closesAt_nil : ¬ClosesAt state [] index := by
  rintro ⟨body, below, cut, -⟩
  simp at cut

/-- A string closes at its quote. -/
theorem closesAt_cons_quote : ClosesAt ('"', false) ('"' :: rest) index ↔ index = 0 := by
  constructor
  · rintro ⟨body, below, cut, stays, rfl⟩
    cases body with
    | nil => rfl
    | cons c body =>
      obtain rfl : '"' = c := (List.cons.inj cut).1
      rw [within?_cons, next_close rfl] at stays
      contradiction
  · rintro rfl
    exact ⟨[], rest, rfl, rfl, rfl⟩

/-- Before any other character it closes where the rest of the text closes it. -/
theorem closesAt_cons (step : next (some ('"', escaped)) c = some state) :
    ClosesAt ('"', escaped) (c :: rest) index ↔ ∃ later, index = later + 1 ∧ ClosesAt state rest later := by
  constructor
  · rintro ⟨body, below, cut, stays, rfl⟩
    cases body with
    | nil =>
      obtain rfl : c = '"' := (List.cons.inj cut).1
      obtain rfl : escaped = false := (Prod.mk.inj (Option.some.inj stays)).2
      contradiction
    | cons d body =>
      obtain rfl : c = d := (List.cons.inj cut).1
      rw [within?_cons, step] at stays
      exact ⟨body.length, rfl, body, below, (List.cons.inj cut).2, stays, rfl⟩
  · rintro ⟨_, rfl, body, below, rfl, stays, rfl⟩
    refine ⟨c :: body, below, rfl, ?_, rfl⟩
    rw [within?_cons, step]
    exact stays

theorem not_closesAt_cons (ends : next (some ('"', escaped)) c = none) (other : c ≠ '"') :
    ¬ClosesAt ('"', escaped) (c :: rest) index := by
  rintro ⟨body, below, cut, stays, -⟩
  cases body with
  | nil => exact other (List.cons.inj cut).1
  | cons d body =>
    obtain rfl : c = d := (List.cons.inj cut).1
    rw [within?_cons, ends] at stays
    contradiction

/-- Behind the cursor the reader goes on to where the string closes, if no line ends with an escape in it. -/
theorem stringAt_open (behind : offset ≤ here)
    (kept : ∀ body below, text = body ++ '\n' :: below → within? ('"', escaped) body ≠ some ('"', true)) :
    stringAt offset here (some (opening, escaped)) text = some found ↔
      ∃ index, ClosesAt ('"', escaped) text index ∧ found = (opening, here + index) := by
  induction text generalizing here escaped with
  | nil => simp [stringAt, not_closesAt_nil]
  | cons c text ih =>
    have go {state : Bool} (step : next (some ('"', escaped)) c = some ('"', state)) :
        stringAt offset (here + 1) (some (opening, state)) text = some found ↔
          ∃ index, ClosesAt ('"', escaped) (c :: text) index ∧ found = (opening, here + index) := by
      rw [ih (Nat.le_succ_of_le behind) fun body below cut stays => ?_]
      · simp only [closesAt_cons step]
        constructor
        · rintro ⟨later, closes, rfl⟩
          exact ⟨later + 1, ⟨later, rfl, closes⟩, congrArg _ (Nat.succ_add_eq_add_succ here later)⟩
        · rintro ⟨_, ⟨later, rfl, closes⟩, rfl⟩
          exact ⟨later, closes, congrArg _ (Nat.succ_add_eq_add_succ here later).symm⟩
      · refine kept (c :: body) below (congrArg (c :: ·) cut) ?_
        rw [within?_cons, step]
        exact stays
    by_cases line : c = '\n'
    · subst line
      cases escaped with
      | true => exact absurd rfl (kept [] text rfl)
      | false =>
        have ends : next (some ('"', false)) '\n' = none := rfl
        simp [stringAt, not_closesAt_cons ends (by decide)]
    · obtain ⟨escapes, step⟩ | ⟨rfl, rfl⟩ := next_string line escaped
      · rw [stringAt_cons step]
        exact go step
      · rw [stringAt_cons_quote, if_pos behind]
        simp [closesAt_cons_quote, eq_comm]

/-! ### Before the cursor -/

/-- Outside of strings a character other than their quote changes nothing for the reader. -/
theorem open?_append_singleton (outside : open? row ≠ some '"') (other : c ≠ '"') :
    open? (row ++ [c]) ≠ some '"' := by
  rw [open?, opened_append_singleton]
  rw [open?] at outside
  cases before : opened row with
  | none => grind [next]
  | some state =>
    obtain ⟨opener, escapes⟩ := state
    rw [before] at outside
    cases escapes <;> grind [next]

/-- Where neither a string nor a character is open, nothing is. -/
theorem opened_eq_none (string : open? text ≠ some '"') (character : open? text ≠ some '\'') :
    opened text = none := by
  cases before : opened text with
  | none => rfl
  | some state =>
    have quotes := isQuote_of_opened before
    rw [open?, before] at string character
    simp only [isQuote, Bool.or_eq_true, beq_iff_eq] at quotes
    rcases quotes with quotes | quotes
    · exact absurd (congrArg some quotes) string
    · exact absurd (congrArg some quotes) character

/-- Before the cursor the reader knows the strings of a line, if their quotes are in no other literals. -/
theorem stringAt_before (single : '\n' ∉ row) (before : here + row.length ≤ offset)
    (apart : ∀ index, row[index]? = some '"' → open? (row.take index) ≠ some '\'') :
    (∃ above front escaped, OpenString row above front escaped ∧
        ∀ rest, stringAt offset here none (row ++ rest) =
          stringAt offset (here + row.length) (some (here + above.length, escaped)) rest) ∨
    open? row ≠ some '"' ∧
      ∀ rest, stringAt offset here none (row ++ rest) = stringAt offset (here + row.length) none rest := by
  induction row using List.reverseRecOn with
  | nil => exact .inr ⟨by decide, fun _ => rfl⟩
  | append_singleton row c ih =>
    rw [List.mem_append, List.mem_singleton, not_or] at single
    obtain ⟨single, inner⟩ := single
    replace inner : c ≠ '\n' := Ne.symm inner
    rw [List.length_append, List.length_singleton, ← Nat.add_assoc] at before
    have ahead : ¬offset ≤ here + row.length := Nat.not_le.mpr before
    have apart' : ∀ index, row[index]? = some '"' → open? (row.take index) ≠ some '\'' := by
      intro index found
      have short := (List.getElem?_eq_some_iff.mp found).1
      have cut := apart index
      rw [List.getElem?_append_left short, List.take_append_of_le_length (Nat.le_of_lt short)] at cut
      exact cut found
    simp only [List.append_assoc, List.singleton_append, List.length_append, List.length_singleton,
      ← Nat.add_assoc]
    obtain ⟨above, front, escaped, string, reads⟩ | ⟨outside, reads⟩ :=
      ih single (Nat.le_of_succ_le before) apart'
    · simp only [reads]
      obtain ⟨escapes, step⟩ | ⟨rfl, rfl⟩ := next_string inner escaped
      · have stays : within? ('"', escaped) [c] = some ('"', escapes) := by
          rw [within?_cons, step]
          rfl
        exact .inl ⟨above, front ++ [c], escapes, string.append stays, fun rest => stringAt_cons step rest⟩
      · refine .inr ⟨?_, fun rest => by rw [stringAt_cons_quote, if_neg ahead]⟩
        rw [open?, opened_append_singleton, string.opened]
        decide
    · simp only [reads]
      by_cases quote : c = '"'
      · subst quote
        have nothing : opened row = none := by
          refine opened_eq_none outside ?_
          simpa using apart row.length
        exact .inl ⟨row, [], false, ⟨rfl, nothing, rfl⟩, fun rest => by simp [stringAt, ahead]⟩
      · exact .inr ⟨open?_append_singleton outside quote, fun rest => by simp [stringAt, inner, ahead, quote]⟩

/-- At the cursor the reader has found the string that is open there, and behind it where that one closes. -/
theorem stringAt_iff {head : Text} (outside : opened head = none) (single : '\n' ∉ row)
    (apart : ∀ index, row[index]? = some '"' → open? (row.take index) ≠ some '\'')
    (kept : ∀ escaped body below, opened (head ++ row) = some ('"', escaped) → rest = body ++ '\n' :: below →
      within? ('"', escaped) body ≠ some ('"', true)) (found : Nat × Nat) :
    stringAt (head ++ row).length head.length none (row ++ rest) = some found ↔
      ∃ above front escaped index, OpenString (head ++ row) above front escaped ∧
        ClosesAt ('"', escaped) rest index ∧ found = (above.length, (head ++ row).length + index) := by
  have size : head.length + row.length = (head ++ row).length := List.length_append.symm
  obtain ⟨above, front, escaped, string, reads⟩ | ⟨nothing, reads⟩ :=
    stringAt_before single (Nat.le_of_eq size) apart
  · have whole := string.behind outside
    rw [reads, size, stringAt_open (Nat.le_refl _) (kept escaped · · whole.opened)]
    constructor
    · rintro ⟨index, closes, rfl⟩
      exact ⟨_, _, _, index, whole, closes, by simp only [List.length_append]⟩
    · rintro ⟨above', front', escaped', index, string', closes, rfl⟩
      obtain ⟨rfl, rfl, rfl⟩ := whole.unique string'
      exact ⟨index, closes, by simp only [List.length_append]⟩
  · rw [reads, stringAt_none (Nat.le_of_eq size.symm)]
    refine iff_of_false nofun ?_
    rintro ⟨above, front, escaped, index, string, -⟩
    have opens := string.opened
    rw [opened, List.foldl_append, ← opened, outside, ← opened] at opens
    exact nothing (by rw [open?, opens]; rfl)

/-! ## The string around the cursor -/

/-- The cursor is in a string of its line, behind its quote at `opening` and up to the closing one. -/
structure StringAround (chars : Text) (offset : Nat) (content : Text) (opening : Nat) : Prop where
  outside : open? (chars.take opening) = none
  written : '"' :: (content ++ ['"']) <+: chars.drop opening
  inside : LiteralBody '"' content
  single : '\n' ∉ content
  behind : opening < offset
  before : offset ≤ opening + 1 + content.length

/-- The cursor is in a string that goes over the end of its line by an escape there. -/
def SpillsOver (chars : Text) (offset : Nat) : Prop :=
  ∃ line, offset ≤ line ∧ chars[line]? = some '\n' ∧ opened (chars.take line) = some ('"', true) ∧
    ∀ index, offset ≤ index → index < line → open? (chars.take index) = some '"'

/-- What stands before the cursor's line leaves no literal open. -/
theorem exists_append_lineBefore (chars : Text) (offset : Nat) :
    ∃ head, chars.take offset = head ++ lineBefore chars offset ∧ opened head = none ∧
      '\n' ∉ lineBefore chars offset := by
  refine ⟨((chars.take offset).reverse.dropWhile (· != '\n')).reverse, ?_, ?_, ?_⟩
  · rw [lineBefore, ← List.reverse_append, List.takeWhile_append_dropWhile, List.reverse_reverse]
  · cases cut : (chars.take offset).reverse.dropWhile (· != '\n') with
    | nil => rfl
    | cons c above =>
      have line := List.head?_dropWhile_not (· != '\n') (chars.take offset).reverse
      rw [cut] at line
      obtain rfl : c = '\n' := by simpa using line
      rw [List.reverse_cons, opened_append_singleton]
      rfl
  · intro member
    simpa using List.mem_takeWhile_imp (List.mem_reverse.mp member)

/-- The string around the cursor is open before it and closes behind it. -/
theorem stringAround_iff {chars : Text} :
    StringAround chars offset content opening ↔ ∃ above front escaped index,
      OpenString (chars.take offset) above front escaped ∧ ClosesAt ('"', escaped) (chars.drop offset) index ∧
        opening = above.length ∧ content = front ++ (chars.drop offset).take index := by
  constructor
  · rintro ⟨outside, ⟨below, written⟩, inside, single, behind, before⟩
    have stays := within?_of_literalBody inside single
    -- The cursor cuts the content in two.
    obtain ⟨front, body, rfl, size⟩ : ∃ front body, content = front ++ body ∧
        offset = opening + (1 + front.length) := by
      refine ⟨content.take (offset - (opening + 1)), content.drop (offset - (opening + 1)),
        (List.take_append_drop _ _).symm, ?_⟩
      rw [List.length_take]
      omega
    obtain ⟨above, rfl, rfl⟩ : ∃ above, opening = above.length ∧
        chars = above ++ '"' :: (front ++ (body ++ '"' :: below)) := by
      refine ⟨chars.take opening, ?_, ?_⟩
      · have short := congrArg List.length written
        simp only [List.length_append, List.length_cons, List.length_drop] at short
        rw [List.length_take]
        omega
      · exact (List.take_append_drop opening chars).symm.trans (by rw [← written]; simp)
    rw [List.take_left, open?, Option.map_eq_none_iff] at outside
    rw [within?_append, Option.bind_eq_some_iff] at stays
    obtain ⟨⟨quote, escaped⟩, stays, later⟩ := stays
    obtain rfl : quote = '"' := within?_fst stays
    have before : (above ++ '"' :: (front ++ (body ++ '"' :: below))).take offset =
        above ++ '"' :: front := by
      rw [size, List.take_length_add_append, Nat.add_comm, List.take_succ_cons, List.take_left]
    have after : (above ++ '"' :: (front ++ (body ++ '"' :: below))).drop offset = body ++ '"' :: below := by
      rw [size, ← List.drop_drop, List.drop_left, Nat.add_comm, List.drop_succ_cons, List.drop_left]
    rw [before, after]
    exact ⟨above, front, escaped, body.length, ⟨rfl, outside, stays⟩, ⟨body, below, rfl, later, rfl⟩, rfl,
      by rw [List.take_left]⟩
  · rintro ⟨above, front, escaped, index, ⟨written, outside, stays⟩, ⟨body, below, later, stays', rfl⟩,
      rfl, rfl⟩
    have whole : within? ('"', false) (front ++ body) = some ('"', false) := by
      rw [within?_append, stays, Option.bind_some, stays']
    obtain ⟨inside, single⟩ := literalBody_of_within? whole
    have size : offset = above.length + (front.length + 1) := by
      have short := congrArg List.length later
      have cut := congrArg List.length written
      simp only [List.length_append, List.length_cons, List.length_drop, List.length_take] at short cut
      omega
    obtain rfl : chars = above ++ '"' :: (front ++ body ++ '"' :: below) := by
      rw [← List.take_append_drop offset chars, written, later]
      simp
    rw [later, List.take_left]
    exact {
      outside := by rw [List.take_left, open?, outside]; rfl
      written := ⟨below, by simp⟩
      inside := inside
      single := single
      behind := by omega
      before := by rw [List.length_append]; omega }

/-- Where the literal around the cursor escapes the end of its line it spills over. -/
theorem spillsOver_of_within? {chars below : Text} (opens : opened (chars.take offset) = some ('"', escaped))
    (cut : chars.drop offset = body ++ '\n' :: below)
    (stays : within? ('"', escaped) body = some ('"', true)) :
    SpillsOver chars offset := by
  have upTo (index : Nat) (short : index ≤ body.length) :
      chars.take (offset + index) = chars.take offset ++ body.take index := by
    rw [List.take_add, cut, List.take_append_of_le_length short]
  refine ⟨offset + body.length, Nat.le_add_right _ _, ?_, ?_, ?_⟩
  · rw [← List.getElem?_drop, cut, List.getElem?_append_right (Nat.le_refl _), Nat.sub_self]
    rfl
  · rw [upTo _ (Nat.le_refl _), List.take_length, opened_append opens stays]
  · intro index behind before
    obtain ⟨index, rfl⟩ := Nat.exists_eq_add_of_le behind
    have short : index ≤ body.length := Nat.le_of_lt (Nat.lt_of_add_lt_add_left before)
    rw [← List.take_append_drop index body, within?_append, Option.bind_eq_some_iff] at stays
    obtain ⟨state, reached, -⟩ := stays
    rw [upTo index short, open?, opened_append opens reached, Option.map_some, within?_fst reached]

/-- The reader of strings starts where the cursor's line does. -/
theorem stringAround?_eq {chars head : Text} (cut : chars.take offset = head ++ lineBefore chars offset) :
    stringAround? chars offset =
      (stringAt (chars.take offset).length head.length none
          (lineBefore chars offset ++ chars.drop offset)).map
        fun found => (chars.slice (found.1 + 1) found.2, found.1) := by
  have clamped : chars.take (min offset chars.length) = chars.take offset := by
    rw [← List.take_eq_take_min]
  have same : lineBefore chars (min offset chars.length) = lineBefore chars offset := by
    rw [lineBefore, clamped, lineBefore]
  have start : (chars.take offset).length - (lineBefore chars offset).length = head.length := by
    rw [cut, List.length_append, Nat.add_sub_cancel]
  have rest : chars.drop head.length = lineBefore chars offset ++ chars.drop offset := by
    have whole := (List.take_append_drop offset chars).symm
    rw [cut, List.append_assoc] at whole
    exact (congrArg (List.drop head.length) whole).trans List.drop_left
  rw [stringAround?, same, ← List.length_take, start, rest, stringFrom_eq]
  rfl

/-- The content of a string is what stands of it before the cursor and behind. -/
theorem OpenString.slice {chars above : Text} (string : OpenString (chars.take offset) above front escaped)
    (index : Nat) :
    chars.slice (above.length + 1) ((chars.take offset).length + index) =
      front ++ (chars.drop offset).take index := by
  have size : (chars.take offset).length + index - (above.length + 1) = front.length + index := by
    rw [string.written, List.length_append, List.length_cons]
    omega
  have behind : chars.drop (above.length + 1) = front ++ chars.drop offset := by
    have whole := (List.take_append_drop offset chars).symm
    rw [string.written, List.append_assoc, List.cons_append] at whole
    exact (congrArg (List.drop (above.length + 1)) whole).trans (by simp)
  rw [Text.slice, size, behind, List.take_length_add_append]

/--
The string around the cursor is found, with the place of its quote, if no string quote before the cursor on
its line is in a character literal, and if no escape takes the string over the end of the line.
-/
theorem stringAround?_iff {chars : Text} {offset : Nat}
    (apart : ∀ index, (lineBefore chars offset)[index]? = some '"' →
      open? ((lineBefore chars offset).take index) ≠ some '\'')
    (kept : ¬SpillsOver chars offset) (content : Text) (opening : Nat) :
    stringAround? chars offset = some (content, opening) ↔ StringAround chars offset content opening := by
  obtain ⟨head, cut, outside, single⟩ := exists_append_lineBefore chars offset
  have kept' : ∀ escaped body below, opened (chars.take offset) = some ('"', escaped) →
      chars.drop offset = body ++ '\n' :: below → within? ('"', escaped) body ≠ some ('"', true) :=
    fun escaped body below opens later stays => kept (spillsOver_of_within? opens later stays)
  have found := stringAt_iff outside single apart (cut ▸ kept')
  rw [← cut] at found
  rw [stringAround?_eq cut, stringAround_iff, Option.map_eq_some_iff]
  simp only [found]
  constructor
  · rintro ⟨_, ⟨above, front, escaped, index, string, closes, rfl⟩, same⟩
    obtain ⟨rfl, rfl⟩ := Prod.mk.inj same
    exact ⟨above, front, escaped, index, string, closes, rfl, string.slice index⟩
  · rintro ⟨above, front, escaped, index, string, closes, rfl, rfl⟩
    exact ⟨_, ⟨above, front, escaped, index, string, closes, rfl⟩, by rw [string.slice index]⟩

/-- Escapes, a character literal and a string before the cursor, which stands behind an escape. -/
theorem stringAround?_iff_escaped :
    let chars := "x = '^'', \"a\" + \"b^\"'c\", d".toList
    stringAround? chars 19 = some ("b^\"'c".toList, 16) ∧ StringAround chars 19 "b^\"'c".toList 16 := by
  intro chars
  have apart : ∀ index < (lineBefore chars 19).length, (lineBefore chars 19)[index]? = some '"' →
      open? ((lineBefore chars 19).take index) ≠ some '\'' := by
    decide +kernel
  have lines : ∀ line < chars.length, chars[line]? ≠ some '\n' := by decide +kernel
  have kept : ¬SpillsOver chars 19 := by
    rintro ⟨line, -, found, -⟩
    exact lines line (List.getElem?_eq_some_iff.mp found).1 found
  have found : stringAround? chars 19 = some ("b^\"'c".toList, 16) := by decide +kernel
  refine ⟨found, (stringAround?_iff (fun index quote => ?_) kept _ _).mp found⟩
  exact apart index (List.getElem?_eq_some_iff.mp quote).1 quote

/-- An escape at the end of the line takes the reader over it, and a line break into the content. -/
theorem stringAround?_over_lines :
    ¬∀ (chars : Text) (offset : Nat) (content : Text) (opening : Nat),
      stringAround? chars offset = some (content, opening) ↔ StringAround chars offset content opening := by
  intro always
  have found : stringAround? "\"a^\nb\"".toList 1 = some ("a^\nb".toList, 0) := by decide +kernel
  exact ((always _ _ _ _).mp found).single (by decide)

/-- A string quote in a character literal begins a string for the reader. -/
example : stringAround? "x = '\"'; y = \"a\";".toList 8 = some ("'; y = ".toList, 5) := by decide +kernel

end PawnScope.Literal
