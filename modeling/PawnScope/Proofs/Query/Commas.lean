import PawnScope.Identifier.European
import PawnScope.Proofs.Cursor.Opened
import PawnScope.Proofs.Query.Positional
/-!
The place of an argument as the number of commas before it. The reader of arguments takes a list as if it
stood on one line (`Query.lastArgument_oneLine`); there it counts the commas that the mask shows outside of
literals and groups. So it counts what the mask shows wherever no literal is open at the end of a line of
the call: `Query.signature?_counted`.
-/

namespace PawnScope

open Parameter (Nesting)

/-! ## The commas of a list -/

namespace Call

/-- How many groups are open behind a character. What belongs to a literal opens and closes none. -/
def deepen (depth : Nat) (entry : Masked) : Nat :=
  if entry.2 then depth
  else if entry.1 = '(' ∨ entry.1 = '[' ∨ entry.1 = '{' then depth + 1
  else if entry.1 = ')' ∨ entry.1 = ']' ∨ entry.1 = '}' then depth - 1
  else depth

/-- How many groups are open behind a text. -/
def depth (between : List Masked) : Nat :=
  between.foldl deepen 0

/-- A comma that is outside of literals and of groups stands at `index`. -/
def SeparatesAt (between : List Masked) (index : Nat) : Prop :=
  between[index]? = some (',', false) ∧ depth (between.take index) = 0

instance (between : List Masked) (index : Nat) : Decidable (SeparatesAt between index) :=
  inferInstanceAs (Decidable (_ ∧ _))

/-- Where the commas stand that are outside of literals and of groups. -/
def separators (between : List Masked) : List Nat :=
  (List.range between.length).filter (SeparatesAt between)

/-- Where the last argument starts: behind the last comma. -/
def lastStart (between : List Masked) : Nat :=
  (separators between).getLast?.elim 0 (· + 1)

/-- The last argument. -/
def lastArgument (between : List Masked) : Text :=
  (between.map Prod.fst).drop (lastStart between)

variable {between : List Masked} {entry : Masked} {text : Text} {c : Char}

theorem depth_append_singleton (between : List Masked) (entry : Masked) :
    depth (between ++ [entry]) = deepen (depth between) entry :=
  List.foldl_append

/-- A further character adds a separator or none. -/
theorem separators_append_singleton (between : List Masked) (entry : Masked) :
    separators (between ++ [entry]) =
      separators between ++ if entry = (',', false) ∧ depth between = 0 then [between.length] else [] := by
  have before (index : Nat) (short : index < between.length) :
      SeparatesAt (between ++ [entry]) index ↔ SeparatesAt between index := by
    rw [SeparatesAt, SeparatesAt, List.getElem?_append_left short,
      List.take_append_of_le_length (Nat.le_of_lt short)]
  have last : SeparatesAt (between ++ [entry]) between.length ↔
      entry = (',', false) ∧ depth between = 0 := by
    simp [SeparatesAt]
  rw [separators, List.length_append, List.length_singleton, Text.filter_range_succ before, separators]
  simp only [last]

theorem lastStart_append_singleton (between : List Masked) (entry : Masked) :
    lastStart (between ++ [entry]) =
      if entry = (',', false) ∧ depth between = 0 then between.length + 1 else lastStart between := by
  rw [lastStart, separators_append_singleton]
  split
  · simp
  · rw [List.append_nil, lastStart]

theorem masked_append_singleton (text : Text) (c : Char) :
    masked (text ++ [c]) =
      masked text ++ [(c, c != '\n' && ((Literal.opened text).isSome || isQuote c))] := by
  rw [masked, Literal.mask_append, List.zip_append (Literal.length_mask text).symm,
    Literal.maskBehind_cons, Literal.maskBehind_nil]
  rfl

theorem length_masked (text : Text) : (masked text).length = text.length := by
  rw [masked, List.length_zip, Literal.length_mask, Nat.min_self]

theorem map_fst_masked (text : Text) : (masked text).map Prod.fst = text :=
  List.map_fst_zip (Nat.le_of_eq (Literal.length_mask text).symm)

/-- Where no literal is open the rest of a text is masked as if it stood by itself. -/
theorem drop_masked {front : Text} (outside : Literal.opened front = none) (rest : Text) :
    (masked (front ++ rest)).drop front.length = masked rest := by
  rw [masked, Literal.mask_append, outside, List.zip_append (Literal.length_mask front).symm,
    ← length_masked, ← masked, List.drop_left]
  rfl

end Call

/-! ## One step of the reader -/

namespace Parameter.Nesting

variable {depth : Nat} {opened : Option (Char × Bool)} {c : Char}

/-- Where a reader of a list stands with `depth` groups and a literal open. -/
def within (depth : Nat) (opened : Option (Char × Bool)) : Nesting :=
  ⟨depth, opened.map Prod.fst, opened.any Prod.snd⟩

theorem within_sane (quotes : ∀ state ∈ opened, isQuote state.1 = true) : (within depth opened).Sane where
  quotes := by
    cases opened with
    | none => nofun
    | some state => exact fun quote same => Option.some.inj same ▸ quotes state rfl
  escaped closed := by rw [within, Option.map_eq_none_iff.mp closed]; rfl

/-- The reader of a list and the mask take the same steps, but at the end of a line within a literal. -/
theorem step_within (line : c = '\n' → opened = none) :
    (within depth opened).step c =
      within (Call.deepen depth (c, c != '\n' && (opened.isSome || isQuote c))) (Literal.next opened c) := by
  cases opened with
  | none =>
    by_cases quotes : isQuote c = true
    · have inner : c ≠ '\n' := by
        rintro rfl
        contradiction
      simp [within, step, Call.deepen, Literal.next, quotes, inner]
    · simp only [within, step, Call.deepen, Literal.next, quotes]
      grind
  | some state =>
    obtain ⟨quote, escaped⟩ := state
    have inner : c ≠ '\n' := fun same => Option.some_ne_none _ (line same)
    cases escaped with
    | true => simp [within, step, Call.deepen, Literal.next, inner]
    | false =>
      simp only [within, step, Call.deepen, Literal.next, inner]
      grind

theorem separates_within :
    (within depth opened).separates c = true ↔
      ((c, c != '\n' && (opened.isSome || isQuote c)) : Call.Masked) = (',', false) ∧ depth = 0 := by
  have marks : isQuote ',' = false := rfl
  rw [separates, within, Bool.and_eq_true, Bool.and_eq_true, beq_iff_eq, beq_iff_eq, Prod.mk.injEq]
  constructor
  · rintro ⟨⟨rfl, closed⟩, top⟩
    exact ⟨⟨rfl, by simpa [marks] using closed⟩, top⟩
  · rintro ⟨⟨rfl, unmasked⟩, top⟩
    exact ⟨⟨rfl, by simpa [marks] using unmasked⟩, top⟩

end Parameter.Nesting

/-! ## The last argument -/

namespace Query

open Call (Masked masked separators lastStart)
open Parameter.Nesting (within)

variable {text rest : Text}

/-- Over a text with no literal open at the end of a line, the reader counts what the mask shows. -/
theorem lastArgumentFrom_append
    (closed : ∀ above, above ++ ['\n'] <+: text → Literal.opened above = none) (rest : Text) :
    let nesting := within (Call.depth (masked text)) (Literal.opened text)
    lastArgument (text ++ rest) = lastArgumentFrom
      ⟨(separators (masked text)).length, lastStart (masked text)⟩ text.length nesting.depth
        nesting.quote nesting.escaped rest := by
  induction text using List.reverseRecOn generalizing rest with
  | nil => rfl
  | append_singleton text c ih =>
    have closed' : ∀ above, above ++ ['\n'] <+: text → Literal.opened above = none :=
      fun above cut => closed above (cut.trans (List.prefix_append _ _))
    have line : c = '\n' → Literal.opened text = none := by
      rintro rfl
      exact closed text List.prefix_rfl
    have sane : (within (Call.depth (masked text)) (Literal.opened text)).Sane :=
      Parameter.Nesting.within_sane fun state found => Literal.isQuote_of_opened found
    rw [List.append_assoc, List.singleton_append, ih closed', Call.masked_append_singleton,
      Call.depth_append_singleton, Literal.opened_append_singleton,
      ← Parameter.Nesting.step_within line, Call.separators_append_singleton,
      Call.lastStart_append_singleton, List.length_append, List.length_append, List.length_singleton]
    cases separates : (within (Call.depth (masked text)) (Literal.opened text)).separates c with
    | true =>
      have comma := Parameter.Nesting.separates_within.mp separates
      rw [lastArgumentFrom_comma sane separates, Parameter.Nesting.step_of_separates separates,
        if_pos comma, if_pos comma, Call.length_masked]
      rfl
    | false =>
      have other := mt Parameter.Nesting.separates_within.mpr (Bool.eq_false_iff.mp separates)
      rw [lastArgumentFrom_step sane separates, if_neg other, if_neg other]
      rfl

/-- So it finds the last argument, and counts the commas before it. -/
theorem lastArgument_eq
    (closed : ∀ above, above ++ ['\n'] <+: text → Literal.opened above = none) :
    lastArgument text = ⟨(separators (masked text)).length, lastStart (masked text)⟩ := by
  have whole := lastArgumentFrom_append closed []
  rwa [List.append_nil] at whole

/-! ## Arguments on one line -/

/-- The text with blanks for its line breaks. -/
def oneLine (text : Text) : Text :=
  text.map fun c => if c = '\n' then ' ' else c

theorem not_mem_oneLine (text : Text) : '\n' ∉ oneLine text := by
  rw [oneLine, List.mem_map]
  rintro ⟨c, -, same⟩
  split at same
  · contradiction
  · contradiction

/-- To the reader of a list a line break is a blank like others. -/
theorem step_lineBreak {nesting : Nesting} (sane : nesting.Sane) : nesting.step ' ' = nesting.step '\n' := by
  obtain ⟨depth, quote, escaped⟩ := nesting
  cases quote with
  | none => rfl
  | some quote =>
    have quoted := sane.quotes quote rfl
    have blank : ' ' ≠ quote := by
      rintro rfl
      contradiction
    have line : '\n' ≠ quote := by
      rintro rfl
      contradiction
    simp [Nesting.step, isEscape, blank, line]

theorem lastArgumentFrom_oneLine {nesting : Nesting} (sane : nesting.Sane) (place : ArgumentPlace)
    (here : Nat) (text : Text) :
    lastArgumentFrom place here nesting.depth nesting.quote nesting.escaped (oneLine text) =
      lastArgumentFrom place here nesting.depth nesting.quote nesting.escaped text := by
  induction text generalizing place here nesting with
  | nil => rfl
  | cons c text ih =>
    obtain ⟨d, rfl, separates, step⟩ : ∃ d, (if c = '\n' then ' ' else c) = d ∧
        nesting.separates d = nesting.separates c ∧ nesting.step d = nesting.step c := by
      refine ⟨_, rfl, ?_⟩
      split
      case isTrue line => exact line ▸ ⟨rfl, step_lineBreak sane⟩
      case isFalse => exact ⟨rfl, rfl⟩
    rw [oneLine, List.map_cons, ← oneLine]
    cases comma : nesting.separates c with
    | true =>
      rw [lastArgumentFrom_comma sane (separates.trans comma), lastArgumentFrom_comma sane comma, ih sane]
    | false =>
      rw [lastArgumentFrom_step sane (separates.trans comma), lastArgumentFrom_step sane comma, step,
        ih (Parameter.Nesting.sane_step sane c)]

/-- The reader of arguments does not know lines. -/
theorem lastArgument_oneLine (text : Text) : lastArgument (oneLine text) = lastArgument text :=
  lastArgumentFrom_oneLine Nesting.sane_top ⟨0, 0⟩ 0 text

/-- No name goes on over a line. -/
theorem argumentName?_oneLine [Alphabets] (argument : Text) :
    argumentName? (oneLine argument) = argumentName? argument := by
  have blank (c : Char) : isBlank (if c = '\n' then ' ' else c) = isBlank c := by
    split
    case isTrue line => exact line ▸ rfl
    case isFalse => rfl
  have part (c : Char) : Identifier.isPart (if c = '\n' then ' ' else c) = Identifier.isPart c := by
    split
    case isTrue line => exact line ▸ rfl
    case isFalse => rfl
  have start : Text.trimStart (oneLine argument) = oneLine (Text.trimStart argument) := by
    rw [Text.trimStart, oneLine, List.dropWhile_map]
    exact congrArg (fun p => (argument.dropWhile p).map _) (funext blank)
  have name (rest : Text) :
      (oneLine rest).takeWhile Identifier.isPart = rest.takeWhile Identifier.isPart := by
    rw [oneLine, List.takeWhile_map, Function.comp_def, funext part]
    refine (List.map_congr_left fun c member => if_neg ?_).trans (List.map_id _)
    rintro rfl
    exact Bool.noConfusion (List.mem_takeWhile_imp member)
  rw [argumentName?, argumentName?, start]
  cases Text.trimStart argument with
  | nil => rfl
  | cons c rest =>
    rw [oneLine, List.map_cons, ← oneLine]
    by_cases dot : c = '.'
    · subst dot
      exact congrArg (fun name : Text => if name.isEmpty then none else some name) (name rest)
    · have other : (if c = '\n' then ' ' else c) ≠ '.' := by
        split
        case isTrue => decide
        case isFalse => exact dot
      simp [dot, other]

/-! ## The signature -/

variable {scope : Scope} {cursor : Cursor} {signature : Signature} {call : Call}

/-- A signature is that of the call, at the parameter of the last argument. -/
theorem active_of_signature? [Alphabets] (found : signature? scope cursor = some signature)
    (around : Call.around? cursor.chars cursor.offset = some call) :
    signature.active = activeParameter signature.parameters
      ((cursor.chars.take cursor.offset).drop (call.openParen + 1)) := by
  simp only [signature?, around] at found
  split at found
  · contradiction
  split at found
  · contradiction
  split at found
  · contradiction
  · rw [← Option.some.inj found, Text.slice, ← List.drop_take]

theorem activeParameter_oneLine [Alphabets] (parameters : List Text) (arguments : Text) :
    activeParameter parameters (oneLine arguments) = activeParameter parameters arguments := by
  have last (start : Nat) : (oneLine arguments).drop start = oneLine (arguments.drop start) :=
    List.map_drop.symm
  rw [activeParameter, activeParameter, lastArgument_oneLine, last, argumentName?_oneLine]

/-- An argument without a name is for the parameter at its place. -/
theorem activeParameter_of_closed [Alphabets] {arguments : Text} (parameters : List Text)
    (closed : ∀ above, above ++ ['\n'] <+: arguments → Literal.opened above = none)
    (positional : argumentName? (Call.lastArgument (masked arguments)) = none) :
    activeParameter parameters arguments = (separators (masked arguments)).length := by
  rw [Call.lastArgument, Call.map_fst_masked] at positional
  rw [activeParameter, lastArgument_eq closed, positional]
  rfl

/-- Behind the parenthesis of a call no literal is open. -/
theorem opened_of_around? [Alphabets] {chars : Text} {offset : Nat}
    (around : Call.around? chars offset = some call) :
    call.openParen < (chars.take offset).length ∧
      Literal.opened ((chars.take offset).take (call.openParen + 1)) = none := by
  rw [Call.around?, Option.map_eq_some_iff] at around
  obtain ⟨openParen, found, rfl⟩ := around
  have opens := (Call.lastOpen?_reverse_iff.mp found).opens
  obtain ⟨written, unmasked⟩ := List.getElem?_zip_eq_some.mp opens
  exact ⟨(List.getElem?_eq_some_iff.mp written).1, Literal.opened_of_unmasked unmasked⟩

/--
The parameter of an argument without a name. Its place is the number of commas outside of literals and
groups with the arguments read as one line; where no literal is open at the end of a line of the call, it
is the number of those that the mask of the text before the cursor shows.
-/
theorem signature?_counted [Alphabets] (found : signature? scope cursor = some signature)
    (around : Call.around? cursor.chars cursor.offset = some call) :
    let before := cursor.chars.take cursor.offset
    let between := (masked before).drop (call.openParen + 1)
    let joined := masked (oneLine (before.drop (call.openParen + 1)))
    (argumentName? (Call.lastArgument joined) = none → signature.active = (separators joined).length) ∧
      ((∀ index, call.openParen < index → before[index]? = some '\n' →
          Literal.open? (before.take index) = none) →
        argumentName? (Call.lastArgument between) = none →
          signature.active = (separators between).length) := by
  intro before between joined
  have active := active_of_signature? found around
  obtain ⟨short, outside⟩ := opened_of_around? around
  constructor
  · intro positional
    rw [active, ← activeParameter_oneLine]
    refine activeParameter_of_closed _ (fun above cut => ?_) positional
    exact absurd (cut.subset (by simp)) (not_mem_oneLine _)
  · intro closed positional
    have size : (before.take (call.openParen + 1)).length = call.openParen + 1 := by
      rw [List.length_take, Nat.min_eq_left short]
    have alone : between = masked (before.drop (call.openParen + 1)) := by
      have cut := Call.drop_masked outside (before.drop (call.openParen + 1))
      rwa [List.take_append_drop, size] at cut
    rw [alone] at positional ⊢
    rw [active]
    refine activeParameter_of_closed _ (Literal.opened_of_lines outside fun index behind => ?_) positional
    rw [List.take_append_drop]
    exact closed index (size.symm.trans_le behind)

open scoped Identifier.European

/-- Brackets and commas in literals and in groups, over lines; a literal is open at the cursor only. -/
theorem signature?_counted_lines :
    let cursor : Cursor := ⟨⟨"m.sma".toList⟩,
      .ofText "fn(']', [1,\n(2, 3)],\n\"a,^\",\", g\x7b,\x7d] , 'x, ".toList, ⟨2, 19⟩⟩
    let callable : Callable := ⟨"Fn".toList, "native Fn(...)".toList, false, ⟨"m.inc".toList⟩,
      .onLine 1 7 2, ["...".toList], none, true, false⟩
    ∃ signature, signature? ⟨[callable], [], []⟩ cursor = some signature ∧
      Call.around? cursor.chars cursor.offset = some ⟨"fn".toList, 2⟩ ∧
      argumentName? (Call.lastArgument ((masked (cursor.chars.take cursor.offset)).drop 3)) = none ∧
      separators ((masked (cursor.chars.take cursor.offset)).drop 3) = [3, 16, 25, 33] ∧
      signature.active = 4 := by
  intro cursor callable
  have found : (signature? ⟨[callable], [], []⟩ cursor).isSome = true := by decide +kernel
  obtain ⟨signature, found⟩ := Option.isSome_iff_exists.mp found
  have around : Call.around? cursor.chars cursor.offset = some ⟨"fn".toList, 2⟩ := by decide +kernel
  have positional :
      argumentName? (Call.lastArgument ((masked (cursor.chars.take cursor.offset)).drop 3)) = none := by
    decide +kernel
  have commas : separators ((masked (cursor.chars.take cursor.offset)).drop 3) = [3, 16, 25, 33] := by
    decide +kernel
  have lines : ∀ index < (cursor.chars.take cursor.offset).length,
      (cursor.chars.take cursor.offset)[index]? = some '\n' →
        Literal.open? ((cursor.chars.take cursor.offset).take index) = none := by
    decide +kernel
  have active := (signature?_counted found around).2
    (fun index _ line => lines index (List.getElem?_eq_some_iff.mp line).1 line) positional
  exact ⟨signature, found, around, positional, commas, active.trans (congrArg List.length commas)⟩

/-- An apostrophe in a comment opens a literal for the mask up to the end of the line, and for good here. -/
theorem signature?_not_counted :
    ¬∀ (scope : Scope) (cursor : Cursor) (signature : Signature) (call : Call),
      signature? scope cursor = some signature →
      Call.around? cursor.chars cursor.offset = some call →
      let between := (masked (cursor.chars.take cursor.offset)).drop (call.openParen + 1)
      argumentName? (Call.lastArgument between) = none →
        signature.active = (separators between).length := by
  intro always
  let cursor : Cursor := ⟨⟨"m.sma".toList⟩, .ofText "fn(1, // don't\n2, ".toList, ⟨1, 3⟩⟩
  let callable : Callable := ⟨"fn".toList, "native fn(...)".toList, false, ⟨"m.inc".toList⟩,
    .onLine 1 7 2, ["...".toList], none, true, false⟩
  have found : signature? ⟨[callable], [], []⟩ cursor =
      some ⟨"native fn(...)".toList, ["...".toList], none, 1⟩ := by decide +kernel
  have around : Call.around? cursor.chars cursor.offset = some ⟨"fn".toList, 2⟩ := by decide +kernel
  have counted := always _ _ _ _ found around (by decide +kernel)
  exact absurd counted (by decide +kernel)

end Query

end PawnScope
