import PawnScope.Identifier.European
import PawnScope.Proofs.Cursor.Decision
import PawnScope.Proofs.Declaration.Enclosed
import PawnScope.Query.Signature
/-!
The place of an argument in its call. The reader of arguments counts as many as the list has pieces
(`Query.lastArgument_of_pieces`), and whatever stands before a call, an argument that names no parameter is
for the one at its own place: `Query.signature?_positional`.
-/

namespace PawnScope

open Parameter (Nesting pieces)

/-- The last piece stands at the end. -/
theorem Text.suffix_join (separator last : Text) (pieces : List Text) :
    last <:+ Text.join separator (pieces ++ [last]) := by
  induction pieces with
  | nil => exact List.suffix_refl last
  | cons piece pieces ih =>
    rw [List.cons_append, Text.join_cons _ _ (by simp), ← List.append_assoc]
    exact ih.trans (List.suffix_append _ _)

/-! ## The last argument -/

namespace Query

variable {nesting : Nesting} {place : ArgumentPlace} {here : Nat} {c : Char} {text rest last : Text}
  {first : Text} {arguments more : List Text}

/-- A comma between arguments is one between parameters. -/
theorem lastArgumentFrom_comma (sane : nesting.Sane) (separates : nesting.separates c = true) :
    lastArgumentFrom place here nesting.depth nesting.quote nesting.escaped (c :: rest) =
      lastArgumentFrom ⟨place.index + 1, here + 1⟩ (here + 1) nesting.depth nesting.quote
        nesting.escaped rest := by
  obtain ⟨depth, quote, escaped⟩ := nesting
  simp only [Nesting.separates, Bool.and_eq_true, beq_iff_eq, Option.isNone_iff_eq_none] at separates
  obtain ⟨⟨rfl, rfl⟩, rfl⟩ := separates
  obtain rfl : escaped = false := sane.escaped rfl
  simp [lastArgumentFrom, isQuote]

/-- Over all else both readers take the same steps. -/
theorem lastArgumentFrom_step (sane : nesting.Sane) (inside : nesting.separates c = false) :
    lastArgumentFrom place here nesting.depth nesting.quote nesting.escaped (c :: rest) =
      lastArgumentFrom place (here + 1) (nesting.step c).depth (nesting.step c).quote
        (nesting.step c).escaped rest := by
  obtain ⟨depth, quote, escaped⟩ := nesting
  cases quote with
  | none =>
    obtain rfl : escaped = false := sane.escaped rfl
    have other : ¬(c = ',' ∧ depth = 0) := by
      rintro ⟨rfl, rfl⟩
      contradiction
    simp only [lastArgumentFrom, Nesting.step]
    split
    · rfl
    split
    · rfl
    split
    · rfl
    rfl
  | some quote =>
    simp only [lastArgumentFrom, Nesting.step]
    split
    · rfl
    split
    · rfl
    split <;> simp_all

/-- The reader of arguments counts the commas between pieces, and stops behind the last of them. -/
theorem lastArgumentFrom_of_pieces (sane : nesting.Sane) (cut : pieces nesting text = first :: more) :
    lastArgumentFrom place here nesting.depth nesting.quote nesting.escaped text =
      match more.getLast? with
      | none => place
      | some last => ⟨place.index + more.length, here + (text.length - last.length)⟩ := by
  -- No piece is longer than its list.
  have short {nesting : Nesting} {text first last : Text} {more : List Text}
      (cut : pieces nesting text = first :: more) (member : more.getLast? = some last) :
      last.length ≤ text.length := by
    obtain ⟨before, rfl⟩ := List.getLast?_eq_some_iff.mp member
    rw [← Parameter.join_pieces nesting text, cut, ← List.cons_append]
    exact (Text.suffix_join [','] last (first :: before)).length_le
  induction text generalizing nesting place here first more with
  | nil =>
    obtain ⟨rfl, rfl⟩ := List.cons.inj cut
    simp [lastArgumentFrom]
  | cons c text ih =>
    cases inside : nesting.separates c with
    | true =>
      obtain ⟨-, cut'⟩ := Parameter.pieces_comma inside text
      obtain ⟨piece, more', below⟩ := Parameter.exists_pieces nesting text
      obtain ⟨-, rfl⟩ := List.cons.inj (cut'.symm.trans cut)
      rw [lastArgumentFrom_comma sane inside, ih sane below, below, List.getLast?_cons]
      cases found : more'.getLast? with
      | none =>
        obtain rfl := List.getLast?_eq_none_iff.mp found
        have whole := Parameter.join_pieces nesting text
        rw [below] at whole
        rw [← whole]
        simp [Text.join]
      | some last =>
        have fits := short below found
        simp only [List.length_cons, ArgumentPlace.mk.injEq, Option.getD_some]
        omega
    | false =>
      obtain ⟨piece, more', below⟩ := Parameter.exists_pieces (nesting.step c) text
      obtain ⟨-, rfl⟩ := List.cons.inj ((Parameter.pieces_cons inside rfl below).symm.trans cut)
      rw [lastArgumentFrom_step sane inside, ih (Nesting.sane_step sane c) below]
      cases found : more'.getLast? with
      | none => rfl
      | some last =>
        have fits := short below found
        simp only [List.length_cons, ArgumentPlace.mk.injEq, true_and]
        omega

/-- The last argument of a list ends with the list. -/
theorem lastArgument_place (cut : pieces .top text = arguments ++ [last]) :
    lastArgument text = ⟨arguments.length, text.length - last.length⟩ := by
  cases arguments with
  | nil =>
    have whole := Parameter.join_pieces .top text
    rw [cut] at whole
    obtain rfl : last = text := whole
    exact (lastArgumentFrom_of_pieces Nesting.sane_top cut).trans (by simp)
  | cons first more => exact (lastArgumentFrom_of_pieces Nesting.sane_top cut).trans (by simp)

/-- It is the last piece. -/
theorem lastArgument_of_pieces (cut : pieces .top text = arguments ++ [last]) :
    (lastArgument text).index = arguments.length ∧ text.drop (lastArgument text).start = last := by
  have ending : last <:+ text := by
    rw [← Parameter.join_pieces .top text, cut]
    exact Text.suffix_join [','] last arguments
  rw [lastArgument_place cut]
  exact ⟨rfl, (List.suffix_iff_eq_drop.mp ending).symm⟩

end Query

/-! ## The call -/

variable {chars front name above blanks list marks : Text} {offset : Nat}

/-- A name that is as long as it can be, with blanks behind it. -/
theorem Text.endsInName_of_run [Alphabets] (filled : name ≠ [])
    (parts : ∀ c ∈ name, Identifier.isPart c = true)
    (stop : ∀ c ∈ above.getLast?, Identifier.isPart c = false)
    (blank : ∀ c ∈ blanks, isBlank c = true) : EndsInName (above ++ (name ++ blanks)) name := by
  refine ⟨above, blanks, rfl, blank, fun c last => ?_, parts, stop⟩
  rw [List.getLast?_append_of_ne_nil _ filled] at last
  exact Identifier.isBlank_of_isPart (parts c (List.mem_of_getLast? last))

namespace Call

/-- The call around the cursor is the one whose arguments the cursor is behind. -/
theorem around?_of_nested [Alphabets] (before : chars.take offset = front ++ '(' :: list)
    (outside : (Literal.mask (chars.take offset))[front.length]? = some false)
    (named : Text.EndsInName front name) (nested : Nested marks list) (unended : ';' ∉ marks) :
    around? chars offset = some ⟨name, front.length⟩ := by
  rw [before] at outside
  obtain ⟨above, size, cut⟩ := masked_of_outside outside
  have found : lastOpen? 0 (masked (front ++ '(' :: list)).reverse = some front.length := by
    rw [cut, List.reverse_append, List.reverse_cons, List.append_assoc, List.singleton_append,
      nested.lastOpen?_append unended, ← size, ← List.length_reverse]
    rfl
  have short : chars.take front.length = front := by
    have room : front.length ≤ offset := by
      have size := congrArg List.length before
      rw [List.length_take, List.length_append] at size
      omega
    rw [← Nat.min_eq_left room, ← List.take_take, before, List.take_left]
  rw [around?, before, ← masked, found, Option.map_some, short, Text.endsInName_iff.mp named]

end Call

namespace Query

variable {scope : Scope} {cursor : Cursor} {callable : Callable} {last : Text} {arguments : List Text}

/-- The signature of a call is that of its name, at the parameter of its last argument. -/
theorem signature?_of_nested [Alphabets]
    (before : cursor.chars.take cursor.offset = front ++ '(' :: Text.join [','] (arguments ++ [last]))
    (outside : (Literal.mask (cursor.chars.take cursor.offset))[front.length]? = some false)
    (named : Text.EndsInName front name) (filled : name ≠ [])
    (found : scope.callable? name = some callable)
    (elsewhere : callable.file = cursor.file → callable.span.start.line ≠ cursor.position.line)
    (nested : ∀ argument ∈ arguments ++ [last], Nested [] argument) :
    signature? scope cursor = some ⟨callable.label, callable.parameters, callable.documentation,
      ((argumentName? last).bind (parameterNamed? callable.parameters)).getD arguments.length⟩ := by
  have list := Nested.pieces_join nested (by simp) (by simp)
  obtain ⟨index, drop⟩ := lastArgument_of_pieces list
  have around := Call.around?_of_nested before outside named (Nested.join nested) (by simp)
  have slice : cursor.chars.slice (front.length + 1) cursor.offset =
      Text.join [','] (arguments ++ [last]) := by
    rw [Text.slice, ← List.drop_take, before, List.drop_length_add_append]
    rfl
  have off : onDeclaration cursor callable.file callable.span = false := by
    rw [onDeclaration, Bool.and_eq_false_imp]
    exact fun same => beq_eq_false_iff_ne.mpr (elsewhere (beq_iff_eq.mp same))
  have solid : name.isEmpty = false := by simpa using filled
  simp only [signature?, around, solid, found, off, slice, activeParameter, index, drop,
    Bool.false_eq_true, if_false]

/-- An argument that names no parameter is for the one at its place, whatever stands before the call. -/
theorem signature?_positional [Alphabets]
    (before : cursor.chars.take cursor.offset = front ++ '(' :: Text.join [','] (arguments ++ [last]))
    (outside : (Literal.mask (cursor.chars.take cursor.offset))[front.length]? = some false)
    (named : Text.EndsInName front name) (filled : name ≠ [])
    (found : scope.callable? name = some callable)
    (elsewhere : callable.file = cursor.file → callable.span.start.line ≠ cursor.position.line)
    (nested : ∀ argument ∈ arguments ++ [last], Nested [] argument)
    (positional : ∀ c rest, Text.trimStart last = '.' :: c :: rest → Identifier.isPart c = false) :
    signature? scope cursor = some ⟨callable.label, callable.parameters, callable.documentation,
      arguments.length⟩ := by
  have unnamed : argumentName? last = none := by
    rw [argumentName?]
    split
    next rest start =>
      cases rest with
      | nil => rfl
      | cons c rest => simp [positional c rest start]
    next => rfl
  rw [signature?_of_nested before outside named filled found elsewhere nested, unnamed]
  rfl

open scoped Identifier.European

/-- The second call that is open, with a call, a literal and a line break before its third argument. -/
theorem signature?_positional_inner :
    let cursor : Cursor := ⟨⟨"m.sma".toList⟩,
      .ofText "x = top(1, \"(;\", fn ( at(1, [2]),\n \"a,b)^\"\", y );".toList, ⟨1, 13⟩⟩
    let callable : Callable := ⟨"Fn".toList, "native Fn(...)".toList, false, ⟨"m.inc".toList⟩,
      .onLine 1 7 2, ["...".toList], none, true, false⟩
    cursor.chars.take cursor.offset = "x = top(1, \"(;\", fn ".toList ++
        '(' :: Text.join [','] ([" at(1, [2])", "\n \"a,b)^\"\""].map String.toList ++ [" y ".toList]) ∧
      signature? ⟨[callable], [], []⟩ cursor =
        some ⟨"native Fn(...)".toList, ["...".toList], none, 2⟩ := by
  intro cursor callable
  have before : cursor.chars.take cursor.offset = "x = top(1, \"(;\", fn ".toList ++
      '(' :: Text.join [','] ([" at(1, [2])", "\n \"a,b)^\"\""].map String.toList ++
        [" y ".toList]) := by decide +kernel
  have named : Text.EndsInName "x = top(1, \"(;\", fn ".toList "fn".toList :=
    Text.endsInName_iff.mpr (by decide +kernel)
  have found : Scope.callable? ⟨[callable], [], []⟩ "fn".toList = some callable := rfl
  have nested : ∀ argument ∈ [" at(1, [2])", "\n \"a,b)^\"\""].map String.toList ++ [" y ".toList],
      Nested [] argument := by decide +kernel
  have positional : ∀ c rest, Text.trimStart " y ".toList = '.' :: c :: rest →
      Identifier.isPart c = false := by
    intro c rest start
    exact absurd (List.cons.inj start).1 (by decide)
  exact ⟨before, signature?_positional before (by decide +kernel) named (by decide) found (by decide)
    nested positional⟩

end Query

end PawnScope
