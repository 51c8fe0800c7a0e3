import PawnScope.Proofs.Cursor.Nested
/-!
Whether a text is nested can be read off it, with a stack of the groups that are open: `Nested.reads_iff`.
-/

namespace PawnScope.Nested

open Token (isStructural LiteralBody)

/-- The marks that may stand in a text where the groups `closers` are open. -/
def allowed (marks : Text) : Text → Text
  | [] => marks
  | _ :: _ => ',' :: marks

/-- Whether `c` may stand outside of literals where no group begins or ends with it. -/
def admits (marks closers : Text) (c : Char) : Bool :=
  !isStructural c || (c == ',' || c == ';') && (allowed marks closers).contains c

/--
Whether a text is nested, read on where the groups `closers` are open, each given by the bracket that closes
it, the innermost first. The literal `quote` is open, and `escaped` says that the next character is escaped.
-/
def reads (marks closers : Text) (quote : Option Char) (escaped : Bool) : Text → Bool
  | [] => closers.isEmpty && quote.isNone
  | c :: rest =>
    match quote with
    | some opener =>
      c != '\n' &&
        if escaped then reads marks closers quote false rest
        else if isEscape c then reads marks closers quote true rest
        else reads marks closers (if c = opener then none else quote) false rest
    | none =>
      if isQuote c then reads marks closers (some c) false rest
      else if closers.head? = some c then reads marks closers.tail none false rest
      else
        match brackets.lookup c with
        | some closer => reads marks (closer :: closers) none false rest
        | none => admits marks closers c && reads marks closers none false rest

/-- What is left of a text where the groups `closers` are open. -/
def Fits (marks : Text) : Text → Text → Prop
  | [], text => Nested marks text
  | closer :: closers, text => ∃ inner more, text = inner ++ closer :: more ∧
      Nested (',' :: marks) inner ∧ Fits marks closers more

/-- What is left of a text where a literal may be open. -/
inductive Left (marks closers : Text) : Option Char → Bool → Text → Prop where
  | code {text : Text} (fits : Fits marks closers text) : Left marks closers none false text
  | literal {quote : Char} {body rest : Text} (inside : LiteralBody quote body) (single : '\n' ∉ body)
      (fits : Fits marks closers rest) : Left marks closers (some quote) false (body ++ quote :: rest)
  | escaped {quote c : Char} {body rest : Text} (inner : c ≠ '\n') (inside : LiteralBody quote body)
      (single : '\n' ∉ body) (fits : Fits marks closers rest) :
      Left marks closers (some quote) true (c :: (body ++ quote :: rest))

variable {marks closers text more front rest : Text} {quote : Option Char} {escaped : Bool}

theorem Fits.prepend (nested : Nested (allowed marks closers) front) (fits : Fits marks closers rest) :
    Fits marks closers (front ++ rest) := by
  cases closers with
  | nil => exact nested.append fits
  | cons closer closers =>
    obtain ⟨inner, more, rfl, inside, behind⟩ := fits
    exact ⟨front ++ inner, more, by rw [List.append_assoc], nested.append inside, behind⟩

theorem nested_of_admits {c : Char} (admitted : admits marks closers c = true) :
    Nested (allowed marks closers) [c] := by
  simp only [admits, Bool.or_eq_true, Bool.not_eq_true', Bool.and_eq_true, beq_iff_eq,
    List.contains_iff_mem] at admitted
  rcases admitted with plain | ⟨separator, allowed⟩
  · exact .plain (List.forall_mem_singleton.mpr plain)
  · exact .mark (List.forall_mem_nil _) separator allowed .nil

/-! What may stand before what is left, one character at a time. -/

namespace Left

variable {c opener : Char}

theorem cons_escaped (inner : c ≠ '\n') (left : Left marks closers (some opener) false rest) :
    Left marks closers (some opener) true (c :: rest) := by
  cases left with
  | literal inside single fits => exact .escaped inner inside single fits

theorem cons_escape (inner : c ≠ '\n') (escapes : isEscape c = true)
    (left : Left marks closers (some opener) true rest) :
    Left marks closers (some opener) false (c :: rest) := by
  cases left with
  | @escaped _ d body rest inner' inside single fits =>
    have single' : '\n' ∉ c :: d :: body := by simp [single, Ne.symm inner, Ne.symm inner']
    exact .literal (.escaped escapes inner' inside) single' fits

theorem cons_inner (inner : c ≠ '\n') (other : c ≠ opener) (plain : isEscape c = false)
    (left : Left marks closers (some opener) false rest) :
    Left marks closers (some opener) false (c :: rest) := by
  cases left with
  | @literal _ body rest inside single fits =>
    have single' : '\n' ∉ c :: body := by simp [single, Ne.symm inner]
    exact .literal (.plain other plain inside) single' fits

theorem cons_end (left : Left marks closers none false rest) :
    Left marks closers (some c) false (c :: rest) := by
  cases left with
  | code fits => exact .literal .nil List.not_mem_nil fits

theorem cons_quote (quotes : isQuote c = true) (left : Left marks closers (some c) false rest) :
    Left marks closers none false (c :: rest) := by
  cases left with
  | @literal _ body rest inside single fits =>
    have whole : Nested (allowed marks closers) ([] ++ c :: (body ++ c :: [])) :=
      .literal (List.forall_mem_nil _) quotes inside single .nil
    have fits' := fits.prepend whole
    refine .code ?_
    simpa using fits'

theorem cons_closer (left : Left marks closers none false rest) :
    Left marks (c :: closers) none false (c :: rest) := by
  cases left with
  | code fits => exact .code ⟨[], rest, rfl, .nil, fits⟩

theorem cons_opener {closer : Char} (opens : brackets.lookup c = some closer)
    (left : Left marks (closer :: closers) none false rest) : Left marks closers none false (c :: rest) := by
  cases left with
  | code fits =>
    obtain ⟨inner, more, rfl, inside, fits⟩ := fits
    have pair : (c, closer) ∈ brackets := by
      obtain ⟨front, rear, whole, -⟩ := List.lookup_eq_some_iff.mp opens
      simp [whole]
    have wider : ',' :: marks ⊆ ',' :: allowed marks closers := by cases closers <;> simp [allowed]
    have group : Nested (allowed marks closers) ([] ++ c :: (inner ++ closer :: [])) :=
      .group (List.forall_mem_nil _) pair (inside.mono wider) .nil
    have fits' := fits.prepend group
    refine .code ?_
    simpa using fits'

theorem cons_admitted (admitted : admits marks closers c = true) (left : Left marks closers none false rest) :
    Left marks closers none false (c :: rest) := by
  cases left with
  | code fits => exact .code (fits.prepend (nested_of_admits admitted))

end Left

theorem left_of_reads (quotes : ∀ opener ∈ quote, isQuote opener = true)
    (unescaped : quote = none → escaped = false) (read : reads marks closers quote escaped text = true) :
    Left marks closers quote escaped text := by
  induction text generalizing closers quote escaped with
  | nil =>
    simp only [reads, Bool.and_eq_true, List.isEmpty_iff, Option.isNone_iff_eq_none] at read
    obtain ⟨rfl, rfl⟩ := read
    obtain rfl := unescaped rfl
    exact .code .nil
  | cons c text ih =>
    cases quote with
    | some opener =>
      simp only [reads, Bool.and_eq_true, bne_iff_ne, ne_eq] at read
      obtain ⟨inner, read⟩ := read
      cases escaped with
      | true =>
        rw [if_pos rfl] at read
        exact .cons_escaped inner (ih quotes nofun read)
      | false =>
        rw [if_neg Bool.false_ne_true] at read
        cases escapes : isEscape c with
        | true =>
          rw [escapes, if_pos rfl] at read
          exact .cons_escape inner escapes (ih quotes nofun read)
        | false =>
          rw [escapes, if_neg Bool.false_ne_true] at read
          by_cases same : c = opener
          · subst same
            rw [if_pos rfl] at read
            exact .cons_end (ih nofun (fun _ => rfl) read)
          · rw [if_neg same] at read
            exact .cons_inner inner same escapes (ih quotes nofun read)
    | none =>
      obtain rfl := unescaped rfl
      simp only [reads] at read
      by_cases quoted : isQuote c = true
      · rw [if_pos quoted] at read
        exact .cons_quote quoted (ih (fun _ same => Option.some.inj same ▸ quoted) nofun read)
      rw [if_neg quoted] at read
      by_cases closing : closers.head? = some c
      · rw [if_pos closing] at read
        obtain ⟨closers, rfl⟩ := List.head?_eq_some_iff.mp closing
        exact .cons_closer (ih nofun (fun _ => rfl) read)
      rw [if_neg closing] at read
      cases opens : brackets.lookup c with
      | some closer =>
        rw [opens] at read
        exact .cons_opener opens (ih nofun (fun _ => rfl) read)
      | none =>
        rw [opens, Bool.and_eq_true] at read
        exact .cons_admitted read.1 (ih nofun (fun _ => rfl) read.2)

/-- Groups that are open are closed by brackets. -/
def Closing (closers : Text) : Prop :=
  ∀ closer ∈ closers, closer = ')' ∨ closer = ']' ∨ closer = '}'

theorem reads_admitted {c : Char} (closing : Closing closers) (unquoted : isQuote c = false)
    (other : c ∉ brackets.flatMap fun pair => [pair.1, pair.2])
    (admitted : admits marks closers c = true) (rest : Text) :
    reads marks closers none false (c :: rest) = reads marks closers none false rest := by
  have apart : closers.head? ≠ some c := by
    intro first
    rcases closing c (List.mem_of_head? first) with rfl | rfl | rfl <;> simp [brackets] at other
  have opens : brackets.lookup c = none := by
    rw [List.lookup_eq_none_iff]
    intro pair member
    refine bne_iff_ne.mpr ?_
    rintro rfl
    exact other (List.mem_flatMap.mpr ⟨pair, member, List.mem_cons_self⟩)
  simp only [reads, unquoted, Bool.false_eq_true, if_false, if_neg apart, opens, admitted,
    Bool.true_and]

theorem reads_plain (closing : Closing closers) (plain : ∀ c ∈ front, isStructural c = false)
    (rest : Text) :
    reads marks closers none false (front ++ rest) = reads marks closers none false rest := by
  induction front with
  | nil => rfl
  | cons c front ih =>
    obtain ⟨here, below⟩ := List.forall_mem_cons.mp plain
    have other : c ∉ brackets.flatMap fun pair => [pair.1, pair.2] := by
      have structural : (brackets.flatMap fun pair => [pair.1, pair.2]).all isStructural = true := by decide
      intro member
      rw [List.all_eq_true.mp structural c member] at here
      contradiction
    rw [List.cons_append, reads_admitted closing (Token.isQuote_of_isStructural here) other
      (by simp [admits, here]), ih below]

theorem reads_literal {opener : Char} {body : Text} (quotes : isQuote opener = true)
    (inside : LiteralBody opener body) (single : '\n' ∉ body) (rest : Text) :
    reads marks closers none false (opener :: (body ++ opener :: rest)) =
      reads marks closers none false rest := by
  have free := Token.isEscape_of_isQuote quotes
  have line : opener ≠ '\n' := by
    rintro rfl
    contradiction
  have within : reads marks closers (some opener) false (body ++ opener :: rest) =
      reads marks closers none false rest := by
    induction inside with
    | nil => simp [reads, line, free]
    | @plain c body other plain _ ih =>
      obtain ⟨here, below⟩ := not_or.mp (List.mem_cons.not.mp single)
      rw [List.cons_append, reads, ← ih below]
      simp [Ne.symm here, plain, other]
    | @escaped c d body escapes inner _ ih =>
      obtain ⟨here, below⟩ := not_or.mp (List.mem_cons.not.mp single)
      obtain ⟨-, below⟩ := not_or.mp (List.mem_cons.not.mp below)
      have first : (c != '\n') = true := bne_iff_ne.mpr (Ne.symm here)
      have second : (d != '\n') = true := bne_iff_ne.mpr inner
      rw [List.cons_append, List.cons_append, reads, ← ih below]
      simp [first, second, escapes, reads]
  rw [← within, reads]
  simp [quotes]

theorem reads_append (nested : Nested more front) (closing : Closing closers)
    (inside : more ⊆ allowed marks closers) (rest : Text) :
    reads marks closers none false (front ++ rest) = reads marks closers none false rest := by
  induction nested generalizing closers rest with
  | plain plain => exact reads_plain closing plain rest
  | @mark more front rear mark plain separator among _ ih =>
    have other : mark ∉ brackets.flatMap fun pair => [pair.1, pair.2] := by
      rcases separator with rfl | rfl <;> decide
    have unquoted : isQuote mark = false := by rcases separator with rfl | rfl <;> rfl
    have admitted : admits marks closers mark = true := by
      simp [admits, inside among, separator]
    rw [List.append_assoc, reads_plain closing plain, List.cons_append,
      reads_admitted closing unquoted other admitted, ih closing inside]
  | @group more front inner rear opener closer plain pair _ _ ihInside ih =>
    obtain ⟨unquoted, -⟩ := isQuote_of_bracket pair
    have apart : closers.head? ≠ some opener := by
      intro first
      rcases closing opener (List.mem_of_head? first) with rfl | rfl | rfl <;> simp [brackets] at pair
    have opens : brackets.lookup opener = some closer := by
      obtain ⟨rfl, rfl⟩ | ⟨rfl, rfl⟩ | ⟨rfl, rfl⟩ := mem_brackets pair <;> rfl
    have closing' : Closing (closer :: closers) := by
      refine List.forall_mem_cons.mpr ⟨?_, closing⟩
      obtain ⟨-, rfl⟩ | ⟨-, rfl⟩ | ⟨-, rfl⟩ := mem_brackets pair <;> simp
    have inside' : ',' :: more ⊆ allowed marks (closer :: closers) := by
      have wider : allowed marks closers ⊆ ',' :: marks := by cases closers <;> simp [allowed]
      exact List.cons_subset.mpr ⟨List.mem_cons_self, List.Subset.trans inside wider⟩
    have closes (rest : Text) : reads marks (closer :: closers) none false (closer :: rest) =
        reads marks closers none false rest := by
      simp [reads, (isQuote_of_bracket pair).2]
    rw [List.append_assoc, reads_plain closing plain, List.cons_append, List.append_assoc,
      List.cons_append, reads]
    simp only [unquoted, Bool.false_eq_true, if_false, if_neg apart, opens]
    rw [ihInside closing' inside', closes, ih closing inside]
  | @literal more front body rear quote plain quotes inside' single _ ih =>
    rw [List.append_assoc, reads_plain closing plain, List.cons_append, List.append_assoc,
      List.cons_append, reads_literal quotes inside' single, ih closing inside]

theorem reads_iff : reads marks [] none false text = true ↔ Nested marks text := by
  constructor
  · intro read
    cases left_of_reads (by simp) (fun _ => rfl) read with
    | code fits => exact fits
  · intro nested
    have nothing : Closing [] := List.forall_mem_nil _
    have read := reads_append nested nothing (List.Subset.refl marks) []
    rw [List.append_nil] at read
    exact read

instance (marks text : Text) : Decidable (Nested marks text) :=
  decidable_of_iff _ reads_iff

end PawnScope.Nested
