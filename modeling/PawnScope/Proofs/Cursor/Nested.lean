import PawnScope.Proofs.Cursor.Call
import PawnScope.Proofs.Declaration.ParameterList
/-!
Texts whose groups are balanced and properly nested, and whose literals are closed. A scan back for the
call around the cursor comes out of such a text as it went in (`Nested.lastOpen?_append`), and a reader of
a list finds no comma in it that separates (`Nested.pieces_append`).
-/

namespace PawnScope

open Token (isStructural LiteralBody)
open Call (Masked masked lastOpen?)
open Parameter (Nesting pieces)

/-- The brackets that open a group, each with the one that closes it. -/
def brackets : List (Char × Char) :=
  [('(', ')'), ('[', ']'), ('{', '}')]

theorem mem_brackets {opener closer : Char} (pair : (opener, closer) ∈ brackets) :
    (opener = '(' ∧ closer = ')') ∨ (opener = '[' ∧ closer = ']') ∨ (opener = '{' ∧ closer = '}') := by
  simpa [brackets] using pair

/--
The groups of the text are balanced and properly nested, and its literals are closed on their own lines.
Of commas and semicolons only `marks` stand outside of literals, and commas within groups.
-/
inductive Nested : Text → Text → Prop where
  | plain {marks text : Text} (plain : ∀ c ∈ text, isStructural c = false) : Nested marks text
  | mark {marks front more : Text} {mark : Char} (plain : ∀ c ∈ front, isStructural c = false)
      (separator : mark = ',' ∨ mark = ';') (allowed : mark ∈ marks) (behind : Nested marks more) :
      Nested marks (front ++ mark :: more)
  | group {marks front inner more : Text} {opener closer : Char}
      (plain : ∀ c ∈ front, isStructural c = false) (pair : (opener, closer) ∈ brackets)
      (inside : Nested (',' :: marks) inner) (behind : Nested marks more) :
      Nested marks (front ++ opener :: (inner ++ closer :: more))
  | literal {marks front body more : Text} {quote : Char}
      (plain : ∀ c ∈ front, isStructural c = false) (quotes : isQuote quote = true)
      (inside : LiteralBody quote body) (single : '\n' ∉ body) (behind : Nested marks more) :
      Nested marks (front ++ quote :: (body ++ quote :: more))

namespace Nested

variable {marks wider text more front rest : Text}

theorem nil : Nested marks [] :=
  .plain (by simp)

theorem mono (nested : Nested marks text) (allowed : marks ⊆ wider) : Nested wider text := by
  induction nested generalizing wider with
  | plain plain => exact .plain plain
  | mark plain separator inside _ ih => exact .mark plain separator (allowed inside) (ih allowed)
  | group plain pair _ _ ihInside ih =>
    exact .group plain pair (ihInside (List.cons_subset_cons _ allowed)) (ih allowed)
  | literal plain quotes inside single _ ih => exact .literal plain quotes inside single (ih allowed)

theorem prepend (plain : ∀ c ∈ front, isStructural c = false) (nested : Nested marks text) :
    Nested marks (front ++ text) := by
  have join {back : Text} (plain' : ∀ c ∈ back, isStructural c = false) :
      ∀ c ∈ front ++ back, isStructural c = false := List.forall_mem_append.mpr ⟨plain, plain'⟩
  cases nested with
  | plain plain' => exact .plain (join plain')
  | mark plain' separator allowed behind =>
    rw [← List.append_assoc]
    exact .mark (join plain') separator allowed behind
  | group plain' pair inside behind =>
    rw [← List.append_assoc]
    exact .group (join plain') pair inside behind
  | literal plain' quotes inside single behind =>
    rw [← List.append_assoc]
    exact .literal (join plain') quotes inside single behind

theorem append (nested : Nested marks text) (behind : Nested marks more) :
    Nested marks (text ++ more) := by
  induction nested with
  | plain plain => exact prepend plain behind
  | mark plain separator allowed _ ih =>
    rw [List.append_assoc]
    exact .mark plain separator allowed (ih behind)
  | group plain pair inside _ _ ih =>
    rw [List.append_assoc, List.cons_append, List.append_assoc]
    exact .group plain pair inside (ih behind)
  | literal plain quotes inside single _ ih =>
    rw [List.append_assoc, List.cons_append, List.append_assoc]
    exact .literal plain quotes inside single (ih behind)

/-- Nested texts with commas between neighbours. -/
theorem join {texts : List Text} (nested : ∀ text ∈ texts, Nested marks text) :
    Nested (',' :: marks) (Text.join [','] texts) := by
  induction texts with
  | nil => exact .nil
  | cons text texts ih =>
    obtain ⟨here, below⟩ := List.forall_mem_cons.mp nested
    have here' := here.mono (List.subset_cons_self ',' marks)
    cases texts with
    | nil => exact here'
    | cons other texts =>
      rw [Text.join_cons _ _ (List.cons_ne_nil _ _)]
      exact here'.append (.mark (List.forall_mem_nil _) (.inl rfl) List.mem_cons_self (ih below))

end Nested

/-! ## The mask -/

namespace Call

variable {text front rest : Text}

theorem masked_of_mask {mask : List Bool} (long : mask.length = front.length)
    (same : Literal.mask (front ++ rest) = mask ++ Literal.mask rest) :
    masked (front ++ rest) = front.zip mask ++ masked rest := by
  rw [masked, same, List.zip_append long.symm, masked]

theorem zip_replicate (text : Text) (inLiteral : Bool) :
    text.zip (List.replicate text.length inLiteral) = text.map (·, inLiteral) := by
  induction text with
  | nil => rfl
  | cons c text ih => rw [List.length_cons, List.replicate_succ, List.zip_cons_cons, ih, List.map_cons]

theorem masked_plain (plain : ∀ c ∈ front, isQuote c = false) (rest : Text) :
    masked (front ++ rest) = front.map (·, false) ++ masked rest := by
  rw [masked_of_mask (List.length_replicate ..) (Token.maskFrom_plain plain rest), zip_replicate]

theorem masked_cons {c : Char} (plain : isQuote c = false) (rest : Text) :
    masked (c :: rest) = (c, false) :: masked rest :=
  masked_plain (List.forall_mem_singleton.mpr plain) rest

theorem masked_front (plain : ∀ c ∈ front, isStructural c = false) (rest : Text) :
    masked (front ++ rest) = front.map (·, false) ++ masked rest :=
  masked_plain (fun c member => Token.isQuote_of_isStructural (plain c member)) rest

theorem masked_all (plain : ∀ c ∈ text, isStructural c = false) :
    masked text = text.map (·, false) := by
  have alone := masked_front plain []
  rwa [List.append_nil, show masked [] = [] from rfl, List.append_nil] at alone

theorem masked_literal {quote : Char} {body : Text} (quotes : isQuote quote = true)
    (inside : LiteralBody quote body) (single : '\n' ∉ body) (rest : Text) :
    masked (quote :: (body ++ quote :: rest)) =
      (quote :: (body ++ [quote])).map (·, true) ++ masked rest := by
  have whole : quote :: (body ++ quote :: rest) = (quote :: (body ++ [quote])) ++ rest := by simp
  rw [whole, masked_of_mask (List.length_replicate ..)
    (Token.maskFrom_closed quotes inside single rest), zip_replicate]

/-- What is open in a text is known at each of its characters. -/
theorem exists_maskFrom (quote : Option Char) (escaped : Bool) (front rest : Text) :
    ∃ mask quote' escaped', mask.length = front.length ∧
      Literal.maskFrom quote escaped (front ++ rest) =
        mask ++ Literal.maskFrom quote' escaped' rest := by
  have step (quote : Option Char) (escaped : Bool) (c : Char) (rest : Text) :
      ∃ marked quote' escaped', Literal.maskFrom quote escaped (c :: rest) =
        marked :: Literal.maskFrom quote' escaped' rest := by
    cases quote with
    | none =>
      rw [Literal.maskFrom]
      split <;> [skip; split <;> [skip; split]] <;> exact ⟨_, _, _, rfl⟩
    | some mark =>
      rw [Literal.maskFrom]
      split <;> [skip; split <;> [skip; split]] <;> exact ⟨_, _, _, rfl⟩
  induction front generalizing quote escaped with
  | nil => exact ⟨[], quote, escaped, rfl, rfl⟩
  | cons c front ih =>
    obtain ⟨marked, quote', escaped', first⟩ := step quote escaped c (front ++ rest)
    obtain ⟨mask, quote'', escaped'', long, more⟩ := ih quote' escaped'
    exact ⟨marked :: mask, quote'', escaped'', congrArg (· + 1) long,
      by rw [List.cons_append, first, more, List.cons_append]⟩

/-- Behind a parenthesis that belongs to no literal the text is masked as if it stood by itself. -/
theorem masked_of_outside
    (outside : (Literal.mask (front ++ '(' :: rest))[front.length]? = some false) :
    ∃ above, above.length = front.length ∧
      masked (front ++ '(' :: rest) = above ++ ('(', false) :: masked rest := by
  obtain ⟨mask, quote, escaped, long, whole⟩ := exists_maskFrom none false front ('(' :: rest)
  have opens : Literal.maskFrom quote escaped ('(' :: rest) = false :: Literal.mask rest := by
    rw [Literal.mask, whole, List.getElem?_append_right (Nat.le_of_eq long), long,
      Nat.sub_self] at outside
    cases escaped with
    | true => simp [Literal.maskFrom] at outside
    | false =>
      cases quote with
      | none => simp [Literal.maskFrom, isQuote, Literal.mask]
      | some quote => simp [Literal.maskFrom, isEscape] at outside
  refine ⟨front.zip mask, by rw [List.length_zip, long, Nat.min_self], ?_⟩
  rw [masked, Literal.mask, whole, opens, List.zip_append long.symm, List.zip_cons_cons, masked]

end Call

namespace Nested

variable {marks text rest : Text}

theorem isQuote_of_bracket {opener closer : Char} (pair : (opener, closer) ∈ brackets) :
    isQuote opener = false ∧ isQuote closer = false := by
  obtain ⟨rfl, rfl⟩ | ⟨rfl, rfl⟩ | ⟨rfl, rfl⟩ := mem_brackets pair <;> exact ⟨rfl, rfl⟩

theorem isStructural_of_bracket {opener closer : Char} (pair : (opener, closer) ∈ brackets) :
    isStructural opener = true ∧ isStructural closer = true := by
  obtain ⟨rfl, rfl⟩ | ⟨rfl, rfl⟩ | ⟨rfl, rfl⟩ := mem_brackets pair <;> exact ⟨rfl, rfl⟩

theorem masked_append (nested : Nested marks text) (rest : Text) :
    masked (text ++ rest) = masked text ++ masked rest := by
  induction nested generalizing rest with
  | plain free => rw [Call.masked_front free, Call.masked_all free]
  | @mark marks front more mark free separator _ behind ih =>
    have other : isQuote mark = false := by rcases separator with rfl | rfl <;> rfl
    rw [List.append_assoc, Call.masked_front free, Call.masked_front free, List.cons_append,
      Call.masked_cons other, Call.masked_cons other, ih, List.append_assoc, List.cons_append]
  | @group marks front inner more opener closer free pair inside behind ihInside ih =>
    obtain ⟨opens, closes⟩ := isQuote_of_bracket pair
    rw [List.append_assoc, Call.masked_front free, Call.masked_front free, List.cons_append,
      Call.masked_cons opens, Call.masked_cons opens, List.append_assoc, ihInside, ihInside,
      List.cons_append, Call.masked_cons closes, Call.masked_cons closes, ih]
    simp
  | @literal marks front body more quote free quotes inside newline behind ih =>
    rw [List.append_assoc, Call.masked_front free, Call.masked_front free, List.cons_append,
      List.append_assoc, List.cons_append, Call.masked_literal quotes inside newline,
      Call.masked_literal quotes inside newline, ih]
    simp

end Nested

/-! ## The scan back -/

namespace Call

variable {depth : Nat} {stretch before : List Masked} {c : Char}

theorem lastOpen?_other (semicolon : c ≠ ';') (opener : c ≠ '(') (closer : c ≠ ')') :
    lastOpen? depth ((c, false) :: before) = lastOpen? depth before := by
  simp [lastOpen?, semicolon, opener, closer]

theorem lastOpen?_skip (skips : ∀ entry ∈ stretch, entry.2 = true ∨
      entry.1 ≠ ';' ∧ entry.1 ≠ '(' ∧ entry.1 ≠ ')') :
    lastOpen? depth (stretch ++ before) = lastOpen? depth before := by
  induction stretch with
  | nil => rfl
  | cons entry stretch ih =>
    obtain ⟨here, below⟩ := List.forall_mem_cons.mp skips
    obtain ⟨c, inLiteral⟩ := entry
    rw [List.cons_append, lastOpen?]
    rcases here with rfl | ⟨semicolon, opener, closer⟩
    · rw [if_pos rfl, ih below]
    · simp only [if_neg semicolon, if_neg opener, if_neg closer]
      split <;> exact ih below

/-- A scan back that comes out of a stretch as it went in comes so out of the group around it. -/
theorem lastOpen?_group {opener closer : Char} (pair : (opener, closer) ∈ brackets)
    (inner : ∀ depth before, lastOpen? depth (stretch ++ before) = lastOpen? depth before) :
    lastOpen? depth ((closer, false) :: (stretch ++ (opener, false) :: before)) =
      lastOpen? depth before := by
  obtain ⟨rfl, rfl⟩ | ⟨rfl, rfl⟩ | ⟨rfl, rfl⟩ := mem_brackets pair
  · -- Only parentheses are counted.
    simp [lastOpen?, inner]
  · simp [lastOpen?, inner]
  · simp [lastOpen?, inner]

end Call

namespace Nested

variable {marks text : Text}

/-- A scan back passes what is neither a parenthesis nor a semicolon. -/
theorem skips_of_plain {front : Text} (plain : ∀ c ∈ front, isStructural c = false) :
    ∀ entry ∈ (front.map (·, false)).reverse, entry.2 = true ∨
      entry.1 ≠ ';' ∧ entry.1 ≠ '(' ∧ entry.1 ≠ ')' := by
  intro entry member
  obtain ⟨c, inside, rfl⟩ := List.mem_map.mp (List.mem_reverse.mp member)
  have other : ∀ d, isStructural d = true → c ≠ d := by
    rintro d structural rfl
    rw [plain c inside] at structural
    contradiction
  exact .inr ⟨other ';' rfl, other '(' rfl, other ')' rfl⟩

/-- A scan back over a nested text comes out of it as it went in. -/
theorem lastOpen?_append (nested : Nested marks text) (unended : ';' ∉ marks) (depth : Nat)
    (before : List Masked) :
    lastOpen? depth ((masked text).reverse ++ before) = lastOpen? depth before := by
  induction nested generalizing depth before with
  | plain free => rw [Call.masked_all free, Call.lastOpen?_skip (skips_of_plain free)]
  | @mark marks front more mark free separator allowed behind ih =>
    obtain rfl : mark = ',' := separator.resolve_right fun same => unended (same ▸ allowed)
    rw [Call.masked_front free, Call.masked_cons rfl, List.reverse_append, List.reverse_cons,
      List.append_assoc, List.append_assoc, ih unended, List.singleton_append,
      Call.lastOpen?_other (by decide) (by decide) (by decide),
      Call.lastOpen?_skip (skips_of_plain free)]
  | @group marks front inner more opener closer free pair inside behind ihInside ih =>
    obtain ⟨opens, closes⟩ := isQuote_of_bracket pair
    have unended' : ';' ∉ ',' :: marks := by simpa using unended
    have whole : (masked (front ++ opener :: (inner ++ closer :: more))).reverse ++ before =
        (masked more).reverse ++ ((closer, false) :: ((masked inner).reverse ++ (opener, false) ::
          ((front.map (·, false)).reverse ++ before))) := by
      rw [Call.masked_front free, Call.masked_cons opens, inside.masked_append,
        Call.masked_cons closes]
      simp
    rw [whole, ih unended, Call.lastOpen?_group pair fun depth before => ihInside unended' depth before,
      Call.lastOpen?_skip (skips_of_plain free)]
  | @literal marks front body more quote free quotes inside newline behind ih =>
    rw [Call.masked_front free, Call.masked_literal quotes inside newline, List.reverse_append,
      List.reverse_append, List.append_assoc, List.append_assoc, ih unended,
      Call.lastOpen?_skip (by simp), Call.lastOpen?_skip (skips_of_plain free)]

end Nested

/-! ## The pieces of a list -/

/-- A bracket separates nothing and leads into its group or out of it. -/
theorem Parameter.Nesting.step_bracket {opener closer : Char} (pair : (opener, closer) ∈ brackets)
    (depth : Nat) :
    ((code depth).separates opener = false ∧ (code depth).step opener = code (depth + 1)) ∧
      (code (depth + 1)).separates closer = false ∧ (code (depth + 1)).step closer = code depth := by
  obtain ⟨rfl, rfl⟩ | ⟨rfl, rfl⟩ | ⟨rfl, rfl⟩ := mem_brackets pair <;>
    simp [separates, step, code, isQuote]

namespace Nested

variable {marks text : Text} {depth : Nat} {rest first : Text} {more : List Text}

/-- No comma in a nested text separates the pieces of a list that goes on behind it. -/
theorem pieces_append (nested : Nested marks text) (inner : depth ≠ 0 ∨ ',' ∉ marks)
    (behind : pieces (.code depth) rest = first :: more) :
    pieces (.code depth) (text ++ rest) = (text ++ first) :: more := by
  induction nested generalizing depth rest first more with
  | plain free => exact Parameter.pieces_plain free behind
  | @mark marks front rear mark free separator allowed below ih =>
    rw [List.append_assoc, List.append_assoc]
    refine Parameter.pieces_plain free (Parameter.pieces_cons ?_ ?_ (ih inner behind))
    · rcases separator with rfl | rfl
      · have deep := inner.resolve_right (not_not_intro allowed)
        simp [Nesting.separates, Nesting.code, deep]
      · rfl
    · rcases separator with rfl | rfl <;> simp [Nesting.step, Nesting.code, isQuote]
  | @group marks front inside rear opener closer free pair nested below ihInside ih =>
    rw [List.append_assoc, List.append_assoc, List.cons_append, List.cons_append, List.append_assoc,
      List.append_assoc]
    obtain ⟨opens, closes⟩ := Nesting.step_bracket pair depth
    exact Parameter.pieces_plain free (Parameter.pieces_cons opens.1 opens.2
      (ihInside (.inl (Nat.succ_ne_zero depth)) (Parameter.pieces_cons closes.1 closes.2
        (ih inner behind))))
  | @literal marks front body rear quote free quotes inside newline below ih =>
    have closed := Parameter.pieces_literal quotes inside (ih inner behind)
    simp only [List.append_assoc, List.cons_append, List.nil_append] at closed ⊢
    exact Parameter.pieces_plain free closed

/-- A list of nested texts is cut into them. -/
theorem pieces_join {texts : List Text} (nested : ∀ text ∈ texts, Nested marks text)
    (apart : ',' ∉ marks) (filled : texts ≠ []) : pieces .top (Text.join [','] texts) = texts := by
  have comma : pieces (.code 0) [','] = [[], []] := rfl
  have closed {text : Text} (member : text ∈ texts) := by
    have cut := (nested text member).pieces_append (.inr apart) comma
    rw [List.append_nil] at cut
    exact Parameter.closed_of_comma cut
  have separable : Parameter.Separable texts :=
    ⟨fun _ member => (closed member).1, fun _ member => (closed (List.dropLast_subset _ member)).2⟩
  exact separable.pieces_join filled

end Nested

end PawnScope
