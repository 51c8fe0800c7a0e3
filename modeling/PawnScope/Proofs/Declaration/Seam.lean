import PawnScope.Identifier.European
import PawnScope.Proofs.Declaration.Names
import PawnScope.Proofs.Token.Patterns
/-!
Code that more is joined to behind a blank. A text that leaves no literal and no `#` open keeps its tokens
(`Token.ofLine_seam`); a function whose parameter list is open keeps its name and its place whatever is
joined. Main result: `Declaration.recognize_seam`.
-/

namespace PawnScope

namespace Token

variable {text behind : Text} {token : Token}

/-! ## Tokens -/

/-- The text ends in a `#` that only spaces and tabs follow, so that a word behind it makes a directive. -/
def EndsInHash (text : Text) : Prop :=
  ∃ before spacing, text = before ++ '#' :: spacing ∧ ∀ c ∈ spacing, isSpacing c = true

theorem endsInHash_iff : EndsInHash text ↔ (text.reverse.dropWhile isSpacing).head? = some '#' := by
  constructor
  · rintro ⟨before, spacing, rfl, spaces⟩
    rw [List.reverse_append, List.reverse_cons, List.append_assoc, List.dropWhile_append_of_pos
      fun c member => spaces c (List.mem_reverse.mp member)]
    rfl
  · intro hash
    obtain ⟨before, behind⟩ := List.head?_eq_some_iff.mp hash
    have whole := List.takeWhile_append_dropWhile (p := isSpacing) (l := text.reverse)
    rw [behind, ← List.reverse_eq_iff, List.reverse_append, List.reverse_cons, List.append_assoc] at whole
    exact ⟨_, _, whole.symm, fun c member => List.mem_takeWhile_imp (List.mem_reverse.mp member)⟩

instance (text : Text) : Decidable (EndsInHash text) :=
  decidable_of_iff _ endsInHash_iff.symm

theorem takeWhile_isSpacing_append (ended : ¬∀ c ∈ text, isSpacing c = true) (behind : Text) :
    (text ++ behind).takeWhile isSpacing = text.takeWhile isSpacing := by
  have short : (text.takeWhile isSpacing).length ≠ text.length := fun size =>
    ended (List.takeWhile_eq_self_iff.mp ((List.takeWhile_prefix isSpacing).eq_of_length size))
  rw [List.takeWhile_append, if_neg short]

theorem parts_blank [Alphabets] (behind : Text) : Parts (' ' :: behind) := by
  intro c first
  obtain rfl := Option.some.inj first
  have plain : runs.all (fun entry => !entry.2 ' ') = true := rfl
  exact ⟨fun entry isRun => by simpa using List.all_eq_true.mp plain entry isRun, rfl, by decide⟩

/-- A text whose literals are closed keeps its tokens, and so does what is joined to it. -/
theorem ofLine_seam [Alphabets] (closed : ∀ token ∈ ofLine text, token.isLiteral = true → token.Closed)
    (worded : ¬EndsInHash text) (behind : Text) :
    ofLine (text ++ ' ' :: behind) =
      ofLine text ++ (ofLine behind).map (move (text.length + 1)) := by
  have spacing (before after : Text) (whole : text = before ++ '#' :: after) :
      (after ++ ' ' :: behind).takeWhile isSpacing = after.takeWhile isSpacing :=
    takeWhile_isSpacing_append (fun spaces => worded ⟨before, after, whole, spaces⟩) _
  have cut := (lexed_ofLine text).scan_append_parts closed (parts_blank behind) spacing
  rwa [← ofLine, scan_gap rfl, Nat.zero_add, scan_eq_move (text.length + 1)] at cut

/-! ## Bytes -/

/-- What is told of the tokens of a line: the kind and the text of each, and its bytes. -/
def ranges [Alphabets] (line : Text) : List (TokenKind × Text × Nat × Nat) :=
  (ofLine line).map fun token => (token.kind, token.text, token.byteRange line)

/-- The same token some bytes further behind. -/
def shift (count : Nat) (told : TokenKind × Text × Nat × Nat) : TokenKind × Text × Nat × Nat :=
  (told.1, told.2.1, told.2.2.1 + count, told.2.2.2 + count)

theorem byteRange_append [Alphabets] (member : token ∈ ofLine text) (behind : Text) :
    token.byteRange (text ++ behind) = token.byteRange text := by
  obtain ⟨before, c, word, after, rfl, same, -⟩ := (lexed_ofLine text).mem member
  rw [same, byteRange, byteRange, Nat.zero_add, List.append_assoc, List.take_left, List.take_left]

theorem byteRange_move (front behind : Text) (token : Token) :
    (move front.length token).byteRange (front ++ behind) =
      ((token.byteRange behind).1 + Text.byteLength front,
        (token.byteRange behind).2 + Text.byteLength front) := by
  simp only [byteRange, move]
  rw [Nat.add_comm token.start, List.take_length_add_append, Text.byteLength_append,
    Nat.add_comm (Text.byteLength front), Nat.add_right_comm]

theorem ranges_seam [Alphabets] (closed : ∀ token ∈ ofLine text, token.isLiteral = true → token.Closed)
    (worded : ¬EndsInHash text) (behind : Text) :
    ranges (text ++ ' ' :: behind) =
      ranges text ++ (ranges behind).map (shift (Text.byteLength text + 1)) := by
  have size : Text.byteLength (text ++ [' ']) = Text.byteLength text + 1 := Text.byteLength_append _ _
  have whole : text ++ ' ' :: behind = (text ++ [' ']) ++ behind := by simp
  rw [ranges, ofLine_seam closed worded, List.map_append, List.map_map, ranges, ranges, List.map_map]
  congr 1
  · refine List.map_congr_left fun token member => ?_
    rw [byteRange_append member]
  · refine List.map_congr_left fun token _ => ?_
    have moved := byteRange_move (text ++ [' ']) behind token
    rw [← whole, size, List.length_append, List.length_singleton] at moved
    rw [Function.comp_apply, Function.comp_apply, moved]
    rfl

end Token

namespace Declaration

/-- A function waits, or is found with the name and the specifiers before its parenthesis. -/
theorem ofPrototype_cases (code : Text) (start : Nat) (specifiers : List Text) (name opener : Token)
    (rest : List Token) (complete : Bool) :
    complete = false ∧ ofPrototype code start specifiers name opener rest complete = .unfinished ∨
    ∃ head, ofPrototype code start specifiers name opener rest complete = .found (.function head) ∧
      head.name = name.text ∧ head.nameStart = name.start ∧
      head.isPrototype = marksPrototype specifiers ∧ head.isStatic = marksStatic specifiers := by
  rw [ofPrototype]
  dsimp only
  split
  case isTrue waits => exact .inl ⟨by simpa using (Bool.and_eq_true_iff.mp waits).2, rfl⟩
  case isFalse => exact .inr ⟨_, rfl, rfl, rfl, rfl, rfl⟩

/--
The tokens of a text that leaves no literal and no `#` open are not changed by what is joined to it
behind a blank, nor are those of what is joined but for their places. And whatever the text leaves open:
a function that waits for the rest of its parameters stays one, and keeps its name, the place of the name
and its specifiers.
-/
theorem recognize_seam [Alphabets] :
    (∀ text behind, (∀ token ∈ Token.ofLine text, token.isLiteral = true → token.Closed) →
      ¬Token.EndsInHash text →
      Token.ranges (text ++ ' ' :: behind) =
        Token.ranges text ++ (Token.ranges behind).map (Token.shift (Text.byteLength text + 1))) ∧
    ∀ text, recognize text false = .unfinished → ∃ above name rest isPrototype isStatic,
      text = above ++ (name ++ rest) ∧ ∀ behind complete,
        complete = false ∧ recognize (text ++ ' ' :: behind) complete = .unfinished ∨
        ∃ head, recognize (text ++ ' ' :: behind) complete = .found (.function head) ∧
          head.name = name ∧ head.nameStart = above.length ∧
          Text.byteLength ((text ++ ' ' :: behind).take head.nameStart) = Text.byteLength above ∧
          head.isPrototype = isPrototype ∧ head.isStatic = isStatic := by
  refine ⟨fun text behind closed worded => Token.ranges_seam closed worded behind, fun text waits => ?_⟩
  obtain ⟨start, specifiers, name, opener, rest, shape⟩ := exists_function_of_unfinished waits
  obtain ⟨above, below, around, place⟩ := Shape.namedIn_of_function shape
  refine ⟨above, name.text, below, marksPrototype specifiers, marksStatic specifiers, around.whole,
    fun behind complete => ?_⟩
  obtain ⟨rest', shape'⟩ := Shape.function_append shape (' ' :: behind)
  rw [recognize_eq, shape', Shape.recognize]
  refine (ofPrototype_cases _ start specifiers name opener rest' complete).imp_right ?_
  rintro ⟨head, found, named, stands, isPrototype, isStatic⟩
  refine ⟨head, found, named, stands.trans place, ?_, isPrototype, isStatic⟩
  rw [stands, place, around.whole, List.append_assoc, List.take_left]

open scoped Identifier.European

/-- A literal with a `#` and an escaped quote in it, and names of two bytes. -/
theorem recognize_seam_literal :
    let text := "native Ж(s[] = \"#^\"\",".toList
    (∀ token ∈ Token.ofLine text, token.isLiteral = true → token.Closed) ∧ ¬Token.EndsInHash text ∧
      Token.ranges (text ++ ' ' :: "Ж)".toList) = Token.ranges text ++
        [(.identifier, "Ж".toList, 23, 25), (.closeParen, ")".toList, 25, 26)] ∧
      recognize text false = .unfinished ∧ ∃ above name : Text, ∀ behind complete head,
        recognize (text ++ ' ' :: behind) complete = .found (.function head) →
          head.name = name ∧ head.nameStart = above.length := by
  intro text
  have closed : ∀ token ∈ Token.ofLine text, token.isLiteral = true → token.Closed := by
    have literals : (Token.ofLine text).filter Token.isLiteral =
        [⟨.string, ['"', '#', '^', '"', '"'], 15⟩] := by decide +kernel
    intro token member literal
    have found := List.mem_filter.mpr ⟨member, literal⟩
    rw [literals] at found
    obtain rfl := List.mem_singleton.mp found
    exact ⟨'"', ['#', '^', '"'], rfl, .plain (by decide) rfl (.escaped rfl (by decide) .nil), rfl⟩
  have worded : ¬Token.EndsInHash text := by decide +kernel
  have waits : recognize text false = .unfinished := by decide +kernel
  have cut := recognize_seam.1 text "Ж)".toList closed worded
  have moved : (Token.ranges "Ж)".toList).map (Token.shift (Text.byteLength text + 1)) =
      [(.identifier, "Ж".toList, 23, 25), (.closeParen, ")".toList, 25, 26)] := by decide +kernel
  rw [moved] at cut
  obtain ⟨above, name, _, _, _, -, keeps⟩ := recognize_seam.2 text waits
  refine ⟨closed, worded, cut, waits, above, name,
    fun behind complete head found => ?_⟩
  rcases keeps behind complete with ⟨-, waiting⟩ | ⟨head', found', named, place, -⟩
  · cases found.symm.trans waiting
  · cases found.symm.trans found'
    exact ⟨named, place⟩

end Declaration

end PawnScope
