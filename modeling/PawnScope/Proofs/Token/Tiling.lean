import PawnScope.Proofs.Identifier.Around
import PawnScope.Token.Lexer
/-!
The tokens of a line and the gaps between them make up the line: `Lexed` says how, and
`lexed_ofLine` that cutting a line into tokens does this.

* `around_ofLine` — an identifier stands in the line by itself, if what it stands behind allows it;
* `ofLine_append` — tokens up to a parenthesis are the same in a longer line;
* `mark_mem` — a token of punctuation is a mark of the line.
-/

namespace PawnScope.Token

open Identifier (Around isTokenStart isTokenPart isPart)

variable {c : Char} {text rest more : Text} {kind : TokenKind}

/-! ## The longest token -/

theorem literalTail_prefix (quote : Char) (text : Text) : literalTail quote text <+: text := by
  fun_induction literalTail quote text with
  | case1 => exact List.prefix_refl _
  | case2 => exact List.nil_prefix
  | case3 => exact List.nil_prefix
  | case4 c _ escaped rest _ ih =>
    exact List.cons_prefix_cons.mpr ⟨rfl, List.cons_prefix_cons.mpr ⟨rfl, ih⟩⟩
  | case5 c rest => exact List.cons_prefix_cons.mpr ⟨rfl, List.nil_prefix⟩
  | case6 c rest _ _ ih => exact List.cons_prefix_cons.mpr ⟨rfl, ih⟩

theorem afterHash_prefix (text : Text) : (afterHash text).2 <+: text := by
  obtain ⟨behind, whole⟩ := List.takeWhile_prefix isSpacing (l := text)
  have left : text.drop (text.takeWhile isSpacing).length = behind := by
    have drop (front : Text) (same : front ++ behind = text) : text.drop front.length = behind := by
      rw [← same, List.drop_left]
    exact drop _ whole
  rw [afterHash, left]
  conv => rhs; rw [← whole]
  exact (List.prefix_append_right_inj _).mpr (List.takeWhile_prefix _)

variable [Alphabets]

theorem longest_prefix (c : Char) (rest : Text) : (longest c rest).2 <+: rest := by
  rw [longest]
  split
  · exact afterHash_prefix rest
  split
  · exact literalTail_prefix c rest
  split
  · exact literalTail_prefix c rest
  split
  · split
    case isTrue dots => exact dots ▸ List.take_prefix 2 rest
    case isFalse => exact List.nil_prefix
  split
  · exact List.takeWhile_prefix _
  split
  · exact List.takeWhile_prefix _
  split
  · exact List.takeWhile_prefix _
  · exact List.nil_prefix

/-- What begins an identifier always does, and takes all the characters there are for it. -/
theorem longest_identifier (found : longest c rest = (.identifier, text)) :
    isTokenStart c = true ∧
      ∀ other, longest c other = (.identifier, other.takeWhile isTokenPart) := by
  unfold longest afterHash punctuation? at *
  grind

theorem run_of_identifier (found : longest c rest = (.identifier, text)) :
    text = rest.takeWhile isTokenPart := by
  rw [(longest_identifier found).2] at found
  exact (Prod.mk.inj found).2.symm

/-- The character of a kind of punctuation. -/
def mark? : TokenKind → Option Char
  | .openParen => some '('
  | .closeParen => some ')'
  | .openBrace => some '{'
  | .closeBrace => some '}'
  | .openBracket => some '['
  | .closeBracket => some ']'
  | .comma => some ','
  | .semicolon => some ';'
  | .colon => some ':'
  | .backslash => some '\\'
  | _ => none

theorem longest_mark {mark : Char} (found : longest c rest = (kind, text))
    (marks : mark? kind = some mark) : c = mark ∧ ∀ other, longest c other = (kind, []) := by
  unfold longest afterHash punctuation? at *
  unfold mark? at marks
  grind

theorem nil_of_mark {mark : Char} (found : longest c rest = (kind, text))
    (marks : mark? kind = some mark) : text = [] := by
  rw [(longest_mark found marks).2] at found
  exact (Prod.mk.inj found).2.symm

/-! ## Lines as tokens and gaps -/

/-- A text at offset `base` is made up of the tokens and of gaps between them. -/
inductive Lexed : Nat → Text → List Token → Prop where
  | nil {base : Nat} : Lexed base [] []
  | gap {base : Nat} {c : Char} {rest : Text} {tokens : List Token} (blank : isGap c = true)
      (later : Lexed (base + 1) rest tokens) : Lexed base (c :: rest) tokens
  | token {base : Nat} {c : Char} {kind : TokenKind} {text rest : Text} {tokens : List Token}
      (solid : isGap c = false) (found : longest c (text ++ rest) = (kind, text))
      (later : Lexed (base + 1 + text.length) rest tokens) :
      Lexed base (c :: (text ++ rest)) (⟨kind, c :: text, base⟩ :: tokens)

theorem scan_skip (base skip : Nat) (text : Text) :
    scan base skip text = scan (base + skip) 0 (text.drop skip) := by
  induction text generalizing base skip with
  | nil => simp [scan]
  | cons c rest ih =>
    cases skip with
    | zero => rfl
    | succ skip => rw [scan, ih, List.drop_succ_cons, Nat.add_right_comm, Nat.add_assoc]

theorem lexed_scan (base : Nat) (text : Text) : Lexed base text (scan base 0 text) := by
  induction size : text.length using Nat.strongRecOn generalizing base text with
  | ind size ih =>
    subst size
    cases text with
    | nil => exact .nil
    | cons c rest =>
      rw [scan]
      split
      case isTrue blank => exact .gap blank (ih _ (Nat.lt_succ_self _) _ _ rfl)
      case isFalse solid =>
        obtain ⟨behind, whole⟩ := longest_prefix c rest
        cases found : longest c rest with
        | mk kind front =>
          rw [found] at whole
          subst whole
          dsimp only
          rw [scan_skip, List.drop_left]
          refine .token (Bool.eq_false_iff.mpr solid) found (ih _ ?_ _ _ rfl)
          rw [List.length_cons, List.length_append]
          omega

/-- Cutting a line into tokens leaves nothing out but gaps. -/
theorem lexed_ofLine (line : Text) : Lexed 0 line (ofLine line) :=
  lexed_scan 0 line

theorem isPart_of_isGap (blank : isGap c = true) : isPart c = false := by
  simp only [isGap, Bool.or_eq_true, beq_iff_eq] at blank
  rcases blank with ((rfl | rfl) | rfl) | rfl <;> rfl

/-- A token that a name may stand directly behind. -/
def isLead (token : Token) : Bool :=
  token.kind == .identifier || token.kind == .colon || token.kind == .comma

theorem around_of_longest (found : longest c (text ++ rest) = (.identifier, text)) :
    Around (c :: (text ++ rest)) (c :: text) [] rest := by
  obtain ⟨inside, stop⟩ := Text.stop_of_takeWhile (run_of_identifier found).symm
  refine ⟨rfl, List.cons_ne_nil _ _, ?_, by simp, stop⟩
  intro d member
  rcases List.mem_cons.mp member with rfl | member
  · exact Identifier.isTokenPart_of_isTokenStart (longest_identifier found).1
  · exact inside d member

/-- No name goes on with a mark. -/
theorem isPart_of_mark {mark : Char} (found : longest c (text ++ rest) = (kind, text))
    (marks : mark? kind = some mark) (plain : isPart mark = false) :
    ∀ d ∈ (c :: text).getLast?, isPart d = false := by
  intro d last
  rw [nil_of_mark found marks, (longest_mark found marks).1] at last
  obtain rfl := Option.some.inj last
  exact plain

/-- A name directly behind a token does not go on with that token. -/
theorem isPart_of_isLead {base : Nat} (found : longest c (text ++ rest) = (kind, text))
    (leads : isLead ⟨kind, c :: text, base⟩ = true) :
    (∀ d ∈ rest.head?, isTokenPart d = false) ∨ ∀ d ∈ (c :: text).getLast?, isPart d = false := by
  simp only [isLead, Bool.or_eq_true, beq_iff_eq] at leads
  rcases leads with (rfl | rfl) | rfl
  · exact .inl (Text.stop_of_takeWhile (run_of_identifier found).symm).2
  · exact .inr (isPart_of_mark found rfl rfl)
  · exact .inr (isPart_of_mark found rfl rfl)

theorem Lexed.around_identifier {base : Nat} {line : Text} {token : Token}
    {before after : List Token} (lexed : Lexed base line (before ++ token :: after))
    (name : token.kind = .identifier) (lead : ∀ last ∈ before.getLast?, isLead last = true) :
    ∃ above rest, Around line token.text above rest ∧ token.start = base + above.length ∧
      (above = [] → before = []) := by
  generalize whole : before ++ token :: after = tokens at lexed
  induction lexed generalizing before with
  | nil => simp at whole
  | @gap base c line tokens blank later ih =>
    obtain ⟨above, rest, around, start, -⟩ := ih lead whole
    refine ⟨[c] ++ above, rest, around.prepend [c] fun _ => ?_, ?_, by simp⟩
    · simpa using isPart_of_isGap blank
    · rw [start, List.length_append, List.length_singleton]
      omega
  | @token base c kind text line tokens solid found later ih =>
    cases before with
    | nil =>
      obtain ⟨rfl, rfl⟩ := List.cons.inj whole
      obtain rfl : kind = .identifier := name
      exact ⟨[], line, around_of_longest found, rfl, fun _ => rfl⟩
    | cons first before =>
      obtain ⟨rfl, behind⟩ := List.cons.inj whole
      have lead' : ∀ last ∈ before.getLast?, isLead last = true := by
        intro last member
        refine lead last ?_
        cases before with
        | nil => simp at member
        | cons second before => rwa [List.getLast?_cons_cons]
      obtain ⟨above, rest, around, start, first⟩ := ih lead' behind
      refine ⟨(c :: text) ++ above, rest, around.prepend (c :: text) ?_, ?_, by simp⟩
      · rintro rfl
        -- The name stands directly behind this token, which therefore is no identifier.
        obtain rfl := first rfl
        refine (isPart_of_isLead found (lead _ rfl)).resolve_left fun stops => ?_
        obtain ⟨d, more, letters⟩ := List.exists_cons_of_ne_nil around.filled
        have part : isTokenPart d = true := around.parts d (by simp [letters])
        have next : isTokenPart d = false := stops d (by simp [around.whole, letters])
        rw [part] at next
        contradiction
      · rw [start, List.length_append, List.length_cons]
        omega

/-- A name stands in its line behind a gap or a token that it does not go on with. -/
theorem around_ofLine {line : Text} {before after : List Token} {token : Token}
    (tokens : ofLine line = before ++ token :: after) (name : token.kind = .identifier)
    (lead : ∀ last ∈ before.getLast?, isLead last = true) :
    ∃ above rest, Around line token.text above rest ∧ token.start = above.length := by
  have lexed := lexed_ofLine line
  rw [tokens] at lexed
  obtain ⟨above, rest, around, start, -⟩ := lexed.around_identifier name lead
  exact ⟨above, rest, around, by rw [start, Nat.zero_add]⟩

/-! ## Longer lines -/

/-- An identifier that something follows, or a mark, is the same token in a longer line. -/
theorem longest_append (more : Text) (found : longest c (text ++ rest) = (kind, text))
    (known : kind = .identifier ∧ rest ≠ [] ∨ (mark? kind).isSome) :
    longest c (text ++ (rest ++ more)) = (kind, text) := by
  rcases known with ⟨rfl, filled⟩ | marks
  · obtain ⟨inside, stops⟩ := Text.stop_of_takeWhile (run_of_identifier found).symm
    rw [(longest_identifier found).2, List.takeWhile_append_of_pos inside]
    cases rest with
    | nil => exact absurd rfl filled
    | cons d rest => simp [stops d rfl]
  · obtain ⟨mark, marks⟩ := Option.isSome_iff_exists.mp marks
    rw [(longest_mark found marks).2, nil_of_mark found marks]

theorem Lexed.append {base : Nat} {line : Text} {before after : List Token} {opener : Token}
    (lexed : Lexed base line (before ++ opener :: after)) (opens : opener.kind = .openParen)
    (lead : ∀ token ∈ before, token.kind = .identifier ∨ token.kind = .colon) (more : Text) :
    ∃ after', scan base 0 (line ++ more) = before ++ opener :: after' := by
  generalize whole : before ++ opener :: after = tokens at lexed
  induction lexed generalizing before with
  | nil => simp at whole
  | gap blank later ih =>
    obtain ⟨after', same⟩ := ih lead whole
    exact ⟨after', by rw [List.cons_append, scan, if_pos blank, same]⟩
  | @token base c kind text rest tokens solid found later ih =>
    have step (known : kind = .identifier ∧ rest ≠ [] ∨ (mark? kind).isSome) :
        scan base 0 (c :: (text ++ rest) ++ more) =
          ⟨kind, c :: text, base⟩ :: scan (base + 1 + text.length) 0 (rest ++ more) := by
      rw [List.cons_append, List.append_assoc, scan, if_neg (by simp [solid]),
        longest_append more found known]
      dsimp only
      rw [scan_skip (base + 1) text.length, List.drop_left]
    cases before with
    | nil =>
      obtain ⟨rfl, -⟩ := List.cons.inj whole
      obtain rfl : kind = .openParen := opens
      exact ⟨_, step (.inr rfl)⟩
    | cons first before =>
      obtain ⟨rfl, behind⟩ := List.cons.inj whole
      obtain ⟨after', same⟩ :=
        ih (fun token member => lead token (List.mem_cons_of_mem _ member)) behind
      have filled : rest ≠ [] := by
        rintro rfl
        cases later
        simp at behind
      refine ⟨after', ?_⟩
      rw [step, same]
      · rfl
      · rcases lead _ List.mem_cons_self with name | colon
        · exact .inl ⟨name, filled⟩
        · obtain rfl : kind = .colon := colon
          exact .inr rfl

/-- Tokens up to a parenthesis are the same whatever follows it. -/
theorem ofLine_append {line : Text} {before after : List Token} {opener : Token}
    (tokens : ofLine line = before ++ opener :: after) (opens : opener.kind = .openParen)
    (lead : ∀ token ∈ before, token.kind = .identifier ∨ token.kind = .colon) (more : Text) :
    ∃ after', ofLine (line ++ more) = before ++ opener :: after' :=
  (tokens ▸ lexed_ofLine line).append opens lead more

/-! ## Blank lines -/

theorem Lexed.first_mem {base : Nat} {line : Text} {tokens : List Token} {token : Token}
    (lexed : Lexed base line tokens) (member : token ∈ tokens) :
    ∃ c ∈ line, ∃ rest, token.kind = (longest c rest).1 := by
  induction lexed with
  | nil => simp at member
  | gap blank later ih =>
    obtain ⟨c, inside, rest, same⟩ := ih member
    exact ⟨c, List.mem_cons_of_mem _ inside, rest, same⟩
  | token solid found later ih =>
    rcases List.mem_cons.mp member with rfl | member
    · exact ⟨_, List.mem_cons_self, _, by rw [found]⟩
    · obtain ⟨c, inside, rest, same⟩ := ih member
      exact ⟨c, List.mem_cons_of_mem _ (List.mem_append_right _ inside), rest, same⟩

/-- A token of punctuation is a mark that stands in the line. -/
theorem mark_mem {line : Text} {token : Token} {mark : Char} (member : token ∈ ofLine line)
    (marks : mark? token.kind = some mark) : mark ∈ line := by
  obtain ⟨c, inside, rest, same⟩ := (lexed_ofLine line).first_mem member
  rw [same] at marks
  obtain ⟨rfl, -⟩ := longest_mark rfl marks
  exact inside

end PawnScope.Token
