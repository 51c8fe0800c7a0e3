import PawnScope.Identifier.European
import PawnScope.Proofs.Source.Blanking
import PawnScope.Proofs.Source.Lines
import PawnScope.Proofs.Token.Literals
/-!
The three readers of literals agree: the one that blanks out comments, the one that cuts a line into
tokens, and the mask of the characters of a literal. Hence the depth of a line is what the braces in the
code above it add up to. Main result: `literals_agree`.
-/

namespace PawnScope

/-! ## Braces -/

/-- The number of open braces after a text; a brace that closes nothing does not count. -/
def openBraces (depth : Nat) (text : Text) : Nat :=
  text.foldl (fun depth c => if c = '{' then depth + 1 else if c = '}' then depth - 1 else depth) depth

/-- The characters of a line that is entered in `mode` which are code, outside comments and literals. -/
def codeOf (mode : Mode) (raw : Text) : Text :=
  ((raw.zip (mode.regions raw)).filter (·.2 == .code)).map Prod.fst

namespace Mode

/-- What the reader is inside of after the end of a line. -/
def overLine : Mode → Mode
  | block isDoc | opening _ isDoc => block isDoc
  | _ => code

end Mode

/-- The code of written lines, the first of which is entered in `mode`. -/
def codeOfLines (mode : Mode) : List Text → Text
  | [] => []
  | raw :: rest =>
    let raw := Line.withoutReturn raw
    codeOf mode raw ++ codeOfLines (mode.after raw).overLine rest

/-! ## Unmasked characters -/

/-- The characters that are not masked. -/
def unmasked (text : Text) (mask : List Bool) : Text :=
  ((text.zip mask).filter (!·.2)).map Prod.fst

variable {depth : Nat} {text rest line raw : Text} {mask : List Bool}

theorem openBraces_append (depth : Nat) (text rest : Text) :
    openBraces depth (text ++ rest) = openBraces (openBraces depth text) rest :=
  List.foldl_append

theorem unmasked_hidden (text rest : Text) (mask : List Bool) :
    unmasked (text ++ rest) (List.replicate text.length true ++ mask) = unmasked rest mask := by
  induction text with
  | nil => rfl
  | cons c text ih => simpa [unmasked, List.replicate_succ] using ih

theorem unmasked_nothing (text : Text) : unmasked text (List.replicate text.length true) = [] := by
  simpa [unmasked] using unmasked_hidden text [] []

theorem unmasked_shown (text rest : Text) (mask : List Bool) :
    unmasked (text ++ rest) (List.replicate text.length false ++ mask) =
      text ++ unmasked rest mask := by
  induction text with
  | nil => rfl
  | cons c text ih => simpa [unmasked, List.replicate_succ] using ih

namespace Token

variable {base : Nat} {token : Token} {tokens : List Token}

theorem openBraces_of_plain (plain : ∀ c ∈ text, isStructural c = false) :
    openBraces depth text = depth := by
  induction text with
  | nil => rfl
  | cons c text ih =>
    obtain ⟨here, behind⟩ := List.forall_mem_cons.mp plain
    have step : openBraces depth (c :: text) = openBraces depth text := by
      have opener : c ≠ '{' := by
        rintro rfl
        contradiction
      have closer : c ≠ '}' := by
        rintro rfl
        contradiction
      simp [openBraces, opener, closer]
    rw [step, ih behind]

/-- The braces of a token are the token itself, if it is one. -/
theorem IsFlat.openBraces_eq (flat : token.IsFlat) (depth : Nat) :
    openBraces depth token.text = Line.braceDepth depth [token] := by
  cases marks : mark? token.kind with
  | none =>
    rw [openBraces_of_plain (flat.plain marks)]
    cases kind : token.kind <;> simp [kind, mark?] at marks <;> simp [Line.braceDepth, kind]
  | some mark =>
    rw [flat.marked mark marks]
    cases kind : token.kind <;> simp [kind, mark?] at marks <;> subst marks <;>
      simp [Line.braceDepth, kind, openBraces]

theorem braceDepth_of_other (opener : token.kind ≠ .openBrace) (closer : token.kind ≠ .closeBrace)
    (depth : Nat) : Line.braceDepth depth [token] = depth := by
  simp only [Line.braceDepth, List.foldl_cons, List.foldl_nil]

theorem braceDepth_of_isLiteral (literal : token.isLiteral = true) (depth : Nat) :
    Line.braceDepth depth [token] = depth := by
  refine braceDepth_of_other (fun kind => ?_) (fun kind => ?_) depth <;>
    simp [isLiteral, kind] at literal

/-- The braces among the characters that are not masked are those of the tokens. -/
theorem Cut.openBraces_unmasked (cut : Cut base line tokens) (single : '\n' ∉ line) (depth : Nat) :
    openBraces depth (unmasked line (Literal.maskFrom none false line)) =
      Line.braceDepth depth tokens := by
  induction cut generalizing depth with
  | nil => rfl
  | @gap base c rest tokens blank later ih =>
    have plain : ∀ d ∈ [c], isStructural d = false :=
      List.forall_mem_singleton.mpr (isStructural_of_isGap blank)
    have shown := fun d member => isQuote_of_isStructural (plain d member)
    rw [← List.singleton_append, maskFrom_plain shown rest, unmasked_shown, openBraces_append,
      openBraces_of_plain plain]
    exact ih (fun member => single (List.mem_cons_of_mem _ member)) depth
  | plain start other filled flat later ih =>
    rw [maskFrom_plain flat.isQuote, unmasked_shown, openBraces_append, Line.braceDepth_cons,
      flat.openBraces_eq]
    exact ih (fun member => single (List.mem_append_right _ member)) _
  | @closed base token quote body rest tokens start literal quotes inside text later ih =>
    have single' : '\n' ∉ body := fun member => single (by simp [text, member])
    rw [Line.braceDepth_cons, braceDepth_of_isLiteral literal, text,
      maskFrom_closed quotes inside single', unmasked_hidden]
    exact ih (fun member => single (List.mem_append_right _ member)) depth
  | @unclosed base token quote body start literal quotes inside text =>
    have single' : '\n' ∉ body := fun member => single (by simp [text, member])
    rw [braceDepth_of_isLiteral literal, text, maskFrom_unclosed quotes inside single',
      unmasked_nothing]
    rfl
  | @lone base token last quote c body start literal quotes inside text escapes kind next written =>
    have single' : '\n' ∉ body := fun member => single (by simp [text, member])
    have opener : last.kind ≠ .openBrace := by rcases kind with kind | kind <;> simp [kind]
    have closer : last.kind ≠ .closeBrace := by rcases kind with kind | kind <;> simp [kind]
    rw [Line.braceDepth_cons, braceDepth_of_isLiteral literal, braceDepth_of_other opener closer,
      text, maskFrom_lone quotes inside single' escapes, unmasked_nothing]
    rfl

end Token

/-! ## The regions of a line -/

namespace Mode

/-- The quote of the literal that is open in this mode. -/
def quote? : Mode → Option Char
  | literal quote | escaped quote => some quote
  | _ => none

def isEscaped : Mode → Bool
  | escaped _ => true
  | _ => false

end Mode

theorem blankComments_cons (mode : Mode) (c : Char) (rest : Text) :
    blankComments (c :: rest) (mode.regions (c :: rest)) =
      (if (mode.step c rest).1.isKept then c else ' ') ::
        blankComments rest ((mode.step c rest).2.regions rest) :=
  rfl

/-- Where a character follows in a line, one that is no line feed follows in its code. -/
theorem head?_blankComments (mode : Mode) (single : '\n' ∉ raw) :
    (blankComments raw (mode.regions raw)).head?.any (· != '\n') = !raw.isEmpty := by
  cases raw with
  | nil => rfl
  | cons c rest =>
    obtain ⟨here, -⟩ := not_or.mp (List.mem_cons.not.mp single)
    rw [blankComments_cons]
    split <;> simp [Ne.symm here]

/-- One character is masked as the reader of comments takes it. -/
theorem maskFrom_step (mode : Mode) {c : Char} {rest behind : Text} (single : '\n' ≠ c)
    (next : behind.head?.any (· != '\n') = !rest.isEmpty) :
    Literal.maskFrom mode.quote? mode.isEscaped
        ((if (mode.step c rest).1.isKept then c else ' ') :: behind) =
      ((mode.step c rest).1 == .literal) ::
        Literal.maskFrom (mode.step c rest).2.quote? (mode.step c rest).2.isEscaped behind := by
  have blank : isQuote ' ' = false := rfl
  simp only [Literal.maskFrom, next]
  cases mode <;> simp only [Mode.step, Mode.quote?, Mode.isEscaped] <;> grind [Region.isKept]

/-- The mask of the code of a line marks the literals that the comments were cut out around. -/
theorem maskFrom_blankComments (mode : Mode) (single : '\n' ∉ raw) :
    Literal.maskFrom mode.quote? mode.isEscaped (blankComments raw (mode.regions raw)) =
      (mode.regions raw).map (· == .literal) := by
  induction raw generalizing mode with
  | nil => rfl
  | cons c rest ih =>
    obtain ⟨here, behind⟩ := not_or.mp (List.mem_cons.not.mp single)
    rw [blankComments_cons, Mode.regions_cons, List.map_cons, ← ih (mode.step c rest).2 behind]
    exact maskFrom_step mode here (head?_blankComments (mode.step c rest).2 behind)

/-- What is neither masked nor blanked out is code. -/
theorem openBraces_unmasked_blank (raw : Text) (regions : List Region) (depth : Nat) :
    openBraces depth (unmasked (blankComments raw regions) (regions.map (· == .literal))) =
      openBraces depth (((raw.zip regions).filter (·.2 == .code)).map Prod.fst) := by
  induction raw generalizing regions depth with
  | nil => rfl
  | cons c rest ih =>
    cases regions with
    | nil => rfl
    | cons region regions =>
      have later := ih regions
      cases region <;> simp_all [unmasked, blankComments, openBraces, Region.isKept]

theorem not_mem_blankComments {regions : List Region} (single : '\n' ∉ raw) :
    '\n' ∉ blankComments raw regions := by
  intro member
  obtain ⟨index, found⟩ := List.mem_iff_getElem?.mp member
  obtain ⟨d, region, written, -, same⟩ := getElem?_blankComments found
  split at same
  case isTrue => exact single (same ▸ List.mem_of_getElem? written)
  case isFalse => contradiction

theorem Mode.isEscaped_of_quote? {mode : Mode} (closed : mode.quote? = none) :
    mode.isEscaped = false := by
  cases mode <;> first | rfl | contradiction

/-- The braces of the tokens of a line are those of its code. -/
theorem braceDepth_ofLine [Alphabets] {mode : Mode} (closed : mode.quote? = none) (single : '\n' ∉ raw)
    (depth : Nat) :
    Line.braceDepth depth (Token.ofLine (blankComments raw (mode.regions raw))) =
      openBraces depth (codeOf mode raw) := by
  have masked := maskFrom_blankComments mode single
  rw [closed, Mode.isEscaped_of_quote? closed] at masked
  have single' : '\n' ∉ blankComments raw (mode.regions raw) := not_mem_blankComments single
  rw [← ((Token.lexed_ofLine _).cut single').openBraces_unmasked single' depth, masked, codeOf,
    openBraces_unmasked_blank]

/-! ## The lines of a text -/

theorem OpenComment.quote?_mode (comment : OpenComment) : comment.mode.quote? = Option.none := by
  cases comment <;> rfl

theorem OpenComment.mode_ofMode (mode : Mode) (body : Text) :
    (OpenComment.ofMode mode body).mode = mode.overLine := by
  cases mode with
  | block isDoc => cases isDoc <;> rfl
  | opening left isDoc => cases isDoc <;> rfl
  | code | literal | escaped | lineComment | closing => rfl

namespace Line

theorem withoutReturn_begins (raw : Text) : withoutReturn raw <+: raw := by
  rw [withoutReturn]
  split
  · exact List.dropLast_prefix raw
  · exact List.prefix_rfl

theorem not_mem_withoutReturn {c : Char} (apart : c ∉ raw) : c ∉ withoutReturn raw :=
  fun member => apart ((withoutReturn_begins raw).subset member)

theorem mode_next [Alphabets] (opened : Opened) (raw : Text) :
    (opened.next raw).comment.mode = (opened.comment.mode.after (withoutReturn raw)).overLine :=
  OpenComment.mode_ofMode _ _

/-- After written lines as many braces are open as their code leaves open. -/
theorem depth_after [Alphabets] {raws : List Text} (single : ∀ raw ∈ raws, '\n' ∉ raw) (opened : Opened) :
    (opened.after raws).depth = openBraces opened.depth (codeOfLines opened.comment.mode raws) := by
  induction raws generalizing opened with
  | nil => rfl
  | cons raw rest ih =>
    obtain ⟨here, behind⟩ := List.forall_mem_cons.mp single
    have depth : (opened.next raw).depth =
        openBraces opened.depth (codeOf opened.comment.mode (withoutReturn raw)) :=
      braceDepth_ofLine opened.comment.quote?_mode (not_mem_withoutReturn here) opened.depth
    rw [Opened.after, List.foldl_cons, ← Opened.after, ih behind, mode_next, depth, codeOfLines,
      openBraces_append]

/-- The depth of a line is what is open above it. -/
theorem depth_ofText [Alphabets] {text : Text} {index : Nat} {line : Line}
    (found : (ofText text)[index]? = some line) : line.depth = (openedAt text index).depth := by
  obtain ⟨raw, -, rfl⟩ := exists_ofRaw found
  rfl

end Line

/--
The line reader, the cutting into tokens and the mask have one rule for literals. The depth of a line is
what the braces of the code above it add up to, and the mask of a line marks what lies in its literal
tokens, and besides only an escape at its end behind a literal that is not closed.
-/
theorem literals_agree [Alphabets] :
    (∀ (text : Text) (index : Nat) (line : Line), (Line.ofText text)[index]? = some line →
      line.depth = openBraces 0 (codeOfLines .code ((Text.split '\n' text).take index))) ∧
    ∀ raw : Text, '\n' ∉ raw → ∀ index, (Literal.mask raw)[index]? = some true ↔
      Token.InLiteral (Token.ofLine raw) index ∨
        index + 1 = raw.length ∧ (∃ c ∈ raw[index]?, isEscape c = true) ∧
          Token.EndsUnclosed (Token.ofLine raw) index := by
  refine ⟨fun text index line found => ?_, fun raw single index => ?_⟩
  · rw [Line.depth_ofText found, Line.openedAt, Line.depth_after]
    · rfl
    · exact fun raw member => Text.not_mem_of_mem_split (List.mem_of_mem_take member)
  · simpa [Token.Marked] using Token.getElem?_mask single index

/-- Quotes in comments and in quotes, braces in both; a line break ends the literal only. -/
def mixed : Text :=
  "\x7b \"\x7d^\"\x7d\" '\x7b' /* \" \x7d **/ \x7b // \x7b\n\x7d \x7d \x7d \x7b '\x7d^\n/* \x7d\n\x7d */ \x7b".toList

/-- A closed literal, and one whose last character is an escape. -/
def unclosed : Text :=
  "\"^\"\" 'a^^^".toList

open scoped Identifier.European

theorem literals_agree_mixed :
    codeOfLines .code ((Text.split '\n' mixed).take 3) = "\x7b    \x7b \x7d \x7d \x7d \x7b ".toList ∧
    (Line.ofText mixed)[3]?.map Line.depth = some 1 ∧
    '\n' ∉ unclosed ∧ (Literal.mask unclosed)[9]? = some true ∧
    (Token.InLiteral (Token.ofLine unclosed) 9 ∨ 9 + 1 = unclosed.length ∧
      (∃ c ∈ unclosed[9]?, isEscape c = true) ∧
        Token.EndsUnclosed (Token.ofLine unclosed) 9) := by
  obtain ⟨line, found⟩ : ∃ line, (Line.ofText mixed)[3]? = some line :=
    ⟨_, List.getElem?_eq_getElem (by rw [Line.length_ofText]; decide)⟩
  have code : codeOfLines .code ((Text.split '\n' mixed).take 3) =
      "\x7b    \x7b \x7d \x7d \x7d \x7b ".toList := by decide
  have masked : (Literal.mask unclosed)[9]? = some true := by decide
  have depth := literals_agree.1 mixed 3 line found
  rw [code] at depth
  refine ⟨code, ?_, by decide, masked, (literals_agree.2 unclosed (by decide) 9).mp masked⟩
  rw [found, Option.map_some, depth]
  rfl

end PawnScope
