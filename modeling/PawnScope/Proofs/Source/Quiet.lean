import PawnScope.Proofs.Source.Blanking
import PawnScope.Proofs.Source.Lines
import PawnScope.Proofs.Token.Joining
/-!
Texts in which no comment opens and every literal is closed. A line of this kind is read as it stands and
leaves nothing open but braces: `Line.readFrom_quiet`.
-/

namespace PawnScope

/-- No comment opens in the text, and its literals are closed. -/
structure Quiet (text : Text) : Prop where
  uncommented : ∀ region ∈ Mode.code.regions text, region.isKept = true
  closed : Mode.code.after text = .code

instance (text : Text) : Decidable (Quiet text) :=
  decidable_of_iff ((∀ region ∈ Mode.code.regions text, region.isKept = true) ∧
      Mode.code.after text = .code)
    ⟨fun ⟨uncommented, closed⟩ => ⟨uncommented, closed⟩, fun ⟨uncommented, closed⟩ =>
      ⟨uncommented, closed⟩⟩

/-- A character that begins no literal, is in no comment's opener, and in no line end. -/
structure IsPlain (c : Char) : Prop where
  unquoted : isQuote c = false
  unslashed : c ≠ '/'
  inLine : c ≠ '\n' ∧ c ≠ '\r'

theorem isPlain_blank : IsPlain ' ' :=
  ⟨by decide, by decide, by decide⟩

theorem isPlain_of_part [Alphabets] {c : Char} (part : Identifier.isTokenPart c = true) : IsPlain c := by
  have other {d : Char} (apart : Identifier.isTokenPart d = false) : c ≠ d := by
    rintro rfl
    rw [apart] at part
    contradiction
  have double : c ≠ '"' := other rfl
  have single : c ≠ '\'' := other rfl
  exact ⟨by simp [isQuote, double, single], other rfl, other rfl, other rfl⟩

theorem Token.IsIdentifier.isPlain [Alphabets] {word : Text} (name : Token.IsIdentifier word) :
    ∀ c ∈ word, IsPlain c := by
  obtain ⟨d, rest, -, -, parts, -⟩ := name.cons
  exact fun c member => isPlain_of_part (parts c member)

namespace Mode

variable {mode : Mode} {c : Char} {text rest : Text}

/-! ## Texts one behind the other -/

/-- A text that does not begin a comment with what follows it. -/
def Apart (text rest : Text) : Prop :=
  text.getLast? = some '/' → rest.head? ≠ some '/' ∧ rest.head? ≠ some '*'

/-- In a literal the reader knows its quote. -/
def Proper : Mode → Prop
  | literal quote | escaped quote => isQuote quote = true
  | _ => True

theorem step_proper (proper : mode.Proper) (c : Char) (rest : Text) :
    (mode.step c rest).2.Proper := by
  unfold step
  unfold Proper at *
  grind

/-- What follows a text without comments does not matter to how it is read. -/
theorem step_append (proper : mode.Proper) (kept : (mode.step c text).1.isKept = true)
    (ends : text = [] → (mode.step c text).2 = .code) (apart : Apart (c :: text) rest) :
    mode.step c (text ++ rest) = mode.step c text := by
  have slash : text = [] → c = '/' → rest.head? ≠ some '/' ∧ rest.head? ≠ some '*' := by
    rintro rfl rfl
    exact apart rfl
  have escape : isQuote c = true → isEscape c = false := Token.isEscape_of_isQuote
  cases text with
  | nil =>
    have closed := ends rfl
    cases mode <;> simp only [step, Proper, List.nil_append, List.head?_nil] at * <;>
      grind [Region.isKept]
  | cons d text =>
    cases mode <;> simp only [step, List.cons_append, List.head?_cons] at kept ⊢ <;>
      grind [Region.isKept]

theorem read_append (proper : mode.Proper)
    (kept : ∀ region ∈ mode.regions text, region.isKept = true) (ends : mode.after text = .code)
    (apart : Apart text rest) :
    mode.regions (text ++ rest) = mode.regions text ++ Mode.code.regions rest ∧
      mode.after (text ++ rest) = Mode.code.after rest := by
  induction text generalizing mode with
  | nil =>
    obtain rfl : mode = .code := ends
    exact ⟨rfl, rfl⟩
  | cons c text ih =>
    rw [regions_cons] at kept
    obtain ⟨here, behind⟩ := List.forall_mem_cons.mp kept
    have same : mode.step c (text ++ rest) = mode.step c text := by
      refine step_append proper here ?_ apart
      rintro rfl
      exact ends
    have apart' : Apart text rest := by
      intro last
      refine apart ?_
      rw [List.getLast?_cons, last]
      rfl
    obtain ⟨regions, after⟩ := ih (step_proper proper c text) behind ends apart'
    rw [List.cons_append, regions_cons, regions_cons, Mode.after, same, regions, after]
    exact ⟨rfl, rfl⟩

end Mode

namespace Quiet

variable {text rest : Text}

theorem append (quiet : Quiet text) (behind : Quiet rest) (apart : Mode.Apart text rest) :
    Quiet (text ++ rest) := by
  have proper : Mode.code.Proper := trivial
  obtain ⟨regions, after⟩ := Mode.read_append proper quiet.uncommented quiet.closed apart
  refine ⟨fun region member => ?_, after.trans behind.closed⟩
  rw [regions] at member
  exact (List.mem_append.mp member).elim (quiet.uncommented region) (behind.uncommented region)

theorem of_plain (plain : ∀ c ∈ text, IsPlain c) : Quiet text := by
  induction text with
  | nil => exact ⟨by simp [Mode.regions], rfl⟩
  | cons c text ih =>
    obtain ⟨here, behind⟩ := List.forall_mem_cons.mp plain
    obtain ⟨uncommented, closed⟩ := ih behind
    have step : Mode.code.step c text = (.code, .code) := by
      simp [Mode.step, here.unquoted, here.unslashed]
    refine ⟨?_, ?_⟩
    · rw [Mode.regions_cons, step]
      exact List.forall_mem_cons.mpr ⟨rfl, uncommented⟩
    · rwa [Mode.after, step]

end Quiet

/-! ## The tokens of a quiet text -/

namespace Mode

variable {mode next last : Mode} {c quote : Char} {text more body rest : Text}

/-- Reading `text` in `mode` leads to `next`, if no comment opens. -/
def Leads (mode : Mode) (text : Text) (next : Mode) : Prop :=
  ∀ rest, (∀ region ∈ mode.regions (text ++ rest), region.isKept = true) →
    (∀ region ∈ next.regions rest, region.isKept = true) ∧ mode.after (text ++ rest) = next.after rest

theorem Leads.append (first : Leads mode text next) (second : Leads next more last) :
    Leads mode (text ++ more) last := by
  intro rest kept
  rw [List.append_assoc] at kept ⊢
  obtain ⟨kept', after⟩ := first _ kept
  obtain ⟨kept'', after'⟩ := second _ kept'
  exact ⟨kept'', after.trans after'⟩

theorem leads_singleton
    (step : ∀ rest, (mode.step c rest).1.isKept = true → (mode.step c rest).2 = next) :
    Leads mode [c] next := by
  intro rest kept
  rw [List.singleton_append, regions_cons] at kept
  obtain ⟨here, behind⟩ := List.forall_mem_cons.mp kept
  rw [List.singleton_append, after, ← step rest here]
  exact ⟨behind, rfl⟩

theorem leads_code (plain : isQuote c = false) : Leads .code [c] .code := by
  refine leads_singleton fun rest kept => ?_
  simp only [step, plain] at kept ⊢
  grind [Region.isKept]

theorem leads_plain (plain : ∀ c ∈ text, isQuote c = false) : Leads .code text .code := by
  induction text with
  | nil => exact fun rest kept => ⟨kept, rfl⟩
  | cons c text ih =>
    obtain ⟨here, behind⟩ := List.forall_mem_cons.mp plain
    exact (leads_code here).append (ih behind)

theorem leads_open (quotes : isQuote quote = true) : Leads .code [quote] (.literal quote) :=
  leads_singleton fun rest _ => by simp [step, quotes]

theorem leads_close (quotes : isQuote quote = true) : Leads (.literal quote) [quote] .code :=
  leads_singleton fun rest _ => by simp [step, Token.isEscape_of_isQuote quotes]

theorem leads_body (inside : Token.LiteralBody quote body) :
    Leads (.literal quote) body (.literal quote) := by
  induction inside with
  | nil => exact fun rest kept => ⟨kept, rfl⟩
  | plain other free more ih =>
    exact (leads_singleton fun rest _ => by simp [step, free, other]).append ih
  | @escaped c d body escapes inside more ih =>
    have pair : Leads (.literal quote) [c, d] (.literal quote) := by
      intro rest kept
      have first : step (.literal quote) c (d :: rest) = (.literal, .escaped quote) := by
        simp [step, escapes]
      rw [List.cons_append, List.singleton_append, regions_cons, first] at kept
      rw [List.cons_append, List.singleton_append, after, first]
      exact ⟨(List.forall_mem_cons.mp (List.forall_mem_cons.mp kept).2).2, rfl⟩
    exact pair.append ih

end Mode

/-- The literals of a text without comments are closed, if it does not end in one. -/
theorem Token.Cut.closed_of_quiet {base : Nat} {line : Text} {tokens : List Token}
    (cut : Token.Cut base line tokens) (quiet : Quiet line) :
    ∀ token ∈ tokens, token.isLiteral = true → token.Closed := by
  have behind {front rest : Text} (leads : Mode.Leads .code front .code)
      (quiet : Quiet (front ++ rest)) : Quiet rest := by
    obtain ⟨uncommented, after⟩ := leads rest quiet.uncommented
    exact ⟨uncommented, after ▸ quiet.closed⟩
  induction cut with
  | nil => simp
  | @gap base c rest tokens blank later ih =>
    have plain := Token.isQuote_of_isStructural (Token.isStructural_of_isGap blank)
    exact ih (behind (Mode.leads_code plain) quiet)
  | plain start other filled flat later ih =>
    refine List.forall_mem_cons.mpr ⟨fun literal => ?_, ih (behind (Mode.leads_plain flat.isQuote) quiet)⟩
    rw [other] at literal
    contradiction
  | closed start literal quotes inside text later ih =>
    have leads := ((Mode.leads_open quotes).append (Mode.leads_body inside)).append
      (Mode.leads_close quotes)
    rw [List.singleton_append, List.cons_append, ← text] at leads
    exact List.forall_mem_cons.mpr ⟨fun _ => ⟨_, _, quotes, inside, text⟩, ih (behind leads quiet)⟩
  | @unclosed base token quote body start literal quotes inside text =>
    -- The reader is still in the literal at the end.
    have leads := (Mode.leads_open quotes).append (Mode.leads_body inside)
    rw [List.singleton_append, ← text] at leads
    have after := (leads [] (by simpa using quiet.uncommented)).2
    rw [List.append_nil, quiet.closed] at after
    contradiction
  | @lone base token last quote c body start literal quotes inside text escapes kind next written =>
    have leads := (Mode.leads_open quotes).append (Mode.leads_body inside)
    rw [List.singleton_append, ← text] at leads
    have after := (leads [c] quiet.uncommented).2
    have other : c ≠ quote := by
      rintro rfl
      rw [isEscape_of_isQuote quotes] at escapes
      contradiction
    rw [quiet.closed, Mode.after, Mode.step, if_neg (by simp), if_neg other] at after
    contradiction

theorem Quiet.closed_ofLine [Alphabets] {text : Text} (quiet : Quiet text) (single : '\n' ∉ text) :
    ∀ token ∈ Token.ofLine text, token.isLiteral = true → token.Closed :=
  ((Token.lexed_ofLine text).cut single).closed_of_quiet quiet

/-! ## Quiet lines -/

theorem blankComments_of_kept {raw : Text} {regions : List Region}
    (long : regions.length = raw.length) (kept : ∀ region ∈ regions, region.isKept = true) :
    blankComments raw regions = raw := by
  induction raw generalizing regions with
  | nil => rfl
  | cons c rest ih =>
    cases regions with
    | nil => contradiction
    | cons region regions =>
      obtain ⟨here, behind⟩ := List.forall_mem_cons.mp kept
      have later := ih (Nat.succ.inj long) behind
      rw [blankComments, List.zipWith_cons_cons, if_pos here, ← blankComments, later]

/-- Where no comment is there is no doc comment. -/
theorem Doc.ended_read {regions : List Region}
    (kept : ∀ region ∈ regions, region.isKept = true) (body raw : Text) :
    (Doc.read body raw regions).ended = none := by
  have step (reading : Reading) (pair : Char × Region) (kept : pair.2.isKept = true) :
      (reading.step pair.1 pair.2).ended = reading.ended := by
    obtain ⟨c, region⟩ := pair
    cases region <;> first | rfl | contradiction
  have run (pairs : List (Char × Region)) (kept : ∀ pair ∈ pairs, pair.2.isKept = true)
      (reading : Reading) :
      (pairs.foldl (fun reading pair => reading.step pair.1 pair.2) reading).ended =
        reading.ended := by
    induction pairs generalizing reading with
    | nil => rfl
    | cons pair pairs ih =>
      obtain ⟨here, behind⟩ := List.forall_mem_cons.mp kept
      rw [List.foldl_cons, ih behind, step reading pair here]
  exact run _ (fun pair member => kept pair.2 (List.of_mem_zip member).2) _

namespace Line

/-- A line as it is read where nothing is open, if no comment opens in it. -/
def quiet (number : Nat) (raw : Text) : Line :=
  ⟨number, raw, raw, none, 0⟩

/-- Quiet lines, one below the other. -/
def quietLines (number : Nat) : List Text → List Line
  | [] => []
  | raw :: rest => quiet number raw :: quietLines (number + 1) rest

theorem length_quietLines (number : Nat) (raws : List Text) :
    (quietLines number raws).length = raws.length := by
  induction raws generalizing number with
  | nil => rfl
  | cons raw rest ih => rw [quietLines, List.length_cons, ih, List.length_cons]

theorem ofRaw_quiet {raw : Text} (still : Quiet raw) (number : Nat) :
    ofRaw number 0 .none raw = (quiet number raw, .none) := by
  have blank := blankComments_of_kept (Mode.length_regions _ raw) still.uncommented
  have doc := Doc.ended_read still.uncommented [] raw
  simp only [ofRaw, OpenComment.mode, OpenComment.body, blank, doc, still.closed]
  rfl

/-- Lines without comments, with all braces closed. -/
structure Calm [Alphabets] (raw : Text) : Prop where
  still : Quiet raw
  braces : braceDepth 0 (Token.ofLine raw) = 0
  unended : raw.getLast? ≠ some '\r'

theorem readFrom_quiet [Alphabets] {raws : List Text} (calm : ∀ raw ∈ raws, Calm raw) (number : Nat) :
    readFrom number .nothing raws = quietLines number raws := by
  induction raws generalizing number with
  | nil => rfl
  | cons raw rest ih =>
    obtain ⟨here, behind⟩ := List.forall_mem_cons.mp calm
    have written : withoutReturn raw = raw := if_neg here.unended
    have next : Opened.nothing.next raw = .nothing := by
      simp only [Opened.next, Opened.nothing, written, ofRaw_quiet here.still]
      simp only [quiet, here.braces]
    rw [readFrom_cons, next, ih behind, quietLines, written]
    exact congrArg (Prod.fst · :: _) (ofRaw_quiet here.still number)

end Line

end PawnScope
