import PawnScope.Proofs.Declaration.ParameterList
/-!
Texts that stay inside one declarator: their brackets are balanced, their literals are closed, and no
comma or semicolon stands outside of both. The tokens of such a text are no other's than that declarator's,
whatever comes behind it: `Token.Lexed.enclosed`.
-/

namespace PawnScope

open Parameter (Nesting)
open Declaration (declarators groupDepth)

namespace Parameter.Nesting

/-! ## Characters -/

/-- Outside groups and literals a comma or a semicolon ends a declarator, and no group can be closed. -/
def leaves (nesting : Nesting) (c : Char) : Bool :=
  nesting.quote.isNone && nesting.depth == 0 && [',', ';', ')', ']', '}'].contains c

/-- Where a reader stands after a text that never leaves the declarator that it is in. -/
def within? (nesting : Nesting) : Text → Option Nesting
  | [] => some nesting
  | c :: rest => if nesting.leaves c then none else (nesting.step c).within? rest

variable {nesting last : Nesting} {c quote : Char} {text rest body : Text} {depth : Nat}

theorem within?_append (nesting : Nesting) (text rest : Text) :
    nesting.within? (text ++ rest) = (nesting.within? text).bind (·.within? rest) := by
  induction text generalizing nesting with
  | nil => rfl
  | cons c text ih =>
    rw [List.cons_append, within?, within?, ih]
    split <;> rfl

theorem within?_cons (stays : nesting.leaves c = false) (rest : Text) :
    nesting.within? (c :: rest) = (nesting.step c).within? rest := by
  rw [within?, stays, if_neg Bool.false_ne_true]

theorem leaves_of_quote (quote c : Char) (escaped : Bool) :
    Nesting.leaves ⟨depth, some quote, escaped⟩ c = false :=
  rfl

/-! ## Stretches -/

theorem within?_plain (plain : ∀ c ∈ text, Token.isStructural c = false) (rest : Text) :
    (code depth).within? (text ++ rest) = (code depth).within? rest := by
  induction text with
  | nil => rfl
  | cons c text ih =>
    obtain ⟨here, below⟩ := List.forall_mem_cons.mp plain
    have stays : (code depth).leaves c = false := by
      have marks : [',', ';', ')', ']', '}'].all Token.isStructural = true := by decide
      have other : [',', ';', ')', ']', '}'].contains c = false := by
        rw [List.contains_eq_mem, decide_eq_false_iff_not]
        intro member
        rw [List.all_eq_true.mp marks c member] at here
        contradiction
      rw [leaves, other, Bool.and_false]
    rw [List.cons_append, within?_cons stays, (step_plain here depth).2, ih below]

theorem within?_body (inside : Token.LiteralBody quote body) (rest : Text) :
    Nesting.within? ⟨depth, some quote, false⟩ (body ++ rest) =
      Nesting.within? ⟨depth, some quote, false⟩ rest := by
  induction inside with
  | nil => rfl
  | plain other plain _ ih =>
    rw [List.cons_append, within?_cons (leaves_of_quote _ _ _), ← ih]
    simp [step, plain, other]
  | escaped escapes _ _ ih =>
    rw [List.cons_append, within?_cons (leaves_of_quote _ _ _), List.cons_append, ← ih]
    simp [step, escapes, within?_cons (leaves_of_quote _ _ _)]

theorem within?_quote (quotes : isQuote quote = true) (rest : Text) :
    (code depth).within? (quote :: rest) = Nesting.within? ⟨depth, some quote, false⟩ rest := by
  have stays : (code depth).leaves quote = false := by
    rw [isQuote, Bool.or_eq_true, beq_iff_eq, beq_iff_eq] at quotes
    rcases quotes with rfl | rfl <;> simp [leaves]
  rw [within?_cons stays]
  simp [step, code, quotes]

theorem within?_literal (quotes : isQuote quote = true) (inside : Token.LiteralBody quote body)
    (rest : Text) :
    (code depth).within? (quote :: (body ++ [quote]) ++ rest) = (code depth).within? rest := by
  rw [List.cons_append, within?_quote quotes, List.append_assoc, within?_body inside,
    List.singleton_append, within?_cons (leaves_of_quote _ _ _)]
  simp [step, code, Token.isEscape_of_isQuote quotes]

/-- Within a literal a reader is still in it. -/
theorem within?_unclosed {front : Text} (inside : Token.LiteralBody quote body)
    (cut : front <+: body) :
    ∃ escaped, Nesting.within? ⟨depth, some quote, false⟩ front =
      some ⟨depth, some quote, escaped⟩ := by
  induction inside generalizing front with
  | nil =>
    obtain rfl := List.prefix_nil.mp cut
    exact ⟨false, rfl⟩
  | @plain c body other plain _ ih =>
    rcases List.prefix_cons_iff.mp cut with rfl | ⟨front, rfl, cut'⟩
    · exact ⟨false, rfl⟩
    · rw [within?_cons (leaves_of_quote _ _ _)]
      simpa [step, plain, other] using ih cut'
  | @escaped c d body escapes _ _ ih =>
    rcases List.prefix_cons_iff.mp cut with rfl | ⟨front, rfl, cut'⟩
    · exact ⟨false, rfl⟩
    · rw [within?_cons (leaves_of_quote _ _ _)]
      rcases List.prefix_cons_iff.mp cut' with rfl | ⟨front, rfl, cut''⟩
      · exact ⟨true, by simp [within?, step, escapes]⟩
      · rw [within?_cons (by simp [step, escapes, leaves_of_quote])]
        simpa [step, escapes] using ih cut''

/-! ## Modes -/

/-- What a reader of the whole line is inside of. -/
def mode : Nesting → Mode
  | ⟨_, none, _⟩ => .code
  | ⟨_, some quote, false⟩ => .literal quote
  | ⟨_, some quote, true⟩ => .escaped quote

/-- Where no comment opens both readers take the same steps; an escape needs a character behind it. -/
theorem step_mode (sane : nesting.Sane) (kept : (nesting.mode.step c rest).1.isKept = true)
    (followed : (nesting.step c).escaped = true → rest ≠ []) :
    (nesting.mode.step c rest).2 = (nesting.step c).mode := by
  obtain ⟨depth, quote, escaped⟩ := nesting
  obtain ⟨quotes, unescaped⟩ := sane
  have free : isQuote c = true → isEscape c = false := Token.isEscape_of_isQuote
  cases quote with
  | none =>
    obtain rfl : escaped = false := unescaped rfl
    simp only [mode, step, Mode.step] at *
    grind [Region.isKept, mode]
  | some quote => cases escaped <;> simp only [mode, step, Mode.step] at * <;> grind [mode]

/-- A reader of the line comes out of the text as it went in, if no comment opens. -/
theorem within?_leads (sane : nesting.Sane) (run : nesting.within? text = some .top) :
    Mode.Leads nesting.mode text .code := by
  induction text generalizing nesting with
  | nil =>
    obtain rfl := Option.some.inj run
    exact fun rest kept => ⟨kept, rfl⟩
  | cons c text ih =>
    cases stays : nesting.leaves c with
    | true => simp [within?, stays] at run
    | false =>
      rw [within?_cons stays] at run
      intro rest kept
      rw [List.cons_append, Mode.regions_cons] at kept
      obtain ⟨here, behind⟩ := List.forall_mem_cons.mp kept
      have followed : (nesting.step c).escaped = true → text ++ rest ≠ [] := by
        intro escaped nothing
        obtain ⟨rfl, -⟩ := List.append_eq_nil_iff.mp nothing
        rw [Option.some.inj run] at escaped
        contradiction
      have same := step_mode sane here followed
      rw [same] at behind
      rw [List.cons_append, Mode.after, same]
      exact ih (sane_step sane c) run rest behind

/-! ## Tokens -/

variable {token : Token}

theorem groupDepth_of_unmarked (unmarked : Token.mark? token.kind = none) (depth : Nat) :
    groupDepth depth token = depth := by
  rw [groupDepth]
  cases kind : token.kind <;> simp [Token.mark?, kind] at unmarked <;> rfl

/-- A mark that does not end the declarator counts for the reader as it does among the tokens. -/
theorem within?_mark {mark : Char} (marks : Token.mark? token.kind = some mark)
    (run : (code depth).within? (mark :: rest) = some last) :
    ¬(depth = 0 ∧ (token.kind = .comma ∨ token.kind = .semicolon)) ∧
      (code (groupDepth depth token)).within? rest = some last := by
  cases stays : (code depth).leaves mark with
  | true => simp [within?, stays] at run
  | false =>
    rw [within?_cons stays] at run
    cases kind : token.kind <;> simp only [Token.mark?, kind] at marks <;> cases marks <;>
      simp_all [leaves, code, step, groupDepth, isQuote]

/-- Over a whole token the reader counts what the token does. -/
theorem within?_token (whole : token.IsFlat ∨ token.isLiteral = true ∧ token.Closed)
    (run : (code depth).within? (token.text ++ rest) = some last) :
    ¬(depth = 0 ∧ (token.kind = .comma ∨ token.kind = .semicolon)) ∧
      (code (groupDepth depth token)).within? rest = some last := by
  have unmarked (unmarked : Token.mark? token.kind = none)
      (run : (code depth).within? rest = some last) :
      ¬(depth = 0 ∧ (token.kind = .comma ∨ token.kind = .semicolon)) ∧
        (code (groupDepth depth token)).within? rest = some last := by
    refine ⟨?_, by rwa [groupDepth_of_unmarked unmarked]⟩
    rintro ⟨-, kind | kind⟩ <;> rw [kind] at unmarked <;> contradiction
  rcases whole with flat | ⟨literal, quote, body, quotes, inside, text⟩
  · cases marks : Token.mark? token.kind with
    | none =>
      rw [within?_plain (flat.plain marks)] at run
      exact unmarked marks run
    | some mark =>
      rw [flat.marked mark marks] at run
      exact within?_mark marks run
  · rw [text, within?_literal quotes inside] at run
    exact unmarked (mark?_of_isLiteral literal) run

/-- A token does not go on over a mark at which all groups and literals are closed. -/
theorem within?_cut_short {front behind : Text} {mark : Char}
    (whole : token.IsFlat ∨ token.isLiteral = true ∧ token.Closed) (filled : front ≠ [])
    (text : token.text = front ++ mark :: behind) (structural : Token.isStructural mark = true) :
    (code depth).within? front ≠ some .top := by
  rcases whole with flat | ⟨-, quote, body, quotes, inside, text'⟩
  · cases marks : Token.mark? token.kind with
    | none =>
      have plain := flat.plain marks mark (by simp [text])
      rw [structural] at plain
      contradiction
    | some mark' =>
      have single := congrArg List.length (text.symm.trans (flat.marked mark' marks))
      have size := List.length_pos_iff.mpr filled
      simp only [List.length_append, List.length_cons, List.length_nil] at single
      omega
  · obtain ⟨c, front, rfl⟩ := List.exists_cons_of_ne_nil filled
    obtain ⟨rfl, same⟩ := List.cons.inj (text.symm.trans text')
    have cut : front <+: body := by
      refine List.prefix_of_prefix_length_le (List.prefix_append _ _) (same ▸ List.prefix_append _ _) ?_
      have size : (front ++ mark :: behind).length = (body ++ [c]).length :=
        congrArg List.length same
      rw [List.length_append, List.length_append, List.length_cons, List.length_singleton] at size
      omega
    obtain ⟨escaped, still⟩ := within?_unclosed inside cut
    rw [within?_quote quotes, still]
    exact fun same => by cases same

end Parameter.Nesting

/-- Balanced brackets, closed literals, and outside of them neither a comma nor a semicolon. -/
def Enclosed (text : Text) : Prop :=
  Nesting.top.within? text = some .top

instance (text : Text) : Decidable (Enclosed text) :=
  inferInstanceAs (Decidable (_ = _))

namespace Enclosed

variable {text rest : Text}

theorem nil : Enclosed [] :=
  rfl

theorem append (enclosed : Enclosed text) (behind : Enclosed rest) : Enclosed (text ++ rest) := by
  rw [Enclosed, Nesting.within?_append, enclosed]
  exact behind

theorem of_plain (plain : ∀ c ∈ text, Token.isStructural c = false) : Enclosed text := by
  have run : (Nesting.code 0).within? (text ++ []) = some .top := Nesting.within?_plain plain []
  rw [List.append_nil] at run
  exact run

theorem leads (enclosed : Enclosed text) : Mode.Leads .code text .code :=
  Nesting.within?_leads ⟨by simp [Nesting.top], fun _ => rfl⟩ enclosed

end Enclosed

namespace Declaration

/-- Tokens that from `depth` on go to one declarator, and behind which all groups are closed. -/
def Undivided (depth : Nat) (group : List Token) : Prop :=
  ∀ (rest first : List Token) (more : List (List Token)), declarators 0 rest = first :: more →
    declarators depth (group ++ rest) = (group ++ first) :: more

theorem Undivided.nil : Undivided 0 [] :=
  fun _ _ _ found => found

theorem Undivided.cons {depth : Nat} {token : Token} {group : List Token}
    (inside : ¬(depth = 0 ∧ (token.kind = .comma ∨ token.kind = .semicolon)))
    (undivided : Undivided (groupDepth depth token) group) : Undivided depth (token :: group) := by
  intro rest first more found
  have comma : ¬(depth = 0 ∧ token.kind = .comma) := fun here => inside ⟨here.1, .inl here.2⟩
  have semicolon : ¬(depth = 0 ∧ token.kind = .semicolon) := fun here => inside ⟨here.1, .inr here.2⟩
  rw [List.cons_append, declarators, if_neg comma, if_neg semicolon, undivided _ _ _ found]
  rfl

end Declaration

namespace Token

theorem Lexed.scan_eq [Alphabets] {base : Nat} {line : Text} {tokens : List Token}
    (lexed : Lexed base line tokens) : scan base 0 line = tokens := by
  induction lexed with
  | nil => rfl
  | gap blank later ih => rw [scan_gap blank, ih]
  | token solid found later ih =>
    rw [scan_token solid found, List.length_cons, Nat.add_comm _ 1, ← Nat.add_assoc, ih]

variable {base depth : Nat} {line text behind : Text} {mark : Char} {tokens : List Token}

theorem Lexed.enclosed_nil [Alphabets] (lexed : Lexed base (mark :: behind) tokens)
    (within : (Nesting.code depth).within? [] = some .top) :
    ∃ group, tokens = group ++ scan base 0 (mark :: behind) ∧
      Declaration.Undivided depth group := by
  obtain rfl : depth = 0 := congrArg Nesting.depth (Option.some.inj within)
  exact ⟨[], lexed.scan_eq.symm, Declaration.Undivided.nil⟩

/-- A text that never leaves a declarator has tokens of its own, which all go to that declarator. -/
theorem Lexed.enclosed [Alphabets] (lexed : Lexed base line tokens)
    (closed : ∀ token ∈ tokens, token.isLiteral = true → token.Closed)
    (whole : line = text ++ mark :: behind) (structural : isStructural mark = true)
    (within : (Nesting.code depth).within? text = some .top) :
    ∃ group, tokens = group ++ scan (base + text.length) 0 (mark :: behind) ∧
      Declaration.Undivided depth group := by
  induction lexed generalizing depth text with
  | nil => simp at whole
  | @gap base c line tokens blank later ih =>
    cases text with
    | nil => exact (whole ▸ Lexed.gap blank later).enclosed_nil within
    | cons d text =>
      obtain ⟨rfl, rest⟩ := List.cons.inj whole
      have plain : ∀ d ∈ [c], isStructural d = false :=
        List.forall_mem_singleton.mpr (isStructural_of_isGap blank)
      have within' : (Nesting.code depth).within? ([c] ++ text) = some .top := within
      rw [Nesting.within?_plain plain] at within'
      obtain ⟨group, same, undivided⟩ := ih closed rest within'
      refine ⟨group, ?_, undivided⟩
      rw [same, List.length_cons, Nat.add_comm text.length, ← Nat.add_assoc]
  | @token base c kind front line tokens solid found later ih =>
    cases text with
    | nil => exact (whole ▸ Lexed.token solid found later).enclosed_nil within
    | cons d text =>
      obtain ⟨rfl, rest⟩ := List.cons.inj whole
      obtain ⟨here, below⟩ := List.forall_mem_cons.mp closed
      have single : (⟨kind, c :: front, base⟩ : Token).IsFlat ∨
          isLiteral ⟨kind, c :: front, base⟩ = true ∧ Closed ⟨kind, c :: front, base⟩ := by
        cases literal : isLiteral ⟨kind, c :: front, base⟩ with
        | false => exact .inl (isFlat_of_longest found literal)
        | true => exact .inr ⟨rfl, here literal⟩
      -- The token ends before the mark, as nothing is open there.
      obtain ⟨more, rfl, rfl⟩ : ∃ more, text = front ++ more ∧ line = more ++ mark :: behind := by
        rcases List.append_eq_append_iff.mp rest with ⟨more, same, rest'⟩ | ⟨excess, same, rest'⟩
        · exact ⟨more, same, rest'⟩
        · cases excess with
          | nil => exact ⟨[], by simpa using same.symm, rest'.symm⟩
          | cons e excess =>
            obtain ⟨rfl, -⟩ := List.cons.inj rest'
            have text' : (⟨kind, c :: front, base⟩ : Token).text = (c :: text) ++ mark :: excess := by
              rw [same, List.cons_append]
            exact absurd within
              (Nesting.within?_cut_short single (List.cons_ne_nil _ _) text' structural)
      obtain ⟨inside, within'⟩ := Nesting.within?_token single within
      obtain ⟨group, same, undivided⟩ := ih below rfl within'
      refine ⟨_ :: group, ?_, undivided.cons inside⟩
      rw [same, List.length_cons, List.length_append, List.cons_append]
      congr 3
      omega

end Token

end PawnScope
