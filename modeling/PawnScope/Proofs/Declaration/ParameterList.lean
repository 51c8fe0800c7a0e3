import PawnScope.Declaration.Prototype
import PawnScope.Proofs.Declaration.Groups
import PawnScope.Proofs.Parameter.Pieces
import PawnScope.Proofs.Source.Quiet
/-!
Cutting a parameter list gives back the parameters that it was printed from: `Parameter.split_printList`.
-/

namespace PawnScope

open Token (isStructural LiteralBody)

namespace Parameter

variable {nesting : Nesting} {c : Char} {text rest first : Text} {more : List Text} {depth : Nat}

/-! ## Pieces -/

/-- Outside literals, at `depth`. -/
def Nesting.code (depth : Nat) : Nesting :=
  ⟨depth, none, false⟩

theorem Nesting.step_plain (plain : isStructural c = false) (depth : Nat) :
    (Nesting.code depth).separates c = false ∧ (Nesting.code depth).step c = .code depth := by
  have other : ∀ d, isStructural d = true → c ≠ d := by
    rintro d structural rfl
    rw [plain] at structural
    contradiction
  have quotes : isQuote c = false := by
    simp [isQuote, other '"' rfl, other '\'' rfl]
  simp [separates, step, code, quotes, other ',' rfl, other '(' rfl, other ')' rfl, other '[' rfl,
    other ']' rfl, other '{' rfl, other '}' rfl]

theorem pieces_plain (plain : ∀ c ∈ text, isStructural c = false)
    (behind : pieces (.code depth) rest = first :: more) :
    pieces (.code depth) (text ++ rest) = (text ++ first) :: more := by
  induction text with
  | nil => exact behind
  | cons c text ih =>
    obtain ⟨here, below⟩ := List.forall_mem_cons.mp plain
    obtain ⟨inside, same⟩ := Nesting.step_plain here depth
    exact pieces_cons inside same (ih below)

theorem Nesting.separates_literal (depth : Nat) (quote c : Char) (escaped : Bool) :
    Nesting.separates ⟨depth, some quote, escaped⟩ c = false := by
  simp [separates]

theorem pieces_body {quote : Char} {body : Text} (inside : LiteralBody quote body)
    (behind : pieces ⟨depth, some quote, false⟩ rest = first :: more) :
    pieces ⟨depth, some quote, false⟩ (body ++ rest) = (body ++ first) :: more := by
  induction inside with
  | nil => exact behind
  | plain other plain _ ih =>
    exact pieces_cons (Nesting.separates_literal _ _ _ _) (by simp [Nesting.step, plain, other]) ih
  | @escaped c _ _ escapes _ _ ih =>
    have step : Nesting.step ⟨depth, some quote, false⟩ c = ⟨depth, some quote, true⟩ := by
      simp [Nesting.step, escapes]
    exact pieces_cons (Nesting.separates_literal _ _ _ _) step
      (pieces_cons (Nesting.separates_literal _ _ _ _) rfl ih)

theorem pieces_literal {quote : Char} {body : Text} (quotes : isQuote quote = true)
    (inside : LiteralBody quote body) (behind : pieces (.code depth) rest = first :: more) :
    pieces (.code depth) (quote :: (body ++ [quote]) ++ rest) =
      (quote :: (body ++ [quote]) ++ first) :: more := by
  have comma : quote ≠ ',' := by
    rintro rfl
    contradiction
  have closing : pieces ⟨depth, some quote, false⟩ (quote :: rest) = (quote :: first) :: more := by
    refine pieces_cons (Nesting.separates_literal _ _ _ _) ?_ behind
    simp [Nesting.step, Nesting.code, Token.isEscape_of_isQuote quotes]
  have opened : (Nesting.code depth).step quote = ⟨depth, some quote, false⟩ := by
    simp [Nesting.step, Nesting.code, quotes]
  have inner := pieces_body inside closing
  rw [List.append_cons, List.append_cons body quote first] at inner
  exact pieces_cons (by simp [Nesting.separates, comma]) opened inner

theorem total_ne_zero {groups : Groups} (inside : groups ≠ .top) : groups.total ≠ 0 := by
  intro nothing
  obtain ⟨parens, brackets, braces⟩ := groups
  simp only [Groups.total, Nat.add_eq_zero_iff] at nothing
  obtain ⟨⟨rfl, rfl⟩, rfl⟩ := nothing
  exact inside rfl

/-- A mark that does not separate parameters. -/
theorem pieces_mark {groups next : Groups} {afterAssign : Bool} {token : Token} {mark : Char}
    (step : groups.next? afterAssign token = some next)
    (marks : Token.mark? token.kind = some mark)
    (behind : pieces (.code next.total) rest = first :: more) :
    pieces (.code groups.total) (mark :: rest) = (mark :: first) :: more := by
  refine pieces_cons ?_ ?_ behind
  · cases kind : token.kind <;> simp only [Token.mark?, kind] at marks <;> cases marks <;>
      simp [Groups.next?, kind, Nesting.separates, Nesting.code] at step ⊢
    exact total_ne_zero step.1
  · cases kind : token.kind <;> simp only [Token.mark?, kind] at marks <;> cases marks <;>
      simp [Groups.next?, kind, Nesting.step, Nesting.code, Groups.total, isQuote] at step ⊢ <;>
      grind

theorem next?_of_unmarked {groups next : Groups} {afterAssign : Bool} {token : Token}
    (unmarked : Token.mark? token.kind = none) (step : groups.next? afterAssign token = some next) :
    next = groups := by
  cases kind : token.kind <;> simp [Token.mark?, kind] at unmarked <;>
    simpa [Groups.next?, kind] using step.symm

theorem mark?_of_isLiteral {token : Token} (literal : token.isLiteral = true) :
    Token.mark? token.kind = none := by
  simp only [Token.isLiteral, Bool.or_eq_true, beq_iff_eq] at literal
  rcases literal with kind | kind <;> rw [kind] <;> rfl

/-- Over a parameter no comma separates others. -/
theorem pieces_cut {base : Nat} {line : Text} {tokens : List Token} {groups after : Groups}
    {afterAssign : Bool} (cut : Token.Cut base line tokens)
    (closed : ∀ token ∈ tokens, token.isLiteral = true → token.Closed)
    (run : groups.after? afterAssign tokens = some after)
    (behind : pieces (.code after.total) rest = first :: more) :
    pieces (.code groups.total) (line ++ rest) = (line ++ first) :: more := by
  induction cut generalizing groups afterAssign with
  | nil =>
    obtain rfl := Option.some.inj run
    exact behind
  | @gap base c line tokens blank later ih =>
    obtain ⟨inside, step⟩ := Nesting.step_plain (Token.isStructural_of_isGap blank) groups.total
    exact pieces_cons inside step (ih closed run)
  | @plain base token line tokens start other filled flat later ih =>
    obtain ⟨next, step, run'⟩ := Option.bind_eq_some_iff.mp run
    have later := ih (List.forall_mem_cons.mp closed).2 run'
    rw [List.append_assoc, List.append_assoc]
    cases marks : Token.mark? token.kind with
    | none =>
      obtain rfl := next?_of_unmarked marks step
      exact pieces_plain (flat.plain marks) later
    | some mark =>
      rw [flat.marked mark marks]
      exact pieces_mark step marks later
  | @closed base token quote body line tokens start literal quotes inside text later ih =>
    obtain ⟨next, step, run'⟩ := Option.bind_eq_some_iff.mp run
    obtain rfl := next?_of_unmarked (mark?_of_isLiteral literal) step
    have later := ih (List.forall_mem_cons.mp closed).2 run'
    rw [List.append_assoc, List.append_assoc, text]
    exact pieces_literal quotes inside later
  | unclosed start literal quotes inside text =>
    exact absurd (closed _ List.mem_cons_self literal) (Token.not_closed inside quotes text)
  | lone start literal quotes inside text =>
    exact absurd (closed _ List.mem_cons_self literal) (Token.not_closed inside quotes text)

/-! ## Parameters -/

/--
A parameter as it can be printed. It is trimmed and stands on one line, no comment opens in it and its
literals are closed. Its groups are balanced, with no comma outside them, no semicolon, and an outermost
brace only behind a `=`. It does not begin like a directive or another declaration.
-/
structure Proper [Alphabets] (parameter : Text) : Prop where
  filled : parameter ≠ []
  trimmed : parameter.trim = parameter
  single : '\n' ∉ parameter
  quiet : Quiet parameter
  grouped : Groups.top.after? false (Token.ofLine parameter) = some .top
  begins : ∀ first ∈ (Token.ofLine parameter).head?, first.kind ≠ .directive ∧
    (Declaration.isSpecifier first = true → first.isWord Declaration.constWord = true)

instance [Alphabets] (parameter : Text) : Decidable (Proper parameter) :=
  decidable_of_iff (parameter ≠ [] ∧ parameter.trim = parameter ∧ '\n' ∉ parameter ∧
      Quiet parameter ∧ Groups.top.after? false (Token.ofLine parameter) = some .top ∧
      ∀ first ∈ (Token.ofLine parameter).head?, first.kind ≠ .directive ∧
        (Declaration.isSpecifier first = true → first.isWord Declaration.constWord = true))
    ⟨fun ⟨filled, trimmed, single, quiet, grouped, begins⟩ =>
        ⟨filled, trimmed, single, quiet, grouped, begins⟩,
      fun ⟨filled, trimmed, single, quiet, grouped, begins⟩ =>
        ⟨filled, trimmed, single, quiet, grouped, begins⟩⟩

variable {parameter : Text} {parameters : List Text}

/-- A blank before a parameter is trimmed. -/
theorem Proper.trim [Alphabets] {front : Text} (proper : Proper parameter)
    (blank : front = [] ∨ front = [' ']) :
    Text.trim (front ++ parameter) = parameter := by
  rcases blank with rfl | rfl <;> exact proper.trimmed

/-- A parameter with or without a blank before it is a piece by itself. -/
theorem Proper.pieces [Alphabets] {front : Text} (proper : Proper parameter)
    (blank : front = [] ∨ front = [' '])
    (behind : pieces .top rest = [] :: more) :
    Parameter.pieces .top (front ++ (parameter ++ rest)) = (front ++ parameter) :: more := by
  have here : Parameter.pieces .top (parameter ++ rest) = parameter :: more := by
    have cut := (Token.lexed_ofLine parameter).cut proper.single
    rw [← List.append_nil parameter, List.append_assoc]
    exact pieces_cut cut (proper.quiet.closed_ofLine proper.single) proper.grouped behind
  rcases blank with rfl | rfl
  · exact here
  · exact pieces_cons rfl rfl here

/-- A blank before the parameters of a list does not matter. -/
theorem split_blank [Alphabets] {front : Text} (blank : front = [] ∨ front = [' '])
    (proper : ∀ other ∈ parameter :: parameters, Proper other) :
    split (front ++ printList [] (parameter :: parameters)) = parameter :: parameters := by
  induction parameters generalizing front parameter with
  | nil =>
    have proper := List.forall_mem_singleton.mp proper
    have single : pieces .top ([] : Text) = [] :: [] := rfl
    have cut := proper.pieces blank single
    rw [List.append_nil] at cut
    simp [split, printList, cut, proper.trim blank, proper.filled]
  | cons next rest ih =>
    obtain ⟨here, behind⟩ := List.forall_mem_cons.mp proper
    have later := ih (.inr rfl) behind
    have comma : pieces .top (',' :: ' ' :: printList [] (next :: rest)) =
        [] :: pieces .top (' ' :: printList [] (next :: rest)) := rfl
    have cut := here.pieces blank comma
    have list : printList [] (parameter :: next :: rest) =
        parameter ++ ',' :: ' ' :: printList [] (next :: rest) := rfl
    rw [split, list, cut, List.map_cons, here.trim blank,
      List.filter_cons_of_pos (by simp [here.filled])]
    exact congrArg _ later

theorem split_printList [Alphabets] (proper : ∀ parameter ∈ parameters, Proper parameter) :
    split (printList [] parameters) = parameters := by
  cases parameters with
  | nil => rfl
  | cons parameter rest => exact split_blank (.inl rfl) proper

end Parameter

end PawnScope
