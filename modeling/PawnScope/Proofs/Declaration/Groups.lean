import PawnScope.Declaration.Head
import PawnScope.Proofs.Token.Joining
import PawnScope.Source.Line
/-!
The groups that the tokens of a parameter open and close. Every reader of a list counts some of them:
the search for its closing parenthesis, the test whether a line goes on with it, the count of braces.
Over a parameter they all come to what `Groups.after?` says: `Groups.closing?_append`,
`Groups.goesOn_append` and `Groups.braceDepth_after`.
-/

namespace PawnScope

/-- How many groups of each kind are open. -/
structure Groups where
  parens : Nat
  brackets : Nat
  braces : Nat
deriving DecidableEq, Repr

namespace Groups

def top : Groups :=
  ⟨0, 0, 0⟩

/-- How many groups are open at all. -/
def total (groups : Groups) : Nat :=
  groups.parens + groups.brackets + groups.braces

/--
What is open after a token of a parameter. Nothing is closed that is not open, no comma separates
parameters and no semicolon ends the statement, and an outermost brace opens only directly behind a `=`.
-/
def next? (groups : Groups) (afterAssign : Bool) (token : Token) : Option Groups :=
  match token.kind with
  | .openParen => some { groups with parens := groups.parens + 1 }
  | .closeParen =>
    if groups.parens = 0 then none else some { groups with parens := groups.parens - 1 }
  | .openBracket => some { groups with brackets := groups.brackets + 1 }
  | .closeBracket =>
    if groups.brackets = 0 then none else some { groups with brackets := groups.brackets - 1 }
  | .openBrace =>
    if afterAssign || groups.braces != 0 then some { groups with braces := groups.braces + 1 }
    else none
  | .closeBrace =>
    if groups.braces = 0 then none else some { groups with braces := groups.braces - 1 }
  | .comma => if groups = top then none else some groups
  | .semicolon => none
  | _ => some groups

/-- What is open after tokens of a parameter. -/
def after? (groups : Groups) (afterAssign : Bool) : List Token → Option Groups
  | [] => some groups
  | token :: rest => (groups.next? afterAssign token).bind (·.after? token.isAssign rest)

variable {groups next after : Groups} {afterAssign : Bool} {token : Token} {tokens : List Token}

theorem closing?_cons (step : groups.next? afterAssign token = some next) (rest : List Token) :
    Declaration.closing? (groups.parens + 1) (token :: rest) =
      Declaration.closing? (next.parens + 1) rest := by
  rw [Declaration.closing?]
  cases kind : token.kind <;> simp [next?, kind] at step <;> grind

theorem closing?_append (run : groups.after? afterAssign tokens = some after) (rest : List Token) :
    Declaration.closing? (groups.parens + 1) (tokens ++ rest) =
      Declaration.closing? (after.parens + 1) rest := by
  induction tokens generalizing groups afterAssign with
  | nil =>
    obtain rfl := Option.some.inj run
    rfl
  | cons token tokens ih =>
    obtain ⟨next, step, later⟩ := Option.bind_eq_some_iff.mp run
    rw [List.cons_append, closing?_cons step, ih later]

theorem goesOn_cons (step : groups.next? afterAssign token = some next) (rest : List Token) :
    Declaration.Continuation.goesOn ⟨groups.parens, groups.braces, afterAssign⟩ (token :: rest) =
      Declaration.Continuation.goesOn ⟨next.parens, next.braces, token.isAssign⟩ rest := by
  rw [Declaration.Continuation.goesOn]
  cases kind : token.kind <;> simp [next?, kind] at step <;> grind

theorem goesOn_append (run : groups.after? afterAssign tokens = some after) (rest : List Token) :
    ∃ afterAssign', Declaration.Continuation.goesOn ⟨groups.parens, groups.braces, afterAssign⟩
        (tokens ++ rest) =
      Declaration.Continuation.goesOn ⟨after.parens, after.braces, afterAssign'⟩ rest := by
  induction tokens generalizing groups afterAssign with
  | nil =>
    obtain rfl := Option.some.inj run
    exact ⟨afterAssign, rfl⟩
  | cons token tokens ih =>
    obtain ⟨next, step, later⟩ := Option.bind_eq_some_iff.mp run
    obtain ⟨last, same⟩ := ih later
    exact ⟨last, by rw [List.cons_append, goesOn_cons step, same]⟩

theorem braceDepth_singleton (step : groups.next? afterAssign token = some next) :
    Line.braceDepth groups.braces [token] = next.braces := by
  simp only [Line.braceDepth, List.foldl_cons, List.foldl_nil]
  cases kind : token.kind <;> simp [next?, kind] at step <;> grind

theorem braceDepth_after (run : groups.after? afterAssign tokens = some after) :
    Line.braceDepth groups.braces tokens = after.braces := by
  induction tokens generalizing groups afterAssign with
  | nil =>
    obtain rfl := Option.some.inj run
    rfl
  | cons token tokens ih =>
    obtain ⟨next, step, later⟩ := Option.bind_eq_some_iff.mp run
    rw [← ih later, ← braceDepth_singleton step]
    rfl

/-- Where the tokens stand does not matter. -/
theorem after?_move (groups : Groups) (afterAssign : Bool) (tokens : List Token) (count : Nat) :
    groups.after? afterAssign (tokens.map (Token.move count)) = groups.after? afterAssign tokens := by
  induction tokens generalizing groups afterAssign with
  | nil => rfl
  | cons token tokens ih =>
    rw [List.map_cons, after?, after?]
    exact congrArg _ (funext fun next => ih next token.isAssign)

end Groups

end PawnScope
