import PawnScope.Declaration.Head
/-!
The shape of a line of code: what its tokens make of it before a parameter list is read. Whether more
lines can follow matters only for the shape of a function, and there only while the list is open:
`recognize_complete`.
-/

namespace PawnScope.Declaration

/-- What the tokens of a line of code make of it. -/
inductive Shape where
  | nothing
  | globals (specifiers : List Text) (declared : List Token)
  /-- A function that starts at offset `start`; the tokens `rest` follow its opening parenthesis. -/
  | function (start : Nat) (specifiers : List Text) (name opener : Token) (rest : List Token)
deriving DecidableEq, Repr

namespace Shape

def ofTokens (tokens : List Token) : Shape :=
  let specifiers := (tokens.takeWhile isSpecifier).map Token.text
  let declared := tokens.dropWhile isSpecifier
  match dropTag declared with
  | [] => nothing
  | name :: rest =>
    if !canName name then nothing
    else
      match rest with
      | [] => globals specifiers declared
      | opener :: rest =>
        if opener.kind ≠ .openParen then globals specifiers declared
        else if marksNew specifiers then nothing
        else function ((tokens.head?.map Token.start).getD name.start) specifiers name opener rest

/-- The shape as a line of code. -/
def recognize (code : Text) (complete : Bool) : Shape → Recognition
  | nothing => .nothing
  | globals specifiers declared => ofDeclarators code specifiers declared
  | function start specifiers name opener rest =>
    ofPrototype code start specifiers name opener rest complete

end Shape

theorem recognize_eq [Alphabets] (code : Text) (complete : Bool) :
    recognize code complete = (Shape.ofTokens (Token.ofLine code)).recognize code complete := by
  rw [recognize, Shape.ofTokens]
  generalize dropTag ((Token.ofLine code).dropWhile isSpecifier) = named
  cases named with
  | nil => rfl
  | cons name rest =>
    dsimp only
    split
    · rfl
    · cases rest with
      | nil => rfl
      | cons opener rest =>
        dsimp only
        split
        · rfl
        · split <;> rfl

theorem ofDeclarators_ne_unfinished (code : Text) (specifiers : List Text) (declared : List Token) :
    ofDeclarators code specifiers declared ≠ .unfinished := by
  rw [ofDeclarators]
  split
  · split <;> exact Recognition.noConfusion
  · exact Recognition.noConfusion

/-- Only an open parameter list waits for more, and with nothing to follow it is taken as it is. -/
theorem ofPrototype_complete (code : Text) (start : Nat) (specifiers : List Text)
    (name opener : Token) (rest : List Token) :
    ∃ head, ofPrototype code start specifiers name opener rest true = .found (.function head) ∧
      ofPrototype code start specifiers name opener rest false =
        if (closing? 1 rest).isNone then .unfinished else .found (.function head) := by
  simp only [ofPrototype, Bool.not_true, Bool.and_false, Bool.not_false, Bool.and_true]
  exact ⟨_, rfl, rfl⟩

theorem recognize_complete [Alphabets] (code : Text) (complete : Bool) :
    (recognize code complete = recognize code true ∧ recognize code true ≠ .unfinished) ∨
      (recognize code complete = .unfinished ∧
        ∃ head, recognize code true = .found (.function head)) := by
  rw [recognize_eq, recognize_eq]
  cases Shape.ofTokens (Token.ofLine code) with
  | nothing => exact .inl ⟨rfl, Recognition.noConfusion⟩
  | globals specifiers declared =>
    exact .inl ⟨rfl, ofDeclarators_ne_unfinished code specifiers declared⟩
  | function start specifiers name opener rest =>
    obtain ⟨head, found, waiting⟩ := ofPrototype_complete code start specifiers name opener rest
    simp only [Shape.recognize, found]
    cases complete with
    | true => exact .inl ⟨found, Recognition.noConfusion⟩
    | false =>
      rw [waiting]
      split
      · exact .inr ⟨rfl, head, rfl⟩
      · exact .inl ⟨rfl, Recognition.noConfusion⟩

end PawnScope.Declaration
