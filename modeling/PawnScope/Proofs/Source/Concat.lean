import PawnScope.Identifier.European
import PawnScope.Proofs.Source.Entries
/-!
Texts one below the other, however malformed the upper one is: `Outline.ofText_above_below` — the
outline of both is the outline of the upper text with that of the lower text put below it.

Nothing may be open where the lower text begins. For a block and a comment that is what the reader of
lines hands on, for a doc comment what the reader of statements hands on. A parameter list cannot go
on over the first line of the lower text. A directive goes on if the upper text ends in a backslash,
and blanks after the backslash do not matter: `Outline.ofText_blank_after_backslash`.
-/

namespace PawnScope

namespace Line

/-- The first token of the line begins a directive, or is a specifier other than `const`. -/
def Begins [Alphabets] (line : Line) : Prop :=
  ∃ first ∈ (Token.ofLine line.code).head?,
    first.kind = .directive ∨
      Declaration.isSpecifier first = true ∧ first.isWord Declaration.constWord = false

instance [Alphabets] (line : Line) : Decidable line.Begins :=
  inferInstanceAs (Decidable (∃ first ∈ (Token.ofLine line.code).head?, _))

theorem Begins.stops [Alphabets] {line : Line} (begins : line.Begins) : Outline.Stops line := by
  rintro ⟨-, goesOn⟩
  obtain ⟨first, found, kind⟩ := begins
  rw [Declaration.continuesList] at goesOn
  cases tokens : Token.ofLine line.code with
  | nil => simp [tokens] at found
  | cons token rest =>
    obtain rfl : token = first := by simpa [tokens] using found
    rcases kind with directive | ⟨specifier, other⟩
    · simp [tokens, directive] at goesOn
    · simp [tokens, specifier, other] at goesOn

end Line

namespace Outline

instance (lines : List Line) : Decidable (Unbroken lines) :=
  inferInstanceAs (Decidable (∀ line ∈ lines.getLast?, _))

variable {above below : Text}

/--
The outline of two texts one below the other, if nothing is open at the end of the upper one and the
lower one begins with a directive or a declaration.
-/
theorem ofText_above_below [Alphabets] (file : SourceId) (skipStatic : Bool)
    (closed : Line.openedAfter above = .nothing)
    (spent : (Progress.start.after (Line.ofText above)).doc = none)
    (unbroken : Unbroken (Line.ofText above))
    (begins : ∀ first ∈ (Line.ofText below).head?, first.Begins) :
    ofText file (above ++ '\n' :: below) skipStatic =
      (ofText file above skipStatic).append
        ((ofText file below skipStatic).down (Line.ofText above).length) := by
  have stops : ∀ first ∈ ((Line.ofText below).map (Line.down (Line.ofText above).length)).head?,
      Stops first := by
    intro first found
    rw [List.head?_map, Option.mem_def, Option.map_eq_some_iff] at found
    obtain ⟨line, upper, rfl⟩ := found
    exact (begins line upper).stops
  have fresh : Progress.start.after (Line.ofText above) = .start := by
    have skip : (Progress.start.after (Line.ofText above)).skip = 0 :=
      Progress.after_skip (Nat.zero_le _)
    rw [Progress.start, Progress.mk.injEq]
    exact ⟨skip, spent⟩
  rw [ofText_eq, Line.ofText_append closed,
    Progress.all_append file skipStatic (Statement.detached (fun _ => unbroken) stops), fresh,
    Progress.all_down, putAll_append, ← ofText_eq, putAll_eq_append, ofText_eq file skipStatic below]
  exact congrArg _ (putAll_down empty _)

open scoped Identifier.European

/-- The upper text may end in a parameter list that nobody has closed. -/
theorem ofText_below_open_list :
    ofText ⟨"f.sma".toList⟩ ("new x;\nstock half(a,".toList ++ '\n' :: "new y;".toList) false =
      (ofText ⟨"f.sma".toList⟩ "new x;\nstock half(a,".toList false).append
        ((ofText ⟨"f.sma".toList⟩ "new y;".toList false).down 2) :=
  ofText_above_below _ _ (by decide +kernel) (by decide +kernel) (by decide +kernel)
    (by decide +kernel)

/-- It is not enough that the upper text does not end in a backslash: blanks may follow one. -/
theorem ofText_blank_after_backslash :
    ¬∀ (file : SourceId) (skipStatic : Bool) (above below : Text),
      Line.openedAfter above = .nothing →
      (Progress.start.after (Line.ofText above)).doc = none →
      (∀ line ∈ (Line.ofText above).getLast?, line.code.getLast? ≠ some '\\') →
      (∀ first ∈ (Line.ofText below).head?, first.Begins) →
      ofText file (above ++ '\n' :: below) skipStatic =
        (ofText file above skipStatic).append
          ((ofText file below skipStatic).down (Line.ofText above).length) := by
  intro always
  have same := always ⟨"f.sma".toList⟩ false "#define X \\ ".toList "new y;".toList
    (by decide +kernel) (by decide +kernel) (by decide +kernel) (by decide +kernel)
  exact absurd same (by decide +kernel)

end Outline

end PawnScope
