import PawnScope.Identifier.European
import PawnScope.Proofs.Declaration.Directive
import PawnScope.Proofs.Source.Names
/-!
The span of what a `#define` defines. It is taken from the joined lines of the directive, but counted on
the first of them, so it holds the name if and only if the name is written on that line:
`Outline.ofText_span_define`.
-/

namespace PawnScope

open Identifier (isTokenPart)

/-! ## Stretches of a line in the text -/

namespace Line

variable {line : Line} {text front name rest : Text}

/-- What stands in the code of a line without a blank stands in the text at the offset of its position. -/
theorem slice_ofText [Alphabets] (member : line ∈ ofText text)
    (stands : line.code = front ++ (name ++ rest))
    (solid : ∀ c ∈ name, c ≠ ' ') :
    text.slice ((LineTable.ofText text).offset ⟨line.number, front.length⟩)
      ((LineTable.ofText text).offset ⟨line.number, front.length + name.length⟩) = name := by
  have code := code_ofText member
  obtain ⟨tail, upper, lower, place, -⟩ := exists_lineAt member
  rw [code] at stands
  have long : front.length + name.length ≤ line.raw.length := by
    rw [← length_blankComments (openedAt text line.number).comment.mode line.raw, stands,
      List.length_append, List.length_append]
    omega
  have long' : front.length + name.length ≤ (line.raw ++ tail).length := by
    rw [List.length_append]
    omega
  have size : name.length ≤ (line.raw.drop front.length).length := by
    rw [List.length_drop]
    omega
  rw [place.offset_eq long', place.offset_eq (Nat.le_trans (Nat.le_add_right _ _) long'), Text.slice,
    Nat.add_sub_add_left, Nat.add_sub_cancel_left, place.whole, List.drop_length_add_append,
    List.append_assoc, List.drop_append_of_le_length (Nat.le_trans (Nat.le_add_right _ _) long),
    List.take_append_of_le_length size]
  exact slice_of_blankComments stands solid

/-- The name that a definition on the line defines is written on the line. -/
def Names [Alphabets] (line : Line) : Prop :=
  ∃ first name tokens, Token.ofLine line.code = first :: name :: tokens ∧ Directive.Opens first name

end Line

/-! ## Joined lines -/

namespace Outline

/-- What stands before the blank of a joined line stays as it is. -/
theorem exists_joinDirective (front t : Text) (lines : List Line) :
    ∃ t', (joinDirective (front ++ ' ' :: t) lines).2 = front ++ ' ' :: t' := by
  induction lines generalizing t with
  | nil => exact ⟨t, rfl⟩
  | cons next rest ih =>
    rw [joinDirective]
    split
    case isFalse => exact ⟨t, rfl⟩
    case isTrue last =>
      have filled : t ≠ [] := by
        rintro rfl
        simp at last
      obtain ⟨t', same⟩ := ih (t.dropLast ++ ' ' :: Text.trim next.code)
      refine ⟨t', ?_⟩
      rw [List.dropLast_append_of_ne_nil (List.cons_ne_nil _ _), List.dropLast_cons_of_ne_nil filled,
        List.append_assoc, List.cons_append]
      exact same

/--
The code of a line, and the directive that is joined from it and the lines below: they agree on `front`,
behind which the line has only blanks, and before them a backslash if it is joined.
-/
structure Joined [Alphabets] (code directive front behind other : Text) : Prop where
  code : code = front ++ behind
  directive : directive = front ++ other
  apart : ∀ c ∈ behind, isTokenPart c = false
  blank : ∀ c ∈ behind.tail, isBlank c = true
  first : ∀ c ∈ other.head?, c = ' '

theorem exists_joined [Alphabets] (code : Text) (lines : List Line) :
    ∃ front behind other,
      Joined code (joinDirective (Text.trimEnd code) lines).2 front behind other := by
  obtain ⟨blanks, whole, blank⟩ := Text.exists_trimEnd code
  have apart : ∀ c ∈ blanks, isTokenPart c = false := fun c member =>
    Bool.eq_false_iff.mpr fun part =>
      Bool.false_ne_true ((Identifier.isBlank_of_isTokenPart part).symm.trans (blank c member))
  have alone : Joined code (Text.trimEnd code) (Text.trimEnd code) blanks [] :=
    ⟨whole, (List.append_nil _).symm, apart, fun c member => blank c (List.mem_of_mem_tail member),
      by simp⟩
  cases lines with
  | nil => exact ⟨_, _, _, alone⟩
  | cons next rest =>
    rw [joinDirective]
    split
    case isFalse => exact ⟨_, _, _, alone⟩
    case isTrue last =>
      obtain ⟨t', same⟩ := exists_joinDirective (Text.trimEnd code).dropLast (Text.trim next.code) rest
      have ends := List.dropLast_append_getLast? _ last
      refine ⟨(Text.trimEnd code).dropLast, '\\' :: blanks, ' ' :: t', ?_, same, ?_, blank, by simp⟩
      · rw [← List.singleton_append, ← List.append_assoc, ends]
        exact whole
      · exact List.forall_mem_cons.mpr ⟨rfl, apart⟩

namespace Joined

variable {line : Line} {code directive front behind other : Text} {first name : Token} {tokens : List Token}

/-- A name on the line is the name of the directive. -/
theorem opening_of_names [Alphabets] (joined : Joined code directive front behind other)
    (opening : Token.ofLine code = first :: name :: tokens) (opens : Directive.Opens first name) :
    name.stop ≤ front.length ∧ ∃ tokens', Token.ofLine directive = first :: name :: tokens' := by
  have member : name ∈ Token.ofLine code := by simp [opening]
  rw [joined.code] at opening member
  have inside := Token.stop_le_of_identifier member opens.named joined.apart
  rw [joined.directive]
  refine ⟨inside, Token.ofLine_opening opening opens.directive opens.named inside fun c first => ?_⟩
  rw [joined.first c first]
  rfl

/-- The name of a directive is on its first line, or behind all that is written there. -/
theorem names_or_blank [Alphabets] (joined : Joined line.code directive front behind other)
    (opening : Token.ofLine directive = first :: name :: tokens) (opens : Directive.Opens first name) :
    (∃ tokens', Token.ofLine line.code = first :: name :: tokens') ∨
      ¬line.Names ∧ Text.allBlank (line.code.drop name.start) = true := by
  have member : name ∈ Token.ofLine directive := by simp [opening]
  rw [joined.directive] at member
  have stops : ∀ c ∈ other.head?, isTokenPart c = false := fun c first => by
    rw [joined.first c first]
    rfl
  rcases Token.apart_of_identifier member opens.named stops with inside | past
  · left
    rw [joined.directive] at opening
    rw [joined.code]
    refine Token.ofLine_opening opening opens.directive opens.named inside fun c first => ?_
    exact joined.apart c (List.mem_of_head? first)
  · right
    refine ⟨?_, ?_⟩
    · rintro ⟨first', name', tokens', opening', opens'⟩
      obtain ⟨inside, tokens'', same⟩ := joined.opening_of_names opening' opens'
      rw [opening] at same
      obtain ⟨rfl, rfl, -⟩ : first = first' ∧ name = name' ∧ tokens = tokens'' := by simpa using same
      have filled := Token.start_lt_stop_of_mem member
      omega
    · obtain ⟨count, size⟩ := Nat.exists_eq_add_of_lt past
      rw [joined.code, size, Nat.add_assoc, List.drop_length_add_append, Text.allBlank,
        List.all_eq_true]
      intro c member
      refine joined.blank c ?_
      rw [← List.drop_one]
      rw [Nat.add_comm, ← List.drop_drop] at member
      exact List.mem_of_mem_drop member

end Joined

end Outline

/-! ## Definitions -/

/-- The name that an entry defines as a constant or as a macro, and its span. -/
def Entry.defined? : Entry → Option (Text × Span)
  | .constant found => some (found.name, found.span)
  | .callable found => if found.kind = .template then some (found.name, found.span) else none
  | .inclusion _ | .global _ => none

namespace Statement

variable {site : Site} {statement : Statement} {line : Line} {following : List Line}

/-- Names are defined by directives. -/
theorem of_defined_mem {entry : Entry} {name : Text} {span : Span} (member : entry ∈ statement.entries site)
    (defines : entry.defined? = some (name, span)) :
    ∃ found start, statement = directive found ∧ found.defined? = some (name, start) ∧
      span = site.nameSpan start name := by
  cases mem_entries_iff.mp member with
  | inclusion | function | global => contradiction
  | template | constant =>
    cases defines
    exact ⟨_, _, rfl, rfl, rfl⟩

theorem recognize?_of_read [Alphabets] {found : Directive}
    (stated : (read line following).2 = directive found) :
    Directive.recognize? (Outline.joinDirective (Text.trimEnd line.code) following).2 =
      some found := by
  rw [read] at stated
  split at stated
  case isTrue => contradiction
  case isFalse =>
    split at stated
    case isTrue =>
      dsimp only at stated
      cases recognized : Directive.recognize?
          (Outline.joinDirective (Text.trimEnd line.code) following).2 with
      | none =>
        rw [recognized] at stated
        contradiction
      | some other =>
        rw [recognized] at stated
        cases stated
        rfl
    case isFalse =>
      dsimp only at stated
      cases joined : (Outline.joinList line.code 0 following).2 with
      | none =>
        rw [joined] at stated
        contradiction
      | some other =>
        rw [joined] at stated
        contradiction

end Statement

namespace Outline

/-- A constant or a macro, with its span. -/
def Defines (outline : Outline) (name : Text) (span : Span) : Prop :=
  (∃ constant ∈ outline.constants, constant.name = name ∧ constant.span = span) ∨
    ∃ callable ∈ outline.callables,
      callable.kind = .template ∧ callable.name = name ∧ callable.span = span

instance (outline : Outline) (name : Text) (span : Span) : Decidable (outline.Defines name span) :=
  inferInstanceAs (Decidable (_ ∨ _))

variable {file : SourceId} {text name : Text} {skipStatic : Bool} {span : Span}

/-- What is defined comes from a directive that begins on the line of its span. -/
theorem recognized_of_defines [Alphabets] (defines : (ofText file text skipStatic).Defines name span) :
    ∃ line ∈ Line.ofText text, ∃ following directive start,
      Directive.recognize? (joinDirective (Text.trimEnd line.code) following).2 = some directive ∧
        directive.defined? = some (name, start) ∧ span = .onLine line.number start name.length := by
  have entered : ∃ entry ∈ Progress.start.all file skipStatic (Line.ofText text),
      entry.defined? = some (name, span) := by
    rw [ofText_eq] at defines
    rcases defines with ⟨constant, member, rfl, rfl⟩ | ⟨callable, member, kind, rfl, rfl⟩
    · exact ⟨_, constant_mem_of_putAll member, rfl⟩
    · exact ⟨_, callable_mem_of_putAll member, if_pos kind⟩
  obtain ⟨entry, member, defined⟩ := entered
  obtain ⟨line, inside, following, doc, stated⟩ := Progress.mem_all member
  obtain ⟨directive, start, reads, names, span⟩ := Statement.of_defined_mem stated defined
  exact ⟨line, inside, following, directive, start, Statement.recognize?_of_read reads, names, span⟩

/--
The span of a constant or a macro begins on the line that its directive begins on. It holds the name if the
name is written on that line. If it is written further down, in a line that the directive goes on over, the
span holds no code at all.
-/
theorem ofText_span_define [Alphabets] (defines : (ofText file text skipStatic).Defines name span) :
    let buffer := Buffer.ofText text
    ∃ line, (Line.ofText text)[span.start.line]? = some line ∧
      (line.Names →
        buffer.chars.slice (buffer.lines.offset span.start) (buffer.lines.offset span.stop) = name) ∧
      (¬line.Names → Text.allBlank (line.code.drop span.start.column) = true) := by
  obtain ⟨line, member, following, directive, start, recognized, defined, rfl⟩ :=
    recognized_of_defines defines
  obtain ⟨first, token, tokens, opening, opens, rfl, rfl⟩ :=
    Directive.exists_opening recognized defined
  obtain ⟨front, behind, other, joined⟩ := exists_joined line.code following
  obtain ⟨index, found⟩ := List.mem_iff_getElem?.mp member
  obtain rfl := Line.number_ofText found
  refine ⟨line, found, ?_⟩
  rcases joined.names_or_blank opening opens with ⟨tokens', here⟩ | ⟨unnamed, blank⟩
  · refine ⟨fun _ => ?_, fun unnamed => absurd ⟨first, token, tokens', here, opens⟩ unnamed⟩
    have member' : token ∈ Token.ofLine line.code := by simp [here]
    obtain ⟨above, rest, stands, start⟩ := Token.stands_of_mem member'
    rw [start]
    refine Line.slice_ofText member stands fun c letter => ?_
    rintro rfl
    exact Bool.noConfusion (Token.parts_of_identifier member' opens.named ' ' letter)
  · exact ⟨fun names => absurd names unnamed, fun _ => blank⟩

open scoped Identifier.European

/-- A macro behind a comment, whose body goes on over a second line. -/
theorem ofText_span_define_joined :
    let text := "/* \u00e9 */ #define MAX(%1,%2) \\\n\t((%1) > (%2))".toList
    (ofText ⟨"f.sma".toList⟩ text false).Defines "MAX".toList ⟨⟨0, 16⟩, ⟨0, 19⟩⟩ ∧
      Text.slice text 16 19 = "MAX".toList := by
  intro text
  have defines : (ofText ⟨"f.sma".toList⟩ text false).Defines "MAX".toList ⟨⟨0, 16⟩, ⟨0, 19⟩⟩ := by
    decide +kernel
  have first : (Line.ofText text)[0]? = some ⟨0, "/* \u00e9 */ #define MAX(%1,%2) \\".toList,
      "        #define MAX(%1,%2) \\".toList, none, 0⟩ := by
    decide +kernel
  have start : (LineTable.ofText text).offset ⟨0, 16⟩ = 16 := by decide +kernel
  have stop : (LineTable.ofText text).offset ⟨0, 19⟩ = 19 := by decide +kernel
  obtain ⟨line, found, named, -⟩ := ofText_span_define defines
  obtain rfl := Option.some.inj (first.symm.trans found)
  dsimp only [Buffer.ofText] at named
  rw [start, stop] at named
  exact ⟨defines, named ⟨_, _, _, rfl, rfl, by decide, rfl⟩⟩

/-- The name is written behind the line break, but the span is on the line before it. -/
theorem ofText_span_define_below :
    ¬∀ (file : SourceId) (text name : Text) (skipStatic : Bool) (span : Span),
      (ofText file text skipStatic).Defines name span →
      let buffer := Buffer.ofText text
      buffer.chars.slice (buffer.lines.offset span.start) (buffer.lines.offset span.stop) = name := by
  intro always
  have defines : (ofText ⟨"f.sma".toList⟩ "#define \\\nFOO 1".toList false).Defines "FOO".toList
      ⟨⟨0, 9⟩, ⟨0, 12⟩⟩ := by
    decide +kernel
  exact absurd (always _ _ _ _ _ defines) (by decide +kernel)

end Outline

end PawnScope
