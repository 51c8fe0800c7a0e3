import PawnScope.Identifier.European
import PawnScope.Proofs.Declaration.Layout
import PawnScope.Proofs.Source.Entries
/-!
A printed prototype is read back from any layout: `Outline.ofText_print`. The lines of specifiers above
the name declare nothing (`Progress.all_join`), and the line of the name takes those of the list below
it (`Prototype.Proper.exists_joinList`).
-/

namespace PawnScope

open Declaration (specifierWords)
open Line (quiet quietLines)
open Outline (joinList maxListLines)

/-! ## Joining the list -/

namespace Prototype

variable {prototype : Prototype} {printed row : List Text} {more : List (List Text)} {ender : Text}
  {count : Nat}

/-- A line of parameters is joined to an open list, and the list then holds them. -/
theorem Proper.joinList_step [Alphabets] (proper : prototype.Proper) (filled : printed ≠ [])
    (filled' : row ≠ [])
    (parameters : ∀ parameter ∈ printed ++ row, Parameter.Proper parameter)
    (member : ender ∈ enders) (few : count < maxListLines) (number : Nat) (rest : List Line) :
    joinList (prototype.front ++ (printList [] printed ++ [','])) count
        (quiet number (printList [] row ++ ender) :: rest) =
      joinList (prototype.front ++ (printList [] (printed ++ row) ++ ender)) (count + 1) rest := by
  obtain ⟨above, here⟩ := List.forall_mem_append.mp parameters
  have early : decide (maxListLines ≤ count) = false := by simpa using few
  have goesOn := continuesList_line filled' here member
  have joined : prototype.front ++ (printList [] printed ++ [',']) ++
      ' ' :: (printList [] row ++ ender) =
      prototype.front ++ (printList [] (printed ++ row) ++ ender) := by
    rw [printList_append filled filled']
    simp
  rw [joinList, early, proper.recognize_open above]
  simp only [quiet, goesOn, and_self, if_true, joined]

theorem Proper.of_front [Alphabets] (proper : prototype.Proper) {rest : List Text}
    (whole : printed ++ rest = prototype.parameters) :
    ∀ parameter ∈ printed, Parameter.Proper parameter := by
  intro parameter member
  refine proper.parameters parameter ?_
  rw [← whole]
  exact List.mem_append_left _ member

/-- The lines of the list are joined until the last one closes it. -/
theorem Proper.joinList_lines [Alphabets] (proper : prototype.Proper) (filled : printed ≠ [])
    (whole : printed ++ row ++ more.flatten = prototype.parameters)
    (lines : ∀ line ∈ row :: more, line ≠ []) (few : count + more.length < maxListLines)
    (number : Nat) :
    joinList (prototype.front ++ (printList [] printed ++ [','])) count
        (quietLines number (listLines [] prototype.closing row more)) =
      (count + more.length + 1, some (.function prototype.head)) := by
  induction more generalizing printed row count number with
  | nil =>
    have here : row ≠ [] := lines row List.mem_cons_self
    have early : count < maxListLines := few
    have closed : prototype.closing ∈ enders := closing_mem_enders prototype
    have code : prototype.front ++ (printList [] (printed ++ row) ++ prototype.closing) =
        prototype.code := by
      rw [Prototype.code, ← whole, List.flatten_nil, List.append_nil]
    rw [listLines, List.nil_append, quietLines,
      proper.joinList_step filled here (proper.of_front whole) closed early, code, quietLines, joinList,
      proper.recognize_closed]
    rfl
  | cons next more ih =>
    have comma : [','] ∈ enders := by decide
    have whole' : printed ++ row ++ next ++ more.flatten = prototype.parameters := by
      rw [← whole, List.flatten_cons, List.append_assoc _ next]
    obtain ⟨here, below⟩ := List.forall_mem_cons.mp lines
    rw [List.length_cons] at few ⊢
    have later := ih (List.append_ne_nil_of_right_ne_nil _ here) whole' below
      (show count + 1 + more.length < maxListLines by omega) (number + 1)
    rw [listLines, List.nil_append, quietLines,
      proper.joinList_step filled here (proper.of_front whole) comma (by omega), later]
    congr 1
    omega

/-- The line of the name with those of the list below it. -/
theorem Proper.exists_joinList [Alphabets] (proper : prototype.Proper) {breaks : List Bool}
    (rows : LaysOut breaks prototype.parameters row more) (few : more.length ≤ maxListLines) :
    ∃ rest below, listLines prototype.front prototype.closing row more =
        (prototype.front ++ rest) :: below ∧
      ∀ number, (quietLines number below).length = more.length ∧
        joinList (prototype.front ++ rest) 0 (quietLines number below) =
          (more.length, some (.function prototype.head)) := by
  cases more with
  | nil =>
    have code : prototype.front ++ (printList [] row ++ prototype.closing) = prototype.code := by
      rw [Prototype.code, ← rows.whole, List.flatten_nil, List.append_nil]
    refine ⟨_, [], rfl, fun number => ⟨rfl, ?_⟩⟩
    rw [code, quietLines, joinList, proper.recognize_closed]
    rfl
  | cons next more =>
    have filled : row ≠ [] := by
      refine rows.first ?_
      rw [← rows.whole, List.flatten_cons]
      simp [rows.filled next List.mem_cons_self]
    have whole : row ++ next ++ more.flatten = prototype.parameters := by
      rw [← rows.whole, List.flatten_cons, List.append_assoc]
    refine ⟨_, _, rfl, fun number => ⟨?_, ?_⟩⟩
    · rw [Line.length_quietLines, length_listLines, List.length_cons]
    · rw [List.length_cons] at few ⊢
      rw [proper.joinList_lines filled whole rows.filled (by omega), Nat.zero_add]

end Prototype

/-! ## Reading the lines -/

namespace Progress

variable (file : SourceId) (skipStatic : Bool)

/-- A line that begins with a word declares what it and the lines below it join to. -/
theorem all_word [Alphabets] {text rest : Text} {c : Char} (begins : text = c :: rest)
    (part : Identifier.isTokenPart c = true) {following : List Line} {count : Nat}
    {declared : Option Declaration} (joined : joinList text 0 following = (count, declared))
    (number : Nat) :
    start.all file skipStatic (quiet number text :: following) =
      ((declared.map Statement.declaration).getD .nothing).entries
          ⟨file, skipStatic, quiet number text, none⟩ ++
        all file skipStatic ⟨count, none⟩ following := by
  have solid : isBlank c = false := Identifier.isBlank_of_isTokenPart part
  have hash : c ≠ '#' := by
    rintro rfl
    exact Bool.noConfusion part
  have filled : (quiet number text).code.allBlank = false := by
    simp [quiet, begins, Text.allBlank, solid]
  have undirected : (Text.trimStart (quiet number text).code).head? ≠ some '#' := by
    simp [quiet, begins, Text.trimStart, solid, hash]
  have read : Statement.read (quiet number text) following =
      (count, (declared.map Statement.declaration).getD .nothing) := by
    rw [Statement.read, if_neg (by simp [quiet]), if_neg undirected]
    simp only [quiet, joined]
  rw [all, next, entries, filled, read]
  rfl

/-- Lines that belong to a statement before have no entries. -/
theorem all_skipped [Alphabets] {skip : Nat} {lines : List Line} (few : lines.length ≤ skip)
    (doc : Option Text) : all file skipStatic ⟨skip, doc⟩ lines = [] :=
  all_of_blank file skipStatic (by simp [List.drop_eq_nil_of_le few]) doc

/-- Lines of specifiers have no entries, and none of them goes on. -/
theorem all_join [Alphabets] {rows : List (List Text)} (filled : ∀ row ∈ rows, row ≠ [])
    (specifiers : ∀ row ∈ rows, ∀ word ∈ row, word ∈ specifierWords) (raws : List Text)
    (number : Nat) :
    start.all file skipStatic (quietLines number (rows.map (Text.join [' ']) ++ raws)) =
      start.all file skipStatic (quietLines (number + rows.length) raws) := by
  induction rows generalizing number with
  | nil => rfl
  | cons row rows ih =>
    obtain ⟨here, below⟩ := List.forall_mem_cons.mp filled
    obtain ⟨words, words'⟩ := List.forall_mem_cons.mp specifiers
    obtain ⟨c, rest, begins, part⟩ := join_cons_part here words
    have nothing (lines : List Line) : joinList (Text.join [' '] row) 0 lines = (0, none) := by
      cases lines <;> rw [joinList, recognize_join words]
    rw [List.map_cons, List.cons_append, quietLines, all_word _ _ begins part (nothing _),
      List.length_cons, Nat.add_comm rows.length, ← Nat.add_assoc, ← ih below words']
    rfl

end Progress

namespace Prototype

variable {prototype : Prototype}

theorem Proper.fromName [Alphabets] (proper : prototype.Proper) (layout : Layout) :
    (prototype.fromName layout).Proper where
  specifiers word member := by
    refine proper.specifiers word ?_
    rw [← List.nil_append prototype.specifiers, ← flatten_wordRows [] layout.words]
    exact List.mem_append_right _ member
  tag := proper.tag
  name := proper.name
  parameters := proper.parameters

/-- With no line break among the specifiers the whole prototype stands behind the last one. -/
theorem fromName_of_unbroken {layout : Layout}
    (unbroken : true ∉ layout.words.take prototype.specifiers.length) :
    prototype.fromName layout = prototype ∧ prototype.linesAbove layout = 0 := by
  refine ⟨?_, List.count_eq_zero.mpr unbroken⟩
  rw [Prototype.fromName, lastRow_of_unbroken unbroken, List.nil_append]

/-- The function that a prototype declares, with its name on the line `number`. -/
def callable (prototype : Prototype) (file : SourceId) (number : Nat) : Callable where
  name := prototype.name
  label := prototype.label
  isTemplate := false
  file := file
  span := .onLine number prototype.column prototype.name.length
  parameters := prototype.parameters
  documentation := none
  isPrototype := Declaration.marksPrototype prototype.specifiers
  isStatic := Declaration.marksStatic prototype.specifiers

/-- The lines of a printed prototype. -/
theorem Proper.split_print [Alphabets] (proper : prototype.Proper) (layout : Layout) {row : List Text}
    {more : List (List Text)} (rows : LaysOut layout.list prototype.parameters row more) :
    Text.split '\n' (prototype.print layout) =
      (wordRows [] layout.words prototype.specifiers).map (Text.join [' ']) ++
        listLines (prototype.fromName layout).front prototype.closing row more := by
  have words : ∀ word ∈ [] ++ prototype.specifiers, Token.IsIdentifier word := fun word member =>
    isIdentifier_of_specifier word (proper.specifiers word member).1
  have single : '\n' ∉ (prototype.fromName layout).front := fun member =>
    ((proper.fromName layout).isPlain_front _ member).inLine.1 rfl
  have single' : '\n' ∉ prototype.closing :=
    single_of_mem_enders _ (closing_mem_enders prototype)
  calc Text.split '\n' (prototype.print layout)
      = (wordRows [] layout.words prototype.specifiers).map (Text.join [' ']) ++
          Text.split '\n' (printWords [] (lastRow [] layout.words prototype.specifiers) ++
            (printTag prototype.tag ++ (prototype.name ++ '(' ::
              (printList layout.list prototype.parameters ++ prototype.closing)))) :=
        split_printWords words layout.words _
    _ = (wordRows [] layout.words prototype.specifiers).map (Text.join [' ']) ++
          Text.split '\n' ((prototype.fromName layout).front ++
            (printList layout.list prototype.parameters ++ prototype.closing)) := by
        rw [front, List.append_assoc, List.append_assoc, List.append_assoc]
        rfl
    _ = _ := by rw [rows.lines _ _ single single']

theorem Proper.specifier_of_mem_wordRows [Alphabets] (proper : prototype.Proper) (breaks : List Bool) :
    ∀ row ∈ wordRows [] breaks prototype.specifiers, ∀ word ∈ row, word ∈ specifierWords := by
  intro row member word inside
  refine (proper.specifiers word ?_).1
  rw [← List.nil_append prototype.specifiers, ← flatten_wordRows [] breaks]
  exact List.mem_append_left _ (List.mem_flatten.mpr ⟨row, member, inside⟩)

/-- No comment opens on a line of a printed prototype, and none leaves a brace open. -/
theorem Proper.calm_print [Alphabets] (proper : prototype.Proper) (layout : Layout) {row : List Text}
    {more : List (List Text)} (rows : LaysOut layout.list prototype.parameters row more) :
    ∀ line ∈ Text.split '\n' (prototype.print layout), Line.Calm line := by
  have lines : ∀ line ∈ row :: more, ∀ parameter ∈ line, Parameter.Proper parameter := by
    intro line member parameter inside
    refine proper.parameters parameter ?_
    rw [← rows.whole, ← List.flatten_cons]
    exact List.mem_flatten.mpr ⟨line, member, inside⟩
  rw [proper.split_print layout rows, List.forall_mem_append]
  refine ⟨fun line member => ?_, ?_⟩
  · obtain ⟨words, above, rfl⟩ := List.mem_map.mp member
    exact calm_join (proper.specifier_of_mem_wordRows layout.words words above)
  · exact calm_listLines (proper.fromName layout).opening (closing_mem_enders prototype) lines

end Prototype

/-! ## Reading a printed prototype -/

namespace Outline

variable {prototype : Prototype}

theorem putAll_head (prototype : Prototype) (file : SourceId) (skipStatic : Bool) (number : Nat)
    (text : Text) :
    empty.putAll ((Statement.declaration (.function prototype.head)).entries
        ⟨file, skipStatic, quiet number text, none⟩) =
      let callable := prototype.callable file number
      { empty with callables := if callable.isStatic && skipStatic then [] else [callable] } := by
  have entries : (Statement.declaration (.function prototype.head)).entries
      ⟨file, skipStatic, quiet number text, none⟩ =
      if prototype.head.isStatic && skipStatic then []
      else [.callable (prototype.callable file number)] := rfl
  have same : (prototype.callable file number).isStatic = prototype.head.isStatic := rfl
  rw [entries]
  dsimp only
  rw [same]
  cases prototype.head.isStatic && skipStatic <;> rfl

/--
A prototype is read back from any layout with no more line breaks in its list than a list may go on for.
What is read is the function on the line of the name, with the whole list. Specifiers above that line do
not belong to it; if there are none, it is the function that was printed.
-/
theorem ofText_print [Alphabets] (proper : prototype.Proper) (layout : Layout)
    (few : layout.list.count true ≤ maxListLines) (file : SourceId) (skipStatic : Bool) :
    (ofText file (prototype.print layout) skipStatic =
      let callable := (prototype.fromName layout).callable file (prototype.linesAbove layout)
      { empty with callables := if callable.isStatic && skipStatic then [] else [callable] }) ∧
    (true ∉ layout.words.take prototype.specifiers.length →
      prototype.fromName layout = prototype ∧ prototype.linesAbove layout = 0) := by
  refine ⟨?_, Prototype.fromName_of_unbroken⟩
  have proper' := proper.fromName layout
  have single : ∀ parameter ∈ prototype.parameters, '\n' ∉ parameter := fun parameter member =>
    (proper.parameters parameter member).single
  obtain ⟨row, more, rows⟩ := exists_laysOut layout.list single
  obtain ⟨rest, below, lines, joins⟩ := proper'.exists_joinList rows (rows.few.trans few)
  obtain ⟨size, joined⟩ := joins (prototype.linesAbove layout + 1)
  obtain ⟨c, behind, begins, part⟩ := proper'.front_cons
  have name : (prototype.fromName layout).front ++ rest = c :: (behind ++ rest) := by
    rw [begins, List.cons_append]
  have closing : (prototype.fromName layout).closing = prototype.closing := rfl
  rw [ofText_eq, Line.ofText_eq, Line.readFrom_quiet (proper.calm_print layout rows),
    proper.split_print layout rows,
    Progress.all_join _ _ ne_nil_of_mem_wordRows (proper.specifier_of_mem_wordRows layout.words),
    ← closing, lines, length_wordRows, Nat.zero_add, ← Prototype.linesAbove, quietLines,
    Progress.all_word _ _ name part joined, Progress.all_skipped _ _ size.le, List.append_nil]
  exact putAll_head _ _ _ _ _

/-- Groups in the defaults, and literals with commas and parentheses. -/
def spread : Prototype where
  specifiers := ["public", "stock"].map String.toList
  tag := some "Float".toList
  name := "area".toList
  parameters := ["const grid[2][2] = \x7b\x7b1, 2\x7d, \x7b3, 4\x7d\x7d", "text[] = \"a,(b\"",
    "end = ')'", "Float:scale = max(f(1), 2)", "..."].map String.toList
  isEnded := true

open scoped Identifier.European

theorem ofText_print_spread :
    let layout : Layout := ⟨[true, false], [true, false, true, true]⟩
    spread.Proper ∧ layout.list.count true ≤ maxListLines ∧
      spread.print layout = Text.join ['\n'] (["public",
        "stock Float:area(const grid[2][2] = \x7b\x7b1, 2\x7d, \x7b3, 4\x7d\x7d,",
        "text[] = \"a,(b\", end = ')',", "Float:scale = max(f(1), 2),", "...);"].map String.toList) ∧
      ofText ⟨"f.sma".toList⟩ (spread.print layout) false = { empty with callables := [{
        name := "area".toList
        label := "stock Float:area(const grid[2][2] = \x7b\x7b1, 2\x7d, \x7b3, 4\x7d\x7d, ".toList ++
          "text[] = \"a,(b\", end = ')', Float:scale = max(f(1), 2), ...)".toList
        isTemplate := false
        file := ⟨"f.sma".toList⟩
        span := .onLine 1 12 4
        parameters := spread.parameters
        documentation := none
        isPrototype := false
        isStatic := false }] } ∧
      true ∉ ([false, false] : List Bool).take spread.specifiers.length ∧
      spread.fromName ⟨[false, false], layout.list⟩ = spread := by
  have proper : spread.Proper := by decide +kernel
  have few : [true, false, true, true].count true ≤ maxListLines := by decide
  have unbroken : true ∉ ([false, false] : List Bool).take spread.specifiers.length := by decide
  exact ⟨proper, few, by decide, (ofText_print proper _ few _ false).1, unbroken,
    ((ofText_print proper _ few ⟨[]⟩ false).2 unbroken).1⟩

/-- A line break behind a specifier is not like a blank: the label is without the specifier. -/
theorem ofText_print_below_specifier :
    ¬∀ (prototype : Prototype) (layout : Layout) (file : SourceId), prototype.Proper →
      layout.words.count true + layout.list.count true ≤ maxListLines →
      (ofText file (prototype.print layout) false).callables.map Callable.label =
        [prototype.label] := by
  intro always
  have same := always ⟨["stock".toList], none, "foo".toList, ["a".toList], false⟩ ⟨[true], []⟩
    ⟨"f.sma".toList⟩ (by decide +kernel) (by decide)
  exact absurd same (by decide +kernel)

end Outline

end PawnScope
