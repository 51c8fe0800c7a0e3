import PawnScope.Identifier.European
import PawnScope.Proofs.Cursor.Parentheses
import PawnScope.Proofs.Scope.Lookup
import PawnScope.Proofs.Table
import PawnScope.Query.Completion
/-!
What is offered for a word: each label once for each kind, of whatever is in scope and begins with the word,
in the order of the scope (`Query.completions_completes`). And when nothing is offered for the parentheses
of the line: `Query.completions_parens`.
-/

namespace PawnScope

/-! ## Prefixes -/

namespace Text

variable {text front : Text} {count : Nat}

theorem takeBytes?_zero (text : Text) : takeBytes? 0 text = some [] := by
  cases text <;> rfl

/-- As many bytes as the front of a text has are its front. -/
theorem takeBytes?_append (front rest : Text) :
    takeBytes? (byteLength front) (front ++ rest) = some front := by
  induction front with
  | nil => exact takeBytes?_zero rest
  | cons c front ih =>
    have positive := Char.utf8Size_pos c
    have filled : ¬c.utf8Size + byteLength front = 0 := by omega
    rw [List.cons_append, byteLength, takeBytes?, if_neg filled, if_pos (Nat.le_add_right _ _),
      Nat.add_sub_cancel_left, ih]
    rfl

/-- The first bytes of a text are a front of it. -/
theorem exists_append_of_takeBytes? (found : takeBytes? count text = some front) :
    ∃ rest, text = front ++ rest ∧ byteLength front = count := by
  induction text generalizing count front with
  | nil =>
    rw [takeBytes?] at found
    split at found
    case isTrue empty => exact ⟨[], by simpa using found, by rw [← Option.some.inj found, empty]; rfl⟩
    case isFalse => contradiction
  | cons c text ih =>
    rw [takeBytes?] at found
    split at found
    case isTrue empty => exact ⟨c :: text, by simpa using found, by rw [← Option.some.inj found, empty]; rfl⟩
    case isFalse =>
      split at found
      case isTrue fits =>
        obtain ⟨front, below, rfl⟩ := Option.map_eq_some_iff.mp found
        obtain ⟨rest, rfl, size⟩ := ih below
        exact ⟨rest, rfl, by rw [byteLength, size, Nat.add_sub_cancel' fits]⟩
      case isFalse => contradiction

/-- Letters have as many bytes in either case. -/
theorem utf8Size_toLower (c : Char) : c.toLower.utf8Size = c.utf8Size := by
  by_cases capital : c.val ≥ 'A'.val ∧ c.val ≤ 'Z'.val
  · have lower : c.toLower.val = c.val + ('a'.val - 'A'.val) := congrArg Char.val (dif_pos capital)
    have ascii : c.val ≤ 127 ∧ c.toLower.val ≤ 127 := by grind
    rw [Char.utf8Size_eq_one_iff.mpr ascii.1, Char.utf8Size_eq_one_iff.mpr ascii.2]
  · have same : c.toLower = c := dif_neg capital
    rw [same]

theorem byteLength_lower (text : Text) : byteLength (lower text) = byteLength text := by
  induction text with
  | nil => rfl
  | cons c text ih => rw [lower, List.map_cons, byteLength, utf8Size_toLower, ← lower, ih, byteLength]

end Text

namespace Query.Completion

variable {scope : Scope} {word name label : Text} {kind : CompletionKind} {item : Completion}
  {items : List Completion} {seen : List (Text × CompletionKind)}

/-- Cutting a name by bytes finds the prefix that comparing it by characters does. -/
theorem begins_iff : begins word name = true ↔ Text.lower word <+: Text.lower name := by
  rw [begins, Option.any_eq_true]
  constructor
  · rintro ⟨front, found, same⟩
    obtain ⟨rest, rfl, -⟩ := Text.exists_append_of_takeBytes? found
    exact ⟨Text.lower rest, by rw [beq_iff_eq.mp same, Text.lower, Text.lower, Text.lower, List.map_append]⟩
  · rintro ⟨rest, cut⟩
    obtain ⟨front, below, rfl, same, -⟩ := List.map_eq_append_iff.mp cut.symm
    have size : Text.byteLength word = Text.byteLength front := by
      rw [← Text.byteLength_lower, ← same, ← Text.lower, Text.byteLength_lower]
    exact ⟨front, by rw [size, Text.takeBytes?_append], beq_iff_eq.mpr same.symm⟩

/-- A name begins with the word, or it does so without its `@`; letters may have either case. -/
def Fits (word name : Text) : Prop :=
  Text.lower word <+: Text.lower name ∨ Text.lower word <+: Text.lower (Identifier.bare name)

instance (word name : Text) : Decidable (Fits word name) :=
  inferInstanceAs (Decidable (_ ∨ _))

theorem fits_eq (word name : Text) : fits word name = decide (Fits word name) := by
  rw [Bool.eq_iff_iff, decide_eq_true_iff, fits, Bool.or_eq_true, begins_iff, begins_iff, Fits]

/-! ## What is offered -/

/-- What is offered for a word, by its label and kind. -/
inductive Offered (scope : Scope) (word : Text) : Text → CompletionKind → Prop where
  | keyword {keyword : Text} (member : keyword ∈ keywords) (fits : Fits word keyword) :
      Offered scope word keyword .keyword
  | constant {constant : Constant} (member : constant ∈ scope.constants) (fits : Fits word constant.name) :
      Offered scope word constant.name .constant
  | constGlobal {global : Global} (member : global ∈ scope.globals) (fits : Fits word global.name)
      (const : global.isConst = true) : Offered scope word global.name .constant
  | global {global : Global} (member : global ∈ scope.globals) (fits : Fits word global.name)
      (varies : global.isConst = false) : Offered scope word global.name .global
  | callable {callable : Callable} (member : callable ∈ scope.callables) (fits : Fits word callable.name) :
      Offered scope word callable.name .function

/-- What tells completions apart. -/
def pair (item : Completion) : Text × CompletionKind :=
  (item.label, item.kind)

/-- All that could be offered in a scope, whatever the word. -/
def sources (scope : Scope) : List Completion :=
  keywords.map ofKeyword ++ scope.constants.map ofConstant ++ scope.globals.map ofGlobal
    ++ scope.callables.map ofCallable

theorem all_eq (scope : Scope) (word : Text) :
    all scope word = (sources scope).filter fun item => Fits word item.label := by
  have fits (name : Text) : decide (Fits word name) = Completion.fits word name := (fits_eq word name).symm
  simp only [fits, sources, List.filter_append, List.filter_map]
  rfl

theorem mem_all (item : Completion) :
    item ∈ all scope word ↔ item ∈ sources scope ∧ Fits word item.label := by
  rw [all_eq, List.mem_filter, decide_eq_true_iff]

theorem exists_mem_all_iff :
    (∃ item ∈ all scope word, pair item = (label, kind)) ↔ Offered scope word label kind := by
  simp only [mem_all, sources, List.mem_append, List.mem_map, pair, Prod.mk.injEq]
  constructor
  · rintro ⟨_, ⟨((⟨keyword, member, rfl⟩ | ⟨constant, member, rfl⟩) | ⟨global, member, rfl⟩) |
      ⟨callable, member, rfl⟩, fits⟩, rfl, rfl⟩
    · exact .keyword member fits
    · exact .constant member fits
    · rw [ofGlobal]
      split
      case isTrue const => exact .constGlobal member fits const
      case isFalse varies => exact .global member fits (Bool.eq_false_iff.mpr varies)
    · exact .callable member fits
  · intro offered
    cases offered with
    | keyword member fits => exact ⟨_, ⟨.inl (.inl (.inl ⟨_, member, rfl⟩)), fits⟩, rfl, rfl⟩
    | constant member fits => exact ⟨_, ⟨.inl (.inl (.inr ⟨_, member, rfl⟩)), fits⟩, rfl, rfl⟩
    | constGlobal member fits const =>
      exact ⟨_, ⟨.inl (.inr ⟨_, member, rfl⟩), fits⟩, rfl, by rw [ofGlobal, const]; rfl⟩
    | global member fits varies =>
      exact ⟨_, ⟨.inl (.inr ⟨_, member, rfl⟩), fits⟩, rfl, by rw [ofGlobal, varies]; rfl⟩
    | callable member fits => exact ⟨_, ⟨.inr ⟨_, member, rfl⟩, fits⟩, rfl, rfl⟩

/-! ## Each label and kind once -/

theorem distinct_of_mem {first : Completion} (known : pair first ∈ seen) :
    distinct seen (first :: items) = distinct seen items :=
  if_pos (List.contains_iff_mem.mpr known)

theorem distinct_of_not_mem {first : Completion} (fresh : pair first ∉ seen) :
    distinct seen (first :: items) = first :: distinct (pair first :: seen) items :=
  if_neg (mt List.contains_iff_mem.mp fresh)

/-- Pairs stand in the order of their first completions. -/
theorem map_pair_distinct (seen : List (Text × CompletionKind)) (items : List Completion) :
    (distinct seen items).map pair =
      ((items.filter fun item => pair item ∉ seen).map pair).eraseDups := by
  induction items generalizing seen with
  | nil => rfl
  | cons first items ih =>
    by_cases known : pair first ∈ seen
    · rw [distinct_of_mem known, ih, List.filter_cons_of_neg (by simpa using known)]
    · rw [distinct_of_not_mem known, List.filter_cons_of_pos (by simpa using known), List.map_cons,
        List.map_cons, List.eraseDups_cons, ih, List.filter_map, List.filter_filter]
      refine congrArg (fun rest : List Completion => pair first :: (rest.map pair).eraseDups) ?_
      refine List.filter_congr fun item _ => ?_
      rw [Bool.eq_iff_iff]
      simp [not_or]

/-- Of each pair the first completion is kept. -/
theorem mem_distinct :
    item ∈ distinct seen items ↔
      pair item ∉ seen ∧ items.find? (fun other => pair other == pair item) = some item := by
  induction items generalizing seen with
  | nil => simp [distinct]
  | cons first items ih =>
    by_cases known : pair first ∈ seen
    · rw [distinct_of_mem known, ih]
      grind
    · rw [distinct_of_not_mem known, List.mem_cons, ih]
      grind

end Query.Completion

/-! ## Finding what is offered -/

namespace Query

open Completion (Fits Offered pair sources)

variable {scope : Scope} {word : Text} {item : Completion}

/-- Only keywords are offered that are no names of the scope. -/
theorem Completion.exists_lookup? (member : item ∈ sources scope) (symbol : item.kind ≠ .keyword) :
    ∃ symbol, scope.lookup? item.label = some symbol ∧ Scope.Names item.label symbol := by
  have declared : ∃ symbol ∈ scope.symbols, Scope.Names item.label symbol := by
    simp only [sources, List.mem_append, List.mem_map] at member
    rcases member with ((⟨keyword, -, rfl⟩ | ⟨constant, member, rfl⟩) | ⟨global, member, rfl⟩) |
      ⟨callable, member, rfl⟩
    · exact absurd rfl symbol
    · exact ⟨.constant constant, Scope.constant_mem_symbols.mpr member, .inl rfl⟩
    · exact ⟨.global global, Scope.global_mem_symbols.mpr member, .inl rfl⟩
    · exact ⟨.callable callable, Scope.callable_mem_symbols.mpr member, .inl rfl⟩
  obtain ⟨found, same⟩ := Option.isSome_iff_exists.mp (Scope.isSome_lookup?_iff.mpr declared)
  exact ⟨found, same, (Scope.of_lookup? same).2⟩

/-! ## Completions -/

/-- The items complete the word in the scope. -/
structure Completion.Completes (scope : Scope) (word : Text) (items : List Completion) : Prop where
  offered (label : Text) (kind : CompletionKind) :
    (∃ item ∈ items, pair item = (label, kind)) ↔ Offered scope word label kind
  /-- No label is offered twice as the same kind. -/
  distinct : (items.map pair).Nodup
  /-- The items stand where the first ones of their label and kind do. -/
  ordered :
    items.map pair = (((sources scope).filter fun item => Fits word item.label).map pair).eraseDups
  /-- Each is that first one, with its detail and its documentation. -/
  first : ∀ item ∈ items, (sources scope).find? (fun other => pair other == pair item) = some item
  /-- What is no keyword is found by its label. -/
  found : ∀ item ∈ items, item.kind ≠ .keyword →
    ∃ symbol, scope.lookup? item.label = some symbol ∧ Scope.Names item.label symbol

/-- With a word before the cursor, and outside of parentheses, the completions are those of the word. -/
theorem completions_completes [Alphabets] (scope : Scope) (cursor : Cursor)
    (written : Word.behind cursor.chars cursor.offset ≠ [])
    (outside : insideParens cursor.chars cursor.offset = false) :
    Completion.Completes scope (Word.behind cursor.chars cursor.offset) (completions scope cursor) := by
  generalize same : Word.behind cursor.chars cursor.offset = word at written
  have items : completions scope cursor = Completion.distinct [] (Completion.all scope word) := by
    rw [completions, same, outside]
    simp [written]
  have member (item : Completion) : item ∈ completions scope cursor ↔
      (Completion.all scope word).find? (fun other => pair other == pair item) = some item := by
    rw [items, Completion.mem_distinct]
    simp
  have ordered : (completions scope cursor).map pair =
      (((sources scope).filter fun item => Fits word item.label).map pair).eraseDups := by
    rw [items, Completion.map_pair_distinct, Completion.all_eq]
    simp
  have source (item : Completion) (inside : item ∈ completions scope cursor) :=
    (Completion.mem_all item).mp (List.mem_of_find?_eq_some ((member item).mp inside))
  exact {
    offered := fun label kind => by
      have kept : (label, kind) ∈ (completions scope cursor).map pair ↔
          (label, kind) ∈ (Completion.all scope word).map pair := by
        rw [ordered, List.mem_eraseDups, Completion.all_eq]
      rw [← Completion.exists_mem_all_iff, ← List.mem_map, ← List.mem_map, kept]
    distinct := ordered ▸ Table.nodup_eraseDups _
    ordered := ordered
    first := fun item inside => by
      have fits := (source item inside).2
      have found := (member item).mp inside
      rw [Completion.all_eq, List.find?_filter] at found
      rw [← found]
      refine congrArg (fun p => (sources scope).find? p) (funext fun other => ?_)
      rw [Bool.eq_iff_iff, decide_eq_true_iff, beq_iff_eq, decide_eq_true_iff, iff_and_self]
      intro same
      rwa [(Prod.mk.inj same).1]
    found := fun item inside => Completion.exists_lookup? (source item inside).1 }

open scoped Identifier.European

/-- Symbols that differ in case, in an `@`, in their kind, and in nothing but their declaration. -/
theorem completions_completes_alike :
    let cursor : Cursor := ⟨⟨"m.sma".toList⟩, .ofText "(f)\n nE".toList, ⟨1, 3⟩⟩
    let file : SourceId := ⟨"m.inc".toList⟩
    let scope : Scope := {
      callables := [
        ⟨"@Net".toList, "native @Net()".toList, false, file, .onLine 1 7 4, [], none, true, false⟩]
      globals := [
        ⟨"NET".toList, "new const NET".toList, true, file, .onLine 2 10 3, none, false⟩,
        ⟨"NET".toList, "new NET".toList, false, file, .onLine 3 4 3, some "first".toList, false⟩,
        ⟨"NET".toList, "new NET[2]".toList, false, file, .onLine 4 4 3, some "second".toList, false⟩]
      constants := [⟨"NET".toList, "1".toList, "#define NET 1".toList, file, .onLine 5 8 3⟩] }
    Completion.Completes scope "nE".toList (completions scope cursor) ∧
      completions scope cursor = [
        ⟨"new".toList, .keyword, none, none, none⟩,
        ⟨"NET".toList, .constant, some "#define NET 1".toList, none, none⟩,
        ⟨"NET".toList, .global, some "new NET".toList, some "first".toList, some "NET".toList⟩,
        ⟨"@Net".toList, .function, some "native @Net()".toList, none, some "Net".toList⟩] := by
  intro cursor file scope
  have word : Word.behind cursor.chars cursor.offset = "nE".toList := by decide +kernel
  have complete := completions_completes scope cursor (by decide +kernel) (by decide +kernel)
  exact ⟨word ▸ complete, by decide +kernel⟩

/--
Nothing is offered where more opening than closing parentheses of the line have no match before the cursor.
Where there are not more of them, the parentheses change nothing.
-/
theorem completions_parens [Alphabets] (scope : Scope) (cursor : Cursor) :
    let found := Unmatched.ofText (lineBefore cursor.chars cursor.offset)
    let word := Word.behind cursor.chars cursor.offset
    (found.closing.length < found.opening.length → completions scope cursor = []) ∧
      (found.opening.length ≤ found.closing.length →
        completions scope cursor =
          if word = [] then [] else Completion.distinct [] (Completion.all scope word)) := by
  intro found word
  have inside := insideParens_iff cursor.chars cursor.offset
  constructor
  · intro more
    rw [completions, inside.mpr more, Bool.or_true, if_pos rfl]
  · intro less
    have outside : insideParens cursor.chars cursor.offset = false :=
      Bool.eq_false_iff.mpr (mt inside.mp (Nat.not_lt.mpr less))
    rw [completions, outside, Bool.or_false]
    simp only [List.isEmpty_iff, word]

/-- Two calls are open, and only one is closed that was open before the line. -/
theorem completions_parens_nested :
    let cursor : Cursor := ⟨⟨"m.sma".toList⟩, .ofText "a(\nb), c(), d(e(ne".toList, ⟨1, 15⟩⟩
    Unmatched.ofText (lineBefore cursor.chars cursor.offset) = ⟨[12, 10], [1]⟩ ∧
      completions ⟨[], [], []⟩ cursor = [] := by
  intro cursor
  have found : Unmatched.ofText (lineBefore cursor.chars cursor.offset) = ⟨[12, 10], [1]⟩ := by decide +kernel
  exact ⟨found, (completions_parens ⟨[], [], []⟩ cursor).1 (by rw [found]; decide)⟩

/-- A parenthesis that closes a call of the line above makes up for an open one. -/
theorem completions_unmatched :
    ¬∀ (scope : Scope) (cursor : Cursor),
      (Unmatched.ofText (lineBefore cursor.chars cursor.offset)).opening ≠ [] →
        completions scope cursor = [] := by
  intro always
  have none := always ⟨[], [], []⟩ ⟨⟨"m.sma".toList⟩, .ofText "foo(\na), bar(ne".toList, ⟨1, 10⟩⟩
    (by decide +kernel)
  exact absurd none (by decide +kernel)

end Query

end PawnScope
