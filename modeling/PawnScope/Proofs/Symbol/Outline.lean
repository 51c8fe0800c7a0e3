import Mathlib.Data.List.Induction
import Mathlib.Data.List.Nodup
import PawnScope.Symbol.Outline
/-!
What an outline makes of the entries that are put into it one after the other.

* `putAll_eq_append` — putting entries into an outline is the same as putting the outline of these
  entries below it, so that an outline can be made in parts;
* `putAll_down` — what becomes of an entry does not depend on its line.
-/

namespace PawnScope

/-- What a statement adds to the outline of its file. -/
inductive Entry where
  | inclusion (inclusion : Inclusion)
  | callable (callable : Callable)
  | global (global : Global)
  | constant (constant : Constant)
deriving DecidableEq, Repr

namespace Entry

def inclusion? : Entry → Option Inclusion
  | .inclusion found => some found
  | _ => none

def callable? : Entry → Option Callable
  | .callable found => some found
  | _ => none

def global? : Entry → Option Global
  | .global found => some found
  | _ => none

def constant? : Entry → Option Constant
  | .constant found => some found
  | _ => none

end Entry

/-! ## The same, further down -/

def Span.down (count : Nat) (span : Span) : Span :=
  ⟨⟨span.start.line + count, span.start.column⟩, ⟨span.stop.line + count, span.stop.column⟩⟩

def Inclusion.down (count : Nat) (inclusion : Inclusion) : Inclusion :=
  { inclusion with span := inclusion.span.down count }

def Callable.down (count : Nat) (callable : Callable) : Callable :=
  { callable with span := callable.span.down count }

def Global.down (count : Nat) (global : Global) : Global :=
  { global with span := global.span.down count }

def Constant.down (count : Nat) (constant : Constant) : Constant :=
  { constant with span := constant.span.down count }

def Entry.down (count : Nat) : Entry → Entry
  | inclusion found => inclusion (found.down count)
  | callable found => callable (found.down count)
  | global found => global (found.down count)
  | constant found => constant (found.down count)

namespace Outline

/-- The outline of the same text `count` lines further down in its file. -/
def down (count : Nat) (outline : Outline) : Outline where
  inclusions := outline.inclusions.map (Inclusion.down count)
  callables := outline.callables.map (Callable.down count)
  globals := outline.globals.map (Global.down count)
  constants := outline.constants.map (Constant.down count)

/-! ## Entries -/

def put (outline : Outline) : Entry → Outline
  | .inclusion inclusion => outline.putInclusion inclusion
  | .callable callable => outline.putCallable callable
  | .global global => outline.putGlobal global
  | .constant constant => outline.putConstant constant

def putAll (outline : Outline) (entries : List Entry) : Outline :=
  entries.foldl put outline

/-- The callables with one more: a prototype stays where it is if what comes is none. -/
def declare (callables : List Callable) (callable : Callable) : List Callable :=
  if hasPrototype callables callable.key && !callable.isPrototype then callables
  else place callable callables

/-- The symbols with one more, if its name is new. -/
def keepFirst {α : Type} (key : α → Text) (symbols : List α) (symbol : α) : List α :=
  if symbols.any (key · == key symbol) then symbols else symbols ++ [symbol]

/-- The symbols of `more` whose names `symbols` does not have. -/
def unnamed {α : Type} (key : α → Text) (symbols more : List α) : List α :=
  more.filter fun symbol => !symbols.any (key · == key symbol)

/-- The outline of a text that has the outline `above`, with a text under it that has `below`. -/
def append (above below : Outline) : Outline where
  inclusions := above.inclusions ++ below.inclusions
  callables := below.callables.foldl declare above.callables
  globals := above.globals ++ unnamed Global.key above.globals below.globals
  constants := above.constants ++ unnamed Constant.key above.constants below.constants

/-! ## Each kind of entry by itself -/

theorem put_eq (outline : Outline) (entry : Entry) :
    outline.put entry = {
      inclusions := outline.inclusions ++ entry.inclusion?.toList
      callables := entry.callable?.toList.foldl declare outline.callables
      globals := entry.global?.toList.foldl (keepFirst Global.key) outline.globals
      constants := entry.constant?.toList.foldl (keepFirst Constant.key) outline.constants } := by
  cases entry with
  | inclusion found =>
    simp [put, putInclusion, Entry.inclusion?, Entry.callable?, Entry.global?, Entry.constant?]
  | callable found =>
    simp only [put, putCallable, Entry.inclusion?, Entry.callable?, Entry.global?, Entry.constant?,
      Option.toList, List.append_nil, List.foldl_cons, List.foldl_nil, declare]
    split <;> rfl
  | global found =>
    simp only [put, putGlobal, Entry.inclusion?, Entry.callable?, Entry.global?, Entry.constant?,
      Option.toList, List.append_nil, List.foldl_cons, List.foldl_nil, keepFirst]
    split <;> rfl
  | constant found =>
    simp only [put, putConstant, Entry.inclusion?, Entry.callable?, Entry.global?, Entry.constant?,
      Option.toList, List.append_nil, List.foldl_cons, List.foldl_nil, keepFirst]
    split <;> rfl

theorem putAll_eq (outline : Outline) (entries : List Entry) :
    outline.putAll entries = {
      inclusions := outline.inclusions ++ entries.filterMap Entry.inclusion?
      callables := (entries.filterMap Entry.callable?).foldl declare outline.callables
      globals := (entries.filterMap Entry.global?).foldl (keepFirst Global.key) outline.globals
      constants :=
        (entries.filterMap Entry.constant?).foldl (keepFirst Constant.key) outline.constants } := by
  have cons {α : Type} (f : Entry → Option α) (entry : Entry) (rest : List Entry) :
      (entry :: rest).filterMap f = (f entry).toList ++ rest.filterMap f := by
    cases found : f entry <;> simp [found]
  induction entries generalizing outline with
  | nil => simp [putAll]
  | cons entry rest ih =>
    rw [putAll, List.foldl_cons, ← putAll, ih, put_eq]
    simp only [cons, List.foldl_append, List.append_assoc]

/-! ## Variables and constants: the first one of a name stays -/

section First

variable {α : Type} {key : α → Text} {symbols : List α} {symbol : α}

theorem keepFirst_of_mem (known : ∃ other ∈ symbols, key other = key symbol) :
    keepFirst key symbols symbol = symbols := by
  rw [keepFirst, if_pos (by simpa using known)]

theorem keepFirst_of_not_mem (fresh : ∀ other ∈ symbols, key other ≠ key symbol) :
    keepFirst key symbols symbol = symbols ++ [symbol] := by
  rw [keepFirst, if_neg (by simpa using fresh)]

theorem unnamed_append (key : α → Text) (symbols more : List α) (symbol : α) :
    unnamed key symbols (more ++ [symbol]) =
      unnamed key symbols more ++ if symbols.any (key · == key symbol) then [] else [symbol] := by
  rw [unnamed, List.filter_append, ← unnamed]
  cases known : symbols.any (key · == key symbol) <;> simp [known]

/-- Keeping symbols one after the other adds the first one of each new name. -/
theorem foldl_keepFirst (key : α → Text) (symbols more : List α) :
    more.foldl (keepFirst key) symbols =
      symbols ++ unnamed key symbols (more.foldl (keepFirst key) []) := by
  induction more using List.reverseRecOn with
  | nil => simp [unnamed]
  | append_singleton more symbol ih =>
    simp only [List.foldl_append, List.foldl_cons, List.foldl_nil, ih]
    generalize more.foldl (keepFirst key) [] = kept
    by_cases old : ∃ other ∈ kept, key other = key symbol
    · -- A name of `kept` is either one of `symbols` or has been added.
      rw [keepFirst_of_mem old, keepFirst_of_mem]
      obtain ⟨other, member, same⟩ := old
      by_cases known : ∃ first ∈ symbols, key first = key symbol
      · obtain ⟨first, member', same'⟩ := known
        exact ⟨first, List.mem_append_left _ member', same'⟩
      · have added : other ∈ unnamed key symbols kept := by
          simpa [unnamed, same, member] using known
        exact ⟨other, List.mem_append_right _ added, same⟩
    · have fresh : ∀ other ∈ kept, key other ≠ key symbol := by simpa using old
      rw [keepFirst_of_not_mem fresh, unnamed_append]
      by_cases known : ∃ first ∈ symbols, key first = key symbol
      · have found : symbols.any (key · == key symbol) = true := by simpa using known
        obtain ⟨first, member, same⟩ := known
        rw [found, if_pos rfl, List.append_nil,
          keepFirst_of_mem ⟨first, List.mem_append_left _ member, same⟩]
      · have missing : symbols.any (key · == key symbol) = false := by simpa using known
        rw [missing, keepFirst_of_not_mem, List.append_assoc]
        · rfl
        · intro other member same
          rcases List.mem_append.mp member with member | member
          · exact known ⟨other, member, same⟩
          · exact fresh other (List.mem_of_mem_filter member) same

end First

/-! ## Callables: a later one takes the place of the one before, unless that is a prototype -/

section Place

variable {callables more : List Callable} {callable other : Callable}

/-- No two callables have one key. -/
def DistinctKeys (callables : List Callable) : Prop :=
  (callables.map Callable.key).Nodup

instance (callables : List Callable) : Decidable (DistinctKeys callables) :=
  inferInstanceAs (Decidable (callables.map Callable.key).Nodup)

theorem distinctKeys_nil : DistinctKeys [] :=
  List.nodup_nil

theorem place_of_not_mem (fresh : ∀ other ∈ callables, other.key ≠ callable.key) :
    place callable callables = callables ++ [callable] := by
  induction callables with
  | nil => rfl
  | cons first rest ih =>
    rw [place, if_neg (fresh first List.mem_cons_self),
      ih fun other member => fresh other (List.mem_cons_of_mem _ member)]
    rfl

theorem place_append (fresh : ∀ first ∈ callables, first.key ≠ callable.key)
    (same : other.key = callable.key) :
    place callable (callables ++ other :: more) = callables ++ callable :: more := by
  induction callables with
  | nil => rw [List.nil_append, place, if_pos same, List.nil_append]
  | cons first rest ih =>
    rw [List.cons_append, place, if_neg (fresh first List.mem_cons_self),
      ih fun other member => fresh other (List.mem_cons_of_mem _ member)]
    rfl

theorem place_place (same : other.key = callable.key) :
    place callable (place other callables) = place callable callables := by
  induction callables with
  | nil => simp [place, same]
  | cons first rest ih =>
    by_cases here : first.key = callable.key
    · simp [place, here, same]
    · simp [place, here, same, ih]

/-- Placing under different keys in either order, if the key of one has a place already. -/
theorem place_comm (differ : other.key ≠ callable.key)
    (known : ∃ first ∈ callables, first.key = callable.key) :
    place callable (place other callables) = place other (place callable callables) := by
  induction callables with
  | nil => simp at known
  | cons first rest ih =>
    by_cases here : first.key = callable.key
    · simp [place, here, differ.symm]
    · have known' : ∃ first ∈ rest, first.key = callable.key := by
        obtain ⟨found, member, same⟩ := known
        rcases List.mem_cons.mp member with rfl | member
        · exact absurd same here
        · exact ⟨found, member, same⟩
      by_cases there : first.key = other.key
      · simp [place, there, differ]
      · simp [place, here, there, ih known']

theorem mem_place {found : Callable} (member : found ∈ place callable callables) :
    found = callable ∨ found ∈ callables := by
  induction callables with
  | nil => exact .inl (List.mem_singleton.mp member)
  | cons first rest ih =>
    rw [place] at member
    split at member
    · rcases List.mem_cons.mp member with rfl | member
      · exact .inl rfl
      · exact .inr (List.mem_cons_of_mem _ member)
    · rcases List.mem_cons.mp member with rfl | member
      · exact .inr List.mem_cons_self
      · exact (ih member).imp_right (List.mem_cons_of_mem _)

theorem mem_place_self (callable : Callable) (callables : List Callable) :
    callable ∈ place callable callables := by
  induction callables with
  | nil => exact List.mem_singleton_self _
  | cons first rest ih =>
    rw [place]
    split
    · exact List.mem_cons_self
    · exact List.mem_cons_of_mem _ ih

/-- What stands under another key stays. -/
theorem mem_place_of_ne {found : Callable} (differ : found.key ≠ callable.key)
    (member : found ∈ callables) : found ∈ place callable callables := by
  induction callables with
  | nil => simp at member
  | cons first rest ih =>
    rw [place]
    rcases List.mem_cons.mp member with rfl | member
    · rw [if_neg differ]
      exact List.mem_cons_self
    · split
      · exact List.mem_cons_of_mem _ member
      · exact List.mem_cons_of_mem _ (ih member)

theorem exists_place {key : Text} (known : ∃ first ∈ callables, first.key = key) :
    ∃ first ∈ place callable callables, first.key = key := by
  by_cases here : callable.key = key
  · exact ⟨callable, mem_place_self _ _, here⟩
  · obtain ⟨first, member, same⟩ := known
    exact ⟨first, mem_place_of_ne (same ▸ Ne.symm here) member, same⟩

end Place

section Declare

variable {callables more : List Callable} {callable other : Callable} {key : Text}

theorem hasPrototype_iff :
    hasPrototype callables key = true ↔
      ∃ found ∈ callables, found.key = key ∧ found.isPrototype = true := by
  simp [hasPrototype]

theorem hasPrototype_place_of_ne (differ : callable.key ≠ key) :
    hasPrototype (place callable callables) key = hasPrototype callables key := by
  rw [Bool.eq_iff_iff, hasPrototype_iff, hasPrototype_iff]
  constructor
  · rintro ⟨found, member, same, marked⟩
    rcases mem_place member with rfl | member
    · exact absurd same differ
    · exact ⟨found, member, same, marked⟩
  · rintro ⟨found, member, same, marked⟩
    exact ⟨found, mem_place_of_ne (same ▸ Ne.symm differ) member, same, marked⟩

theorem declare_of_isPrototype (marked : callable.isPrototype = true) :
    declare callables callable = place callable callables := by
  simp [declare, marked]

theorem declare_of_hasPrototype (held : hasPrototype callables callable.key = true)
    (plain : callable.isPrototype = false) : declare callables callable = callables := by
  simp [declare, held, plain]

theorem declare_of_free (free : hasPrototype callables callable.key = false) :
    declare callables callable = place callable callables := by
  simp [declare, free]

theorem exists_declare (known : ∃ first ∈ callables, first.key = key) :
    ∃ first ∈ declare callables callable, first.key = key := by
  rw [declare]
  split
  · exact known
  · exact exists_place known

theorem exists_declare_self (callable : Callable) (callables : List Callable) :
    ∃ first ∈ declare callables callable, first.key = callable.key := by
  rw [declare]
  split
  case isTrue held =>
    obtain ⟨first, member, same, -⟩ := hasPrototype_iff.mp (Bool.and_eq_true_iff.mp held).1
    exact ⟨first, member, same⟩
  case isFalse => exact ⟨callable, mem_place_self _ _, rfl⟩

theorem hasPrototype_declare_of_ne (differ : callable.key ≠ key) :
    hasPrototype (declare callables callable) key = hasPrototype callables key := by
  rw [declare]
  split
  · rfl
  · exact hasPrototype_place_of_ne differ

/-- Only a prototype takes the place of a prototype. -/
theorem hasPrototype_declare (held : hasPrototype callables key = true) :
    hasPrototype (declare callables callable) key = true := by
  by_cases same : callable.key = key
  · cases marked : callable.isPrototype with
    | false => rwa [declare_of_hasPrototype (same ▸ held) marked]
    | true =>
      rw [declare_of_isPrototype marked, hasPrototype_iff]
      exact ⟨callable, mem_place_self _ _, same, marked⟩
  · rwa [hasPrototype_declare_of_ne same]

theorem hasPrototype_foldl_declare (held : hasPrototype callables key = true) :
    hasPrototype (more.foldl declare callables) key = true := by
  induction more generalizing callables with
  | nil => exact held
  | cons first rest ih => exact ih (hasPrototype_declare held)

theorem hasPrototype_foldl_declare_of_more (held : hasPrototype more key = true) :
    hasPrototype (more.foldl declare callables) key = true := by
  induction more generalizing callables with
  | nil => simp [hasPrototype] at held
  | cons first rest ih =>
    rw [List.foldl_cons]
    obtain ⟨found, member, same, marked⟩ := hasPrototype_iff.mp held
    rcases List.mem_cons.mp member with rfl | member
    · refine hasPrototype_foldl_declare ?_
      rw [declare_of_isPrototype marked, hasPrototype_iff]
      exact ⟨found, mem_place_self _ _, same, marked⟩
    · exact ih (hasPrototype_iff.mpr ⟨found, member, same, marked⟩)

/-- Of two callables with one key the earlier one leaves no trace if the later one displaces it. -/
theorem declare_declare (same : other.key = callable.key)
    (displaces : callable.isPrototype = true ∨ other.isPrototype = false) :
    declare (declare callables other) callable = declare callables callable := by
  cases marked : callable.isPrototype with
  | true =>
    rw [declare_of_isPrototype marked, declare_of_isPrototype marked, declare]
    split
    · rfl
    · exact place_place same
  | false =>
    have plain : other.isPrototype = false := displaces.resolve_left (by simp [marked])
    cases held : hasPrototype callables callable.key with
    | true => rw [declare_of_hasPrototype (same ▸ held) plain]
    | false =>
      have placed : declare callables other = place other callables :=
        declare_of_free (same ▸ held)
      have free : hasPrototype (place other callables) callable.key = false := by
        rw [Bool.eq_false_iff, Ne, hasPrototype_iff]
        rintro ⟨found, member, same', marked'⟩
        rcases mem_place member with rfl | member
        · rw [plain] at marked'
          contradiction
        · rw [hasPrototype_iff.mpr ⟨found, member, same', marked'⟩] at held
          contradiction
      rw [placed, declare_of_free free, declare_of_free held, place_place same]

theorem declare_comm (differ : other.key ≠ callable.key)
    (known : ∃ first ∈ callables, first.key = callable.key) :
    declare (declare callables other) callable = declare (declare callables callable) other := by
  have first : hasPrototype (place other callables) callable.key = _ :=
    hasPrototype_place_of_ne differ
  have second : hasPrototype (place callable callables) other.key = _ :=
    hasPrototype_place_of_ne differ.symm
  by_cases stays : (hasPrototype callables callable.key && !callable.isPrototype) = true
  · by_cases stays' : (hasPrototype callables other.key && !other.isPrototype) = true
    · simp only [declare, if_pos stays, if_pos stays']
    · simp only [declare, if_pos stays, if_neg stays', first]
  · by_cases stays' : (hasPrototype callables other.key && !other.isPrototype) = true
    · simp only [declare, if_neg stays, if_pos stays', second]
    · simp only [declare, if_neg stays, if_neg stays', first, second]
      exact place_comm differ known

theorem declare_foldl_comm (differ : ∀ other ∈ more, other.key ≠ callable.key)
    (known : ∃ first ∈ callables, first.key = callable.key) :
    declare (more.foldl declare callables) callable =
      more.foldl declare (declare callables callable) := by
  induction more generalizing callables with
  | nil => rfl
  | cons first rest ih =>
    rw [List.foldl_cons, List.foldl_cons,
      ih (fun other member => differ other (List.mem_cons_of_mem _ member)) (exists_declare known),
      declare_comm (differ first List.mem_cons_self) known]

theorem keys_place (known : ∃ first ∈ callables, first.key = callable.key) :
    (place callable callables).map Callable.key = callables.map Callable.key := by
  induction callables with
  | nil => simp at known
  | cons first rest ih =>
    rw [place]
    split
    case isTrue same => rw [List.map_cons, List.map_cons, same]
    case isFalse differ =>
      obtain ⟨found, member, same⟩ := known
      have member' := (List.mem_cons.mp member).resolve_left fun here => differ (here ▸ same)
      rw [List.map_cons, List.map_cons, ih ⟨found, member', same⟩]

theorem DistinctKeys.concat (distinct : DistinctKeys callables)
    (fresh : ∀ first ∈ callables, first.key ≠ callable.key) :
    DistinctKeys (callables ++ [callable]) := by
  rw [DistinctKeys, List.map_append, List.map_singleton]
  refine List.Nodup.append distinct (List.nodup_singleton _) ?_
  rintro key member here
  obtain ⟨first, member', rfl⟩ := List.mem_map.mp member
  exact fresh first member' (List.mem_singleton.mp here)

theorem DistinctKeys.place (distinct : DistinctKeys callables) (callable : Callable) :
    DistinctKeys (place callable callables) := by
  by_cases known : ∃ first ∈ callables, first.key = callable.key
  · rwa [DistinctKeys, keys_place known]
  · have fresh : ∀ first ∈ callables, first.key ≠ callable.key := by simpa using known
    rw [place_of_not_mem fresh]
    exact distinct.concat fresh

theorem DistinctKeys.declare (distinct : DistinctKeys callables) (callable : Callable) :
    DistinctKeys (declare callables callable) := by
  rw [Outline.declare]
  split
  · exact distinct
  · exact distinct.place callable

theorem distinctKeys_foldl {step : List Callable → Callable → List Callable}
    (keeps : ∀ {callables}, DistinctKeys callables → ∀ callable, DistinctKeys (step callables callable))
    (distinct : DistinctKeys callables) (more : List Callable) :
    DistinctKeys (more.foldl step callables) := by
  induction more generalizing callables with
  | nil => exact distinct
  | cons callable rest ih => exact ih (keeps distinct callable)

theorem distinctKeys_foldl_declare (more : List Callable) : DistinctKeys (more.foldl declare []) :=
  distinctKeys_foldl DistinctKeys.declare distinctKeys_nil more

/-- Declaring a callable before or after a table of callables is declared has the same result. -/
theorem foldl_declare_declare (distinct : DistinctKeys more) (callable : Callable) :
    (declare more callable).foldl declare callables =
      declare (more.foldl declare callables) callable := by
  by_cases known : ∃ first ∈ more, first.key = callable.key
  case neg =>
    have fresh : ∀ first ∈ more, first.key ≠ callable.key := by simpa using known
    have free : hasPrototype more callable.key = false := by
      rw [Bool.eq_false_iff, Ne, hasPrototype_iff]
      rintro ⟨first, member, same, -⟩
      exact fresh first member same
    rw [declare_of_free free, place_of_not_mem fresh, List.foldl_append, List.foldl_cons,
      List.foldl_nil]
  case pos =>
    obtain ⟨first, member, same⟩ := known
    obtain ⟨before, behind, rfl⟩ := List.append_of_mem member
    have apart : ∀ other ∈ before ++ behind, other.key ≠ callable.key := by
      intro other member' same'
      rw [DistinctKeys, List.map_append, List.map_cons, List.nodup_middle, List.nodup_cons,
        ← List.map_append] at distinct
      exact distinct.1 (List.mem_map.mpr ⟨other, member', same'.trans same.symm⟩)
    have placed : place callable (before ++ first :: behind) = before ++ callable :: behind :=
      place_append (fun other member' => apart other (List.mem_append_left _ member')) same
    by_cases displaces : callable.isPrototype = true ∨ first.isPrototype = false
    · have replaced : declare (before ++ first :: behind) callable = before ++ callable :: behind := by
        rcases displaces with marked | plain
        · rw [declare_of_isPrototype marked, placed]
        · rw [declare_of_free, placed]
          rw [Bool.eq_false_iff, Ne, hasPrototype_iff]
          rintro ⟨other, member', same', marked⟩
          rw [List.mem_append, List.mem_cons, or_left_comm, ← List.mem_append] at member'
          rcases member' with rfl | member'
          · exact absurd marked (by simp [plain])
          · exact apart other member' same'
      rw [replaced, List.foldl_append, List.foldl_append, List.foldl_cons, List.foldl_cons,
        declare_foldl_comm (fun other member' => apart other (List.mem_append_right _ member'))
          (same ▸ exists_declare_self first _),
        declare_declare same displaces]
    · have marked : first.isPrototype = true := by simpa using (not_or.mp displaces).2
      have plain : callable.isPrototype = false := by simpa using (not_or.mp displaces).1
      have held : hasPrototype (before ++ first :: behind) callable.key = true :=
        hasPrototype_iff.mpr ⟨first, member, same, marked⟩
      rw [declare_of_hasPrototype held plain,
        declare_of_hasPrototype (hasPrototype_foldl_declare_of_more held) plain]

/-- Declaring callables one after the other is the same as declaring the table that they make. -/
theorem foldl_foldl_declare (callables more : List Callable) :
    (more.foldl declare []).foldl declare callables = more.foldl declare callables := by
  induction more using List.reverseRecOn with
  | nil => rfl
  | append_singleton more callable ih =>
    rw [List.foldl_append, List.foldl_append, List.foldl_cons, List.foldl_nil, List.foldl_cons,
      List.foldl_nil, foldl_declare_declare (distinctKeys_foldl_declare more), ih]

end Declare

/-! ## Steps that add one symbol -/

/-- If each step adds a key that is new, keys stand in the order in which they are met first. -/
theorem keys_foldl {α : Type} {key : α → Text} {step : List α → α → List α}
    (adds : ∀ symbols symbol, (step symbols symbol).map key =
      if key symbol ∈ symbols.map key then symbols.map key else symbols.map key ++ [key symbol])
    (more : List α) : (more.foldl step []).map key = (more.map key).eraseDups := by
  induction more using List.reverseRecOn with
  | nil => rfl
  | append_singleton more symbol ih =>
    rw [List.foldl_append, List.foldl_cons, List.foldl_nil, adds, ih, List.map_append,
      List.eraseDups_append, List.map_singleton, List.removeAll, List.filter_singleton]
    by_cases known : key symbol ∈ more.map key
    · rw [if_pos (List.mem_eraseDups.mpr known), List.elem_iff.mpr known]
      exact (List.append_nil _).symm
    · rw [if_neg (mt List.mem_eraseDups.mp known),
        Bool.eq_false_iff.mpr (mt List.elem_iff.mp known)]
      rfl

/-- Symbols with different keys are put one behind the other. -/
theorem foldl_of_distinct {α : Type} {key : α → Text} {step : List α → α → List α} {symbols : List α}
    (appends : ∀ {symbols symbol}, (∀ other ∈ symbols, key other ≠ key symbol) →
      step symbols symbol = symbols ++ [symbol])
    (distinct : (symbols.map key).Nodup) : symbols.foldl step [] = symbols := by
  induction symbols using List.reverseRecOn with
  | nil => rfl
  | append_singleton symbols symbol ih =>
    rw [List.map_append, List.nodup_append] at distinct
    obtain ⟨before, _, apart⟩ := distinct
    rw [List.foldl_append, ih before]
    refine appends fun other member same => ?_
    exact apart (key other) (List.mem_map_of_mem member) (key symbol) List.mem_cons_self same

/-- With distinct keys the symbol that is found for a key is the only one. -/
theorem filter_eq_find? {α : Type} {key : α → Text} {symbols : List α}
    (distinct : (symbols.map key).Nodup) (name : Text) :
    symbols.filter (key · == name) = (symbols.find? (key · == name)).toList := by
  induction symbols with
  | nil => rfl
  | cons first rest ih =>
    obtain ⟨apart, distinct'⟩ := List.nodup_cons.mp distinct
    by_cases here : key first = name
    · have others : rest.filter (key · == name) = [] := by
        refine List.filter_eq_nil_iff.mpr fun other member same => apart ?_
        rw [here, ← beq_iff_eq.mp same]
        exact List.mem_map_of_mem member
      rw [List.filter_cons_of_pos (by simpa using here), others,
        List.find?_cons_of_pos (by simpa using here)]
      rfl
    · rw [List.filter_cons_of_neg (by simpa using here), List.find?_cons_of_neg (by simpa using here)]
      exact ih distinct'

/-! ## What an outline holds has been put in -/

theorem mem_foldl {α : Type} {add : List α → α → List α}
    (step : ∀ symbols symbol found, found ∈ add symbols symbol → found ∈ symbols ∨ found = symbol)
    {symbols more : List α} {found : α} (member : found ∈ more.foldl add symbols) :
    found ∈ symbols ∨ found ∈ more := by
  induction more generalizing symbols with
  | nil => exact .inl member
  | cons symbol rest ih =>
    rcases ih member with early | late
    · rcases step _ _ _ early with early | rfl
      · exact .inl early
      · exact .inr List.mem_cons_self
    · exact .inr (List.mem_cons_of_mem _ late)

theorem mem_keepFirst {α : Type} {key : α → Text} {symbols : List α} {symbol found : α}
    (member : found ∈ keepFirst key symbols symbol) : found ∈ symbols ∨ found = symbol := by
  rw [keepFirst] at member
  split at member
  · exact .inl member
  · simpa using member

theorem global_mem_of_putAll {entries : List Entry} {global : Global}
    (member : global ∈ (empty.putAll entries).globals) : .global global ∈ entries := by
  rw [putAll_eq] at member
  have added := mem_foldl (fun _ _ _ => mem_keepFirst) member
  obtain ⟨entry, inside, same⟩ := List.mem_filterMap.mp (added.resolve_left (by simp [empty]))
  cases entry <;> cases same
  exact inside

theorem constant_mem_of_putAll {entries : List Entry} {constant : Constant}
    (member : constant ∈ (empty.putAll entries).constants) : .constant constant ∈ entries := by
  rw [putAll_eq] at member
  have added := mem_foldl (fun _ _ _ => mem_keepFirst) member
  obtain ⟨entry, inside, same⟩ := List.mem_filterMap.mp (added.resolve_left (by simp [empty]))
  cases entry <;> cases same
  exact inside

theorem callable_mem_of_putAll {entries : List Entry} {callable : Callable}
    (member : callable ∈ (empty.putAll entries).callables) : .callable callable ∈ entries := by
  rw [putAll_eq] at member
  have added := mem_foldl (fun symbols symbol found inside => by
    rw [declare] at inside
    split at inside
    · exact .inl inside
    · exact (mem_place inside).symm) member
  obtain ⟨entry, inside, same⟩ := List.mem_filterMap.mp (added.resolve_left (by simp [empty]))
  cases entry <;> cases same
  exact inside

/-! ## Outlines in parts -/

/-- Putting in entries is the same as putting the outline of these entries below. -/
theorem putAll_eq_append (outline : Outline) (entries : List Entry) :
    outline.putAll entries = outline.append (empty.putAll entries) := by
  rw [putAll_eq outline, putAll_eq empty, append]
  simp only [empty, List.nil_append]
  rw [foldl_foldl_declare, ← foldl_keepFirst, ← foldl_keepFirst]

theorem putAll_append (outline : Outline) (entries more : List Entry) :
    outline.putAll (entries ++ more) = (outline.putAll entries).putAll more :=
  List.foldl_append

/-! ## Outlines further down -/

section Down

variable {count : Nat}

theorem place_down (callable : Callable) (callables : List Callable) :
    place (callable.down count) (callables.map (Callable.down count)) =
      (place callable callables).map (Callable.down count) := by
  induction callables with
  | nil => rfl
  | cons first rest ih =>
    have keys (other : Callable) : (other.down count).key = other.key := rfl
    rw [List.map_cons, place, place, keys, keys, ih]
    split <;> rfl

theorem declare_down (callables : List Callable) (callable : Callable) :
    declare (callables.map (Callable.down count)) (callable.down count) =
      (declare callables callable).map (Callable.down count) := by
  have same : hasPrototype (callables.map (Callable.down count)) (callable.down count).key =
      hasPrototype callables callable.key := by
    rw [hasPrototype, List.any_map]
    rfl
  have plain : (callable.down count).isPrototype = callable.isPrototype := rfl
  rw [declare, declare, same, plain, place_down]
  split <;> rfl

theorem keepFirst_down {α : Type} {key : α → Text} {shift : α → α}
    (keys : ∀ symbol, key (shift symbol) = key symbol) (symbols : List α) (symbol : α) :
    keepFirst key (symbols.map shift) (shift symbol) = (keepFirst key symbols symbol).map shift := by
  rw [keepFirst, keepFirst, List.any_map]
  simp only [Function.comp_def, keys]
  split <;> simp

theorem put_down (outline : Outline) (entry : Entry) :
    (outline.down count).put (entry.down count) = (outline.put entry).down count := by
  rw [put_eq, put_eq]
  cases entry with
  | inclusion found =>
    simp [down, Entry.down, Entry.inclusion?, Entry.callable?, Entry.global?, Entry.constant?]
  | callable found =>
    simp [down, Entry.down, Entry.inclusion?, Entry.callable?, Entry.global?, Entry.constant?,
      declare_down]
  | global found =>
    simp [down, Entry.down, Entry.inclusion?, Entry.callable?, Entry.global?, Entry.constant?,
      keepFirst_down (fun symbol => (rfl : (Global.down count symbol).key = symbol.key))]
  | constant found =>
    simp [down, Entry.down, Entry.inclusion?, Entry.callable?, Entry.global?, Entry.constant?,
      keepFirst_down (fun symbol => (rfl : (Constant.down count symbol).key = symbol.key))]

/-- What becomes of the entries does not depend on how far down in the file they are. -/
theorem putAll_down (outline : Outline) (entries : List Entry) :
    (outline.down count).putAll (entries.map (Entry.down count)) =
      (outline.putAll entries).down count := by
  induction entries generalizing outline with
  | nil => rfl
  | cons entry rest ih =>
    rw [List.map_cons, putAll, List.foldl_cons, ← putAll, put_down, ih]
    rfl

end Down

end Outline

end PawnScope
