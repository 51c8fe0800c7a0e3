import PawnScope.Proofs.Scope.Callables
import PawnScope.Proofs.Table
/-!
Which of the symbols of a name an outline keeps: of callables the last prototype, or the last of them
all if none is one, and of variables and of constants the first. Names stand in the order in which they
are met first. Main result: `putAll_lists`.
-/

namespace PawnScope.Outline

variable {callables : List Callable} {callable other : Callable} {key : Text}

/-! ## Callables -/

/-- Of the callables with a key the last prototype, or the last of them all if none is one. -/
def latest? (callables : List Callable) (key : Text) : Option Callable :=
  Scope.preferred? callables.reverse key

/-- What is held for a key after one more callable with that key. -/
def supersede (held : Option Callable) (callable : Callable) : Callable :=
  match held with
  | none => callable
  | some other => if other.isPrototype && !callable.isPrototype then other else callable

theorem find?_place (callable : Callable) (callables : List Callable) (key : Text) :
    (place callable callables).find? (·.key == key) =
      if callable.key = key then some callable else callables.find? (·.key == key) := by
  induction callables with
  | nil => by_cases here : callable.key = key <;> simp [place, here]
  | cons first rest ih =>
    by_cases same : first.key = callable.key
    · by_cases here : callable.key = key <;> simp [place, same, here]
    · by_cases here : first.key = key
      · have differ : callable.key ≠ key := fun equal => same (here.trans equal.symm)
        rw [place, if_neg same, if_neg differ]
        simp [here]
      · rw [place, if_neg same]
        simp [here, ih]

/-- With distinct keys there is a prototype for a key if what is held for it is one. -/
theorem hasPrototype_eq (distinct : DistinctKeys callables) (key : Text) :
    hasPrototype callables key = (callables.find? (·.key == key)).any Callable.isPrototype := by
  induction callables with
  | nil => rfl
  | cons first rest ih =>
    obtain ⟨apart, distinct'⟩ := List.nodup_cons.mp distinct
    rw [Scope.hasPrototype_cons, ih distinct']
    by_cases here : first.key = key
    · have missing : rest.find? (·.key == key) = none := by
        rw [List.find?_eq_none]
        intro found member same
        exact apart (List.mem_map.mpr ⟨found, member, (beq_iff_eq.mp same).trans here.symm⟩)
      simp [here, missing]
    · simp [here]

theorem find?_declare (distinct : DistinctKeys callables) (callable : Callable) (key : Text) :
    (declare callables callable).find? (·.key == key) =
      if callable.key = key then some (supersede (callables.find? (·.key == key)) callable)
      else callables.find? (·.key == key) := by
  rw [declare, hasPrototype_eq distinct]
  by_cases here : callable.key = key
  · subst here
    rw [if_pos rfl]
    cases held : callables.find? (·.key == callable.key) with
    | none => simp [find?_place, supersede]
    | some other =>
      simp only [Option.any_some, supersede]
      split
      · exact held
      · rw [find?_place, if_pos rfl]
  · rw [if_neg here]
    split
    · rfl
    · rw [find?_place, if_neg here]

theorem latest?_append (callables : List Callable) (callable : Callable) (key : Text) :
    latest? (callables ++ [callable]) key =
      if callable.key = key then some (supersede (latest? callables key) callable)
      else latest? callables key := by
  rw [latest?, latest?, List.reverse_append, List.reverse_singleton, List.singleton_append]
  generalize callables.reverse = behind
  by_cases here : callable.key = key
  case neg => simp [Scope.preferred?, here]
  case pos =>
    rw [if_pos here]
    cases marked : callable.isPrototype with
    | true =>
      have displaces (held : Option Callable) : supersede held callable = callable := by
        cases held <;> simp [supersede, marked]
      rw [displaces]
      simp [Scope.preferred?, here, marked]
    | false =>
      cases prototype :
          behind.find? (fun callable => callable.key == key && callable.isPrototype) with
      | some first =>
        have found := List.find?_some prototype
        have isPrototype : first.isPrototype = true := (Bool.and_eq_true_iff.mp found).2
        simp [Scope.preferred?, here, marked, prototype, supersede, isPrototype]
      | none =>
        -- No prototype is met, so what is held is none either.
        cases held : behind.find? (·.key == key) with
        | none => simp [Scope.preferred?, here, marked, prototype, held, supersede]
        | some first =>
          have plain : first.isPrototype = false := by
            have keyed := List.find?_some held
            have unmarked := List.find?_eq_none.mp prototype first (List.mem_of_find?_eq_some held)
            simpa [keyed] using unmarked
          simp [Scope.preferred?, here, marked, prototype, held, supersede, plain]

theorem find?_foldl_declare (callables : List Callable) (key : Text) :
    (callables.foldl declare []).find? (·.key == key) = latest? callables key := by
  induction callables using List.reverseRecOn with
  | nil => rfl
  | append_singleton callables callable ih =>
    rw [List.foldl_append, List.foldl_cons, List.foldl_nil,
      find?_declare (distinctKeys_foldl_declare callables), latest?_append, ih]

theorem keys_declare (callables : List Callable) (callable : Callable) :
    (declare callables callable).map Callable.key =
      if callable.key ∈ callables.map Callable.key then callables.map Callable.key
      else callables.map Callable.key ++ [callable.key] := by
  by_cases known : ∃ first ∈ callables, first.key = callable.key
  · rw [if_pos (List.mem_map.mpr known), declare]
    split
    · rfl
    · exact keys_place known
  · have free : hasPrototype callables callable.key = false := by
      rw [Bool.eq_false_iff, Ne, hasPrototype_iff]
      rintro ⟨first, member, same, -⟩
      exact known ⟨first, member, same⟩
    rw [if_neg (mt List.mem_map.mp known), declare_of_free free, place_of_not_mem (by simpa using known),
      List.map_append, List.map_singleton]

/-! ## Variables and constants -/

section First

variable {α : Type} {key : α → Text}

theorem find?_keepFirst (key : α → Text) (symbols : List α) (symbol : α) (name : Text) :
    (keepFirst key symbols symbol).find? (key · == name) =
      (symbols ++ [symbol]).find? (key · == name) := by
  by_cases known : ∃ other ∈ symbols, key other = key symbol
  case neg => rw [keepFirst_of_not_mem (by simpa using known)]
  case pos =>
    rw [keepFirst_of_mem known, List.find?_append]
    cases held : symbols.find? (key · == name) with
    | some first => rfl
    | none =>
      -- Nothing of that name is known, so `symbol` has another one.
      obtain ⟨other, member, same⟩ := known
      have differ := List.find?_eq_none.mp held other member
      rw [same] at differ
      simp [differ]

theorem find?_foldl_keepFirst (key : α → Text) (symbols : List α) (name : Text) :
    (symbols.foldl (keepFirst key) []).find? (key · == name) = symbols.find? (key · == name) := by
  induction symbols using List.reverseRecOn with
  | nil => rfl
  | append_singleton symbols symbol ih =>
    rw [List.foldl_append, List.foldl_cons, List.foldl_nil, find?_keepFirst, List.find?_append, ih,
      List.find?_append]

theorem keys_keepFirst (symbols : List α) (symbol : α) :
    (keepFirst key symbols symbol).map key =
      if key symbol ∈ symbols.map key then symbols.map key
      else symbols.map key ++ [key symbol] := by
  by_cases known : ∃ other ∈ symbols, key other = key symbol
  · rw [if_pos (List.mem_map.mpr known), keepFirst_of_mem known]
  · rw [if_neg (mt List.mem_map.mp known), keepFirst_of_not_mem (by simpa using known),
      List.map_append, List.map_singleton]

end First

/-! ## One symbol for each key -/

/--
Of the symbols in `declared` there is one for each key in `kept`, the one that `choose` says. Keys
stand in the order in which they are met first.
-/
structure OnePerKey {α : Type} (key : α → Text) (choose : Text → Option α) (declared kept : List α) :
    Prop where
  distinct : (kept.map key).Nodup
  ordered : kept.map key = (declared.map key).eraseDups
  chosen (name : Text) : kept.filter (key · == name) = (choose name).toList

namespace OnePerKey

variable {α : Type} {key : α → Text} {choose : Text → Option α} {declared kept : List α}

theorem of_find? (ordered : kept.map key = (declared.map key).eraseDups)
    (found : ∀ name, kept.find? (key · == name) = choose name) :
    OnePerKey key choose declared kept := by
  have distinct : (kept.map key).Nodup := ordered ▸ Table.nodup_eraseDups _
  exact ⟨distinct, ordered, fun name => found name ▸ filter_eq_find? distinct name⟩

theorem mem_iff (one : OnePerKey key choose declared kept) {symbol : α} :
    symbol ∈ kept ↔ choose (key symbol) = some symbol := by
  rw [← Option.mem_toList, ← one.chosen, List.mem_filter]
  simp

theorem mem_keys_iff (one : OnePerKey key choose declared kept) {name : Text} :
    name ∈ kept.map key ↔ name ∈ declared.map key := by
  rw [one.ordered, List.mem_eraseDups]

end OnePerKey

/--
The outline has one entry for each name that is declared: of the callables the last prototype or
else the last one, of the variables and of the constants the first one.
-/
structure Lists (declared : List Entry) (outline : Outline) : Prop where
  callables : OnePerKey Callable.key (latest? (declared.filterMap Entry.callable?))
    (declared.filterMap Entry.callable?) outline.callables
  globals : OnePerKey Global.key
    (fun name => (declared.filterMap Entry.global?).find? (·.key == name))
    (declared.filterMap Entry.global?) outline.globals
  constants : OnePerKey Constant.key
    (fun name => (declared.filterMap Entry.constant?).find? (·.key == name))
    (declared.filterMap Entry.constant?) outline.constants

/-- Whatever is put in, in whatever order, an outline has one entry for each name. -/
theorem putAll_lists (entries : List Entry) : Lists entries (empty.putAll entries) := by
  rw [putAll_eq]
  exact ⟨.of_find? (keys_foldl keys_declare _) (find?_foldl_declare _),
    .of_find? (keys_foldl keys_keepFirst _) (find?_foldl_keepFirst _ _),
    .of_find? (keys_foldl keys_keepFirst _) (find?_foldl_keepFirst _ _)⟩

/-! ## Fewer symbols -/

theorem find?_filter_of_find? {α : Type} {symbols : List α} {symbol : α} {meets keep : α → Bool}
    (found : symbols.find? meets = some symbol) (kept : keep symbol = true) :
    (symbols.filter keep).find? meets = some symbol := by
  obtain ⟨met, before, behind, rfl, unmet⟩ := List.find?_eq_some_iff_append.mp found
  rw [List.filter_append, List.filter_cons_of_pos kept, List.find?_eq_some_iff_append]
  exact ⟨met, _, _, rfl, fun other member => unmet other (List.mem_of_mem_filter member)⟩

/-- What is held for a key is still held if others have been left out. -/
theorem latest?_filter {keep : Callable → Bool} (found : latest? callables key = some callable)
    (kept : keep callable = true) : latest? (callables.filter keep) key = some callable := by
  rw [latest?, ← List.filter_reverse]
  rw [latest?] at found
  generalize callables.reverse = behind at found
  unfold Scope.preferred? at found ⊢
  cases prototype : behind.find? (fun callable => callable.key == key && callable.isPrototype) with
  | some first =>
    rw [prototype] at found
    cases found
    rw [find?_filter_of_find? prototype kept]
    rfl
  | none =>
    have none' : (behind.filter keep).find?
        (fun callable => callable.key == key && callable.isPrototype) = none := by
      rw [List.find?_eq_none] at prototype ⊢
      exact fun other member => prototype other (List.mem_of_mem_filter member)
    rw [prototype] at found
    rw [none']
    exact find?_filter_of_find? found kept

end PawnScope.Outline
