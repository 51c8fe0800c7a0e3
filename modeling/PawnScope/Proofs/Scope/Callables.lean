import PawnScope.Proofs.Symbol.Outline
import PawnScope.Scope.Merge
/-!
What becomes of callables that are met one after the other. Main results: `find?_absorbAll`, that
the first prototype of a key is kept, or the first callable if there is none, and `keys_absorbAll`,
that keys stand in the order in which they are met first.
-/

namespace PawnScope.Scope

open Outline (DistinctKeys hasPrototype place)

variable {callables rest : List Callable} {callable first : Callable} {key : Text}

/-- Of the callables with a key the first prototype, or the first of them all if none is one. -/
def preferred? (callables : List Callable) (key : Text) : Option Callable :=
  callables.find? (fun callable => callable.key == key && callable.isPrototype) <|>
    callables.find? (·.key == key)

/-- What is held for a key after one more callable with that key. -/
def keep (held : Option Callable) (callable : Callable) : Callable :=
  match held with
  | none => callable
  | some other => if callable.isPrototype && !other.isPrototype then callable else other

/-- Several further callables. -/
def absorbAll (callables more : List Callable) : List Callable :=
  more.foldl (fun callables callable => absorb callable callables) callables

theorem absorbAll_append (callables more : List Callable) (callable : Callable) :
    absorbAll callables (more ++ [callable]) = absorb callable (absorbAll callables more) := by
  simp [absorbAll]

theorem keep_key (same : first.key = callable.key) :
    (keep (some first) callable).key = callable.key := by
  rw [keep]
  split
  · rfl
  · exact same

theorem absorb_cons_of_eq (same : first.key = callable.key) :
    absorb callable (first :: rest) = keep (some first) callable :: rest := by
  rw [absorb, if_pos same, keep]

theorem absorb_cons_of_ne (differ : first.key ≠ callable.key) :
    absorb callable (first :: rest) = first :: absorb callable rest := by
  rw [absorb, if_neg differ]

/-! ## What is held -/

theorem find?_absorb (callable : Callable) (callables : List Callable) (key : Text) :
    (absorb callable callables).find? (·.key == key) =
      if callable.key = key then some (keep (callables.find? (·.key == key)) callable)
      else callables.find? (·.key == key) := by
  induction callables with
  | nil => by_cases here : callable.key = key <;> simp [absorb, keep, here]
  | cons first rest ih =>
    by_cases same : first.key = callable.key
    · rw [absorb_cons_of_eq same]
      have kept := keep_key same
      by_cases here : callable.key = key <;> simp [kept, same, here]
    · rw [absorb_cons_of_ne same]
      by_cases here : first.key = key
      · have differ : callable.key ≠ key := fun equal => same (here.trans equal.symm)
        simp [here, differ]
      · simp [here, ih]

/-- A further callable does to what is preferred what it does to what is held. -/
theorem preferred?_append (callables : List Callable) (callable : Callable) (key : Text) :
    preferred? (callables ++ [callable]) key =
      if callable.key = key then some (keep (preferred? callables key) callable)
      else preferred? callables key := by
  unfold preferred?
  rw [List.find?_append, List.find?_append]
  by_cases here : callable.key = key
  · cases marked :
      callables.find? (fun callable => callable.key == key && callable.isPrototype) with
    | some prototype =>
      have found := List.find?_some marked
      have isPrototype : prototype.isPrototype = true := (Bool.and_eq_true_iff.mp found).2
      simp [here, keep, isPrototype]
    | none =>
      cases held : callables.find? (·.key == key) with
      | none => cases new : callable.isPrototype <;> simp [here, keep, new]
      | some other =>
        have isBody : other.isPrototype = false := by
          have keyed := List.find?_some held
          have unmarked := List.find?_eq_none.mp marked other (List.mem_of_find?_eq_some held)
          simpa [keyed] using unmarked
        cases new : callable.isPrototype <;> simp [here, keep, new, isBody]
  · simp [here]

theorem find?_absorbAll (callables : List Callable) (key : Text) :
    (absorbAll [] callables).find? (·.key == key) = preferred? callables key := by
  -- From the back, as one more callable meets what the earlier ones have left.
  induction callables using List.reverseRecOn with
  | nil => rfl
  | append_singleton callables callable ih =>
    rw [absorbAll_append, find?_absorb, preferred?_append, ih]

/-! ## Keys -/

theorem keys_absorb (callable : Callable) (callables : List Callable) :
    (absorb callable callables).map Callable.key =
      if callable.key ∈ callables.map Callable.key then callables.map Callable.key
      else callables.map Callable.key ++ [callable.key] := by
  induction callables with
  | nil => simp [absorb]
  | cons first rest ih =>
    by_cases same : first.key = callable.key
    · rw [absorb_cons_of_eq same]
      simp [keep_key same, same]
    · rw [absorb_cons_of_ne same, List.map_cons, ih]
      by_cases known : callable.key ∈ rest.map Callable.key <;> simp [known, Ne.symm same]

theorem keys_absorbAll (callables : List Callable) :
    (absorbAll [] callables).map Callable.key = (callables.map Callable.key).eraseDups :=
  Outline.keys_foldl (fun callables callable => keys_absorb callable callables) callables

theorem distinctKeys_absorb (distinct : DistinctKeys callables) (callable : Callable) :
    DistinctKeys (absorb callable callables) := by
  rw [DistinctKeys, keys_absorb]
  split
  · exact distinct
  · next fresh =>
    rw [← List.map_singleton, ← List.map_append]
    exact distinct.concat fun first member same =>
      fresh (List.mem_map.mpr ⟨first, member, same⟩)

/-! ## Prototypes -/

theorem hasPrototype_cons (first : Callable) (rest : List Callable) (key : Text) :
    hasPrototype (first :: rest) key =
      ((first.key == key && first.isPrototype) || hasPrototype rest key) := by
  rw [hasPrototype, List.any_cons, hasPrototype]

theorem keep_isPrototype (held callable : Callable) :
    (keep (some held) callable).isPrototype = (held.isPrototype || callable.isPrototype) := by
  cases old : held.isPrototype <;> cases new : callable.isPrototype <;> simp [keep, old, new]

theorem hasPrototype_absorb (callable : Callable) (callables : List Callable) (key : Text) :
    hasPrototype (absorb callable callables) key =
      (hasPrototype callables key || (callable.key == key && callable.isPrototype)) := by
  induction callables with
  | nil => simp [absorb, hasPrototype]
  | cons first rest ih =>
    by_cases same : first.key = callable.key
    · rw [absorb_cons_of_eq same, hasPrototype_cons, hasPrototype_cons, keep_key same,
        keep_isPrototype, same, Bool.and_or_distrib_left, Bool.or_right_comm]
    · rw [absorb_cons_of_ne same, hasPrototype_cons, hasPrototype_cons, ih, Bool.or_assoc]

theorem hasPrototype_absorbAll (callables more : List Callable) (key : Text) :
    hasPrototype (absorbAll callables more) key =
      (hasPrototype callables key || hasPrototype more key) := by
  induction more generalizing callables with
  | nil => simp [absorbAll, hasPrototype]
  | cons first rest ih =>
    have step : absorbAll callables (first :: rest) = absorbAll (absorb first callables) rest := rfl
    rw [step, ih, hasPrototype_absorb, hasPrototype_cons, Bool.or_assoc]

/-! ## Steps that add one callable -/

section Steps

variable {step : List Callable → Callable → List Callable}

theorem mem_keys_foldl
    (adds : ∀ callables callable, key ∈ (step callables callable).map Callable.key ↔
      key ∈ callables.map Callable.key ∨ key = callable.key)
    (callables more : List Callable) :
    key ∈ (more.foldl step callables).map Callable.key ↔
      key ∈ callables.map Callable.key ∨ key ∈ more.map Callable.key := by
  induction more generalizing callables with
  | nil => simp
  | cons callable rest ih => rw [List.foldl_cons, ih, adds, List.map_cons, List.mem_cons, or_assoc]

end Steps

theorem mem_keys_place (callables : List Callable) (callable : Callable) :
    key ∈ (place callable callables).map Callable.key ↔
      key ∈ callables.map Callable.key ∨ key = callable.key := by
  by_cases known : ∃ first ∈ callables, first.key = callable.key
  · rw [Outline.keys_place known]
    refine ⟨.inl, fun held => held.elim id fun same => ?_⟩
    exact same ▸ List.mem_map.mpr known
  · rw [Outline.place_of_not_mem (by simpa using known)]
    simp

theorem mem_absorb {found : Callable} (member : found ∈ absorb callable callables) :
    found ∈ callables ∨ found = callable := by
  induction callables with
  | nil => exact .inr (List.mem_singleton.mp member)
  | cons first rest ih =>
    rw [absorb] at member
    split at member
    · rcases List.mem_cons.mp member with here | member
      · split at here
        · exact .inr here
        · exact .inl (here ▸ List.mem_cons_self)
      · exact .inl (List.mem_cons_of_mem _ member)
    · rcases List.mem_cons.mp member with rfl | member
      · exact .inl List.mem_cons_self
      · exact (ih member).imp_left (List.mem_cons_of_mem _)

theorem mem_keys_absorb (callables : List Callable) (callable : Callable) :
    key ∈ (absorb callable callables).map Callable.key ↔
      key ∈ callables.map Callable.key ∨ key = callable.key := by
  rw [keys_absorb]
  split
  · next known => exact ⟨.inl, fun held => held.elim id fun same => same ▸ known⟩
  · rw [List.mem_append, List.mem_singleton]

theorem absorb_of_not_mem (fresh : ∀ other ∈ callables, other.key ≠ callable.key) :
    absorb callable callables = callables ++ [callable] := by
  induction callables with
  | nil => rfl
  | cons first rest ih =>
    rw [absorb_cons_of_ne (fresh first List.mem_cons_self),
      ih fun other member => fresh other (List.mem_cons_of_mem _ member), List.cons_append]

end PawnScope.Scope
