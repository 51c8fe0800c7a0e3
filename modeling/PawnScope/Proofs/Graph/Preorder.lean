import Mathlib.Data.List.Nodup
import PawnScope.Graph.Preorder
/-!
Depth-first preorder as a relation, without a bound on the length of paths. Main results:
`preorder_visits`, that the bounded walk is this walk once the bound exceeds the number of nodes that
lead anywhere, and `Visits.mem_iff`, that the walk sees what the edges lead to and nothing else.
-/

namespace PawnScope

variable {α β : Type}

/-- What the edges `next` lead to from `start`. -/
inductive Reach (next : α → List α) (start : List α) : α → Prop where
  | start {x : α} : x ∈ start → Reach next start x
  | step {x y : α} : Reach next start x → y ∈ next x → Reach next start y

namespace Reach

variable {next next' : α → List α} {start start' : List α} {x : α}

/-- A set with all of `start` that no edge leads out of has all that is reached. -/
theorem of_closed {inside : α → Prop} (reached : Reach next start x)
    (initial : ∀ y ∈ start, inside y) (closed : ∀ y, inside y → ∀ z ∈ next y, inside z) :
    inside x := by
  induction reached with
  | start member => exact initial _ member
  | step _ edge ih => exact closed _ ih _ edge

/-- A walk goes over into another one if all its starts and edges can be followed there. -/
theorem lift (reached : Reach next start x) (initial : ∀ y ∈ start, Reach next' start' y)
    (edges : ∀ y, Reach next' start' y → ∀ z ∈ next y, Reach next' start' z) :
    Reach next' start' x :=
  reached.of_closed initial edges

theorem mono (reached : Reach next start x) (initial : start ⊆ start')
    (edges : ∀ y, next y ⊆ next' y) : Reach next' start' x :=
  reached.lift (fun _ member => .start (initial member))
    (fun y reached _ edge => reached.step (edges y edge))

end Reach

/--
`Visits next seen todo out`: after the nodes `seen`, visiting `todo` and all that `next` leads to in
depth-first preorder gives `out`. A node that has been seen is passed over.
-/
inductive Visits (next : α → List α) : List α → List α → List α → Prop where
  | done {seen : List α} : Visits next seen [] seen
  | skip {x : α} {seen rest out : List α} :
      x ∈ seen → Visits next seen rest out → Visits next seen (x :: rest) out
  | enter {x : α} {seen rest inner out : List α} :
      x ∉ seen → Visits next (seen ++ [x]) (next x) inner → Visits next inner rest out →
      Visits next seen (x :: rest) out

namespace Visits

variable {next : α → List α} {seen todo out : List α} {x : α}

/-- What has been seen stays, and what is new comes after it. -/
theorem grows (visits : Visits next seen todo out) : ∃ fresh, out = seen ++ fresh := by
  induction visits with
  | done => exact ⟨[], by simp⟩
  | skip _ _ ih => exact ih
  | enter _ _ _ first second =>
    obtain ⟨inside, rfl⟩ := first
    obtain ⟨later, rfl⟩ := second
    exact ⟨_, by rw [List.append_assoc, List.append_assoc]⟩

theorem append_drop (visits : Visits next seen todo out) : seen ++ out.drop seen.length = out := by
  obtain ⟨fresh, rfl⟩ := visits.grows
  rw [List.drop_left]

theorem seen_subset (visits : Visits next seen todo out) : seen ⊆ out := by
  obtain ⟨fresh, rfl⟩ := visits.grows
  exact List.subset_append_left _ _

theorem todo_subset (visits : Visits next seen todo out) : todo ⊆ out := by
  induction visits with
  | done => exact List.nil_subset _
  | skip member later ih => exact List.cons_subset.mpr ⟨later.seen_subset member, ih⟩
  | @enter x seen _ _ _ _ inside later _ second =>
    have entered : x ∈ seen ++ [x] := List.mem_append_right _ List.mem_cons_self
    exact List.cons_subset.mpr ⟨later.seen_subset (inside.seen_subset entered), second⟩

theorem nodup (visits : Visits next seen todo out) (distinct : seen.Nodup) : out.Nodup := by
  induction visits with
  | done => exact distinct
  | skip _ _ ih => exact ih distinct
  | enter fresh _ _ first second =>
    refine second (first ?_)
    rw [List.nodup_append]
    refine ⟨distinct, List.nodup_singleton _, ?_⟩
    intro a member b equal same
    rw [List.mem_singleton.mp equal] at same
    exact fresh (same ▸ member)

/-- What is new has been entered, so its edges have been followed. -/
theorem closed (visits : Visits next seen todo out) :
    ∀ y ∈ out, y ∉ seen → next y ⊆ out := by
  induction visits with
  | done => exact fun _ member fresh => absurd member fresh
  | skip _ _ ih => exact ih
  | @enter x seen _ inner _ _ inside later first second =>
    intro y member fresh
    by_cases early : y ∈ inner
    · by_cases same : y = x
      · subst same
        exact fun _ edge => later.seen_subset (inside.todo_subset edge)
      · have outside : y ∉ seen ++ [x] := by
          simpa [same] using fresh
        exact fun _ edge => later.seen_subset (first y early outside edge)
    · exact second y member early

/-- What is new has been met without passing through what had been seen before. -/
theorem fresh_of_closed {inside : α → Prop} (visits : Visits next seen todo out)
    (initial : ∀ y ∈ todo, y ∉ seen → inside y)
    (closed : ∀ y, inside y → ∀ z ∈ next y, z ∉ seen → inside z) :
    ∀ y ∈ out, y ∉ seen → inside y := by
  induction visits with
  | done => exact fun _ member fresh => absurd member fresh
  | skip _ _ ih => exact ih (fun y member => initial y (List.mem_cons_of_mem _ member)) closed
  | @enter x seen rest inner out fresh below later first second =>
    have entered : inside x := initial x List.mem_cons_self fresh
    have within : seen ⊆ inner :=
      fun _ member => below.seen_subset (List.mem_append_left _ member)
    have first' : ∀ y ∈ inner, y ∉ seen ++ [x] → inside y :=
      first (fun y edge apart => closed x entered y edge (mt (List.mem_append_left _) apart))
        (fun y held z edge apart => closed y held z edge (mt (List.mem_append_left _) apart))
    have second' : ∀ y ∈ out, y ∉ inner → inside y :=
      second (fun y member apart => initial y (List.mem_cons_of_mem _ member) (mt (@within y) apart))
        (fun y held z edge apart => closed y held z edge (mt (@within z) apart))
    intro y member apart
    by_cases early : y ∈ inner
    · by_cases same : y = x
      · exact same ▸ entered
      · exact first' y early (by simpa [same] using apart)
    · exact second' y member early

/-- What is new is led to. -/
theorem reach (visits : Visits next seen todo out) : ∀ y ∈ out, y ∉ seen → Reach next todo y :=
  visits.fresh_of_closed (fun _ member _ => .start member) fun _ reached _ edge _ => reached.step edge

/-- A walk that begins with nothing seen sees exactly what is led to. -/
theorem mem_iff (visits : Visits next [] todo out) : x ∈ out ↔ Reach next todo x := by
  constructor
  · intro member
    exact visits.reach x member List.not_mem_nil
  · intro reached
    exact reached.of_closed (fun _ member => visits.todo_subset member)
      (fun y member _ edge => visits.closed y member List.not_mem_nil edge)

theorem unique (visits : Visits next seen todo out) :
    ∀ {out'}, Visits next seen todo out' → out' = out := by
  induction visits with
  | done =>
    intro out' other
    cases other
    rfl
  | skip member _ ih =>
    intro out' other
    cases other with
    | skip _ later => exact ih later
    | enter fresh _ _ => exact absurd member fresh
  | enter fresh _ _ first second =>
    intro out' other
    cases other with
    | skip member _ => exact absurd member fresh
    | enter _ inside later =>
      rw [first inside] at later
      exact second later

/-- Renaming the nodes renames the walk, as long as no two of its nodes get one name. -/
theorem map (next' : β → List β) (name : α → β) (visits : Visits next seen todo out)
    (distinct : ∀ a ∈ out, ∀ b ∈ out, name a = name b → a = b)
    (edges : ∀ a ∈ out, a ∉ seen → next' (name a) = (next a).map name) :
    Visits next' (seen.map name) (todo.map name) (out.map name) := by
  induction visits with
  | done => exact .done
  | skip member _ ih => exact .skip (List.mem_map_of_mem member) (ih distinct edges)
  | @enter x seen rest inner out fresh inside later first second =>
    have entered : x ∈ inner := inside.seen_subset (List.mem_append_right _ List.mem_cons_self)
    have within : inner ⊆ out := later.seen_subset
    have within' : seen ⊆ inner :=
      fun _ member => inside.seen_subset (List.mem_append_left _ member)
    have renamed : Visits next' ((seen ++ [x]).map name) ((next x).map name) (inner.map name) :=
      first (fun a one b two => distinct a (within one) b (within two))
        (fun a member outside => edges a (within member)
          (fun early => outside (List.mem_append_left _ early)))
    rw [← edges x (within entered) fresh, List.map_append] at renamed
    refine .enter ?_ renamed ?_
    · intro member
      obtain ⟨a, seen', same⟩ := List.mem_map.mp member
      exact fresh (distinct a (within (within' seen')) x (within entered) same ▸ seen')
    · exact second distinct
        (fun a member outside => edges a member (fun early => outside (within' early)))

/-- What is new has not been seen before, and is led to. -/
theorem reach_of_fresh {fresh : List α} (visits : Visits next seen todo (seen ++ fresh))
    (distinct : seen.Nodup) (member : x ∈ fresh) : x ∉ seen ∧ Reach next todo x := by
  have apart : x ∉ seen := fun early =>
    (List.nodup_append.mp (visits.nodup distinct)).2.2 x early x member rfl
  exact ⟨apart, visits.reach x (List.mem_append_right _ member) apart⟩

/-- The walk depends on the edges of the nodes that are new, and on no others. -/
theorem congr {next' : α → List α} (visits : Visits next seen todo out)
    (same : ∀ x ∈ out, x ∉ seen → next' x = next x) : Visits next' seen todo out := by
  have renamed := visits.map next' id (fun _ _ _ _ equal => equal)
    fun x member fresh => by rw [id, same x member fresh, List.map_id]
  simpa using renamed

/-- A node that is never met may as well have been seen before. -/
theorem seen_cons (visits : Visits next seen todo out) {apart : α} (unmet : apart ∉ out) :
    Visits next (apart :: seen) todo (apart :: out) := by
  induction visits with
  | done => exact .done
  | skip member _ ih => exact .skip (List.mem_cons_of_mem _ member) (ih unmet)
  | @enter x seen rest inner out fresh inside later first second =>
    have entered : x ∈ inner := inside.seen_subset (List.mem_append_right _ List.mem_cons_self)
    refine .enter ?_ (first fun member => unmet (later.seen_subset member)) (second unmet)
    intro member
    rcases List.mem_cons.mp member with same | member
    · exact unmet (same ▸ later.seen_subset entered)
    · exact fresh member

end Visits

/-! ## The bounded walk -/

section Bounded

variable [DecidableEq α] {next : α → List α}

/-- How many of the nodes that lead anywhere have not been seen. -/
def unseen (inner seen : List α) : Nat :=
  (inner.filter fun x => !seen.contains x).length

theorem unseen_le (inner seen : List α) : unseen inner seen ≤ inner.length :=
  List.length_filter_le _ _

theorem unseen_mono {inner seen seen' : List α} (more : seen ⊆ seen') :
    unseen inner seen' ≤ unseen inner seen := by
  refine (List.monotone_filter_right inner ?_).length_le
  intro x
  simpa using fun outside member => outside (more member)

theorem unseen_append_lt {inner seen : List α} {x : α} (member : x ∈ inner) (fresh : x ∉ seen) :
    unseen inner (seen ++ [x]) < unseen inner seen := by
  have split : inner.filter (fun y => !(seen ++ [x]).contains y) =
      (inner.filter fun y => !seen.contains y).filter (· ≠ x) := by
    rw [List.filter_filter]
    refine List.filter_congr fun y _ => ?_
    by_cases same : y = x <;> simp [same]
  rw [unseen, split, unseen, List.length_filter_lt_length_iff_exists]
  exact ⟨x, List.mem_filter.mpr ⟨member, by simpa using fresh⟩, by simp⟩

theorem preorder_succ (bound : Nat) (seen todo : List α) :
    preorder next (bound + 1) seen todo =
      todo.foldl (fun seen x =>
        if seen.contains x then seen else preorder next bound (seen ++ [x]) (next x)) seen := rfl

/--
The bounded walk is the walk, if the bound exceeds the number of unseen nodes among `inner`, which
has every node with edges that can be met.
-/
theorem preorder_visits {inner : List α} (met : α → Prop)
    (expands : ∀ x, met x → next x ≠ [] → x ∈ inner) (edges : ∀ x, met x → ∀ y ∈ next x, met y)
    (bound : Nat) (seen todo : List α) (initial : ∀ x ∈ todo, met x)
    (enough : unseen inner seen < bound) :
    Visits next seen todo (preorder next bound seen todo) := by
  -- on the bound, and inside on the list: only entering a node with edges uses the bound up
  induction bound generalizing seen todo with
  | zero => exact absurd enough (Nat.not_lt_zero _)
  | succ bound ih =>
    rw [preorder_succ]
    induction todo generalizing seen with
    | nil => exact .done
    | cons x rest later =>
      have initial' : ∀ y ∈ rest, met y := fun y member => initial y (List.mem_cons_of_mem _ member)
      have metx : met x := initial x List.mem_cons_self
      rw [List.foldl_cons]
      by_cases member : x ∈ seen
      · rw [if_pos (by simpa using member)]
        exact .skip member (later seen initial' enough)
      · rw [if_neg (by simpa using member)]
        have inside : Visits next (seen ++ [x]) (next x)
            (preorder next bound (seen ++ [x]) (next x)) := by
          by_cases leaf : next x = []
          · -- a leaf may be entered when the bound is used up, since nothing is left to follow
            have stays : preorder next bound (seen ++ [x]) [] = seen ++ [x] := by
              cases bound with
              | zero => rfl
              | succ bound => rfl
            rw [leaf, stays]
            exact .done
          · have lower := unseen_append_lt (expands x metx leaf) member
            exact ih _ _ (edges x metx) (by omega)
        have more : seen ⊆ preorder next bound (seen ++ [x]) (next x) :=
          fun _ early => inside.seen_subset (List.mem_append_left _ early)
        exact .enter member inside
          (later _ initial' (Nat.lt_of_le_of_lt (unseen_mono more) enough))

end Bounded

end PawnScope
