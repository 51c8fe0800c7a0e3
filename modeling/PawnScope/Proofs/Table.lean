import Mathlib.Data.List.Nodup
import PawnScope.Table
/-!
Tables with one entry for each key, and how often a value occurs in all the lists that a table holds.
-/

namespace PawnScope.Table

variable {κ α β : Type}

theorem nodup_eraseDups [BEq κ] [LawfulBEq κ] (keys : List κ) : keys.eraseDups.Nodup := by
  induction size : keys.length using Nat.strongRecOn generalizing keys with
  | ind size ih =>
    cases keys with
    | nil => exact List.nodup_nil
    | cons first rest =>
      have shorter := List.length_filter_le (fun key => !key == first) rest
      rw [List.eraseDups_cons, List.nodup_cons]
      refine ⟨?_, ih _ ?_ _ rfl⟩
      · simp [List.mem_eraseDups]
      · rw [List.length_cons] at size
        omega

/-- No key has two entries. -/
def Distinct (table : Table κ α) : Prop :=
  (table.entries.map Prod.fst).Nodup

theorem empty_distinct : (empty : Table κ α).Distinct :=
  List.nodup_nil

variable [DecidableEq κ] {table : Table κ α} {key : κ} {value : α}

theorem Distinct.erase (distinct : table.Distinct) (key : κ) : (table.erase key).Distinct :=
  distinct.sublist (List.filter_sublist.map _)

theorem Distinct.insert (distinct : table.Distinct) (key : κ) (value : α) :
    (table.insert key value).Distinct := by
  refine List.nodup_cons.mpr ⟨?_, distinct.erase key⟩
  simp [Table.erase]

theorem mem_of_get? (found : table.get? key = some value) : (key, value) ∈ table.entries := by
  obtain ⟨⟨key', value'⟩, first, rfl⟩ := Option.map_eq_some_iff.mp found
  have same : key' = key := by simpa using List.find?_some first
  exact same ▸ List.mem_of_find?_eq_some first

theorem mem_entries_iff (distinct : table.Distinct) :
    (key, value) ∈ table.entries ↔ table.get? key = some value := by
  refine ⟨?_, mem_of_get?⟩
  obtain ⟨entries⟩ := table
  induction entries with
  | nil => simp
  | cons entry rest ih =>
    obtain ⟨first, held⟩ := entry
    obtain ⟨apart, distinct'⟩ := List.nodup_cons.mp distinct
    intro member
    rcases List.mem_cons.mp member with same | member
    · cases same
      simp [get?]
    · have differ : first ≠ key := by
        rintro rfl
        exact apart (List.mem_map.mpr ⟨_, member, rfl⟩)
      simpa [get?, differ] using ih distinct' member

theorem mem_entries_insert {entry : κ × α} (member : entry ∈ (table.insert key value).entries) :
    entry = (key, value) ∨ entry ∈ table.entries := by
  rcases List.mem_cons.mp member with same | member
  · exact .inl same
  · exact .inr (List.mem_of_mem_filter member)

theorem mem_entries_erase {entry : κ × α} :
    entry ∈ (table.erase key).entries ↔ entry ∈ table.entries ∧ entry.1 ≠ key := by
  simp [Table.erase]

theorem get?_erase (table : Table κ α) (key other : κ) :
    (table.erase key).get? other = if other = key then none else table.get? other := by
  by_cases same : other = key
  · simp [same]
  · rw [if_neg same, get?_erase_of_ne table same]

theorem get?_foldl_erase (keys : List κ) (table : Table κ α) (key : κ) :
    (keys.foldl Table.erase table).get? key = if key ∈ keys then none else table.get? key := by
  induction keys generalizing table with
  | nil => simp
  | cons first rest ih =>
    rw [List.foldl_cons, ih, get?_erase]
    by_cases same : key = first <;> simp [same]

/-! ## Counting -/

/-- All that the lists of a table's values have. -/
def gather (list : α → List β) (table : Table κ α) : List β :=
  table.entries.flatMap fun entry => list entry.2

omit [DecidableEq κ] in
theorem mem_gather {list : α → List β} {x : β} :
    x ∈ table.gather list ↔ ∃ entry ∈ table.entries, x ∈ list entry.2 := by
  simp [gather]

theorem count_gather_insert [DecidableEq β] (list : α → List β) (x : β) :
    ((table.insert key value).gather list).count x =
      (list value).count x + ((table.erase key).gather list).count x := by
  simp [gather, Table.insert]

/-- Erasing a key takes away what its value has, and no more. -/
theorem Distinct.count_gather_erase [DecidableEq β] (distinct : table.Distinct) (key : κ)
    (list : α → List β) (x : β) :
    ((table.erase key).gather list).count x + ((table.get? key).elim [] list).count x =
      (table.gather list).count x := by
  obtain ⟨entries⟩ := table
  induction entries with
  | nil => simp [gather, Table.erase, get?]
  | cons entry rest ih =>
    obtain ⟨apart, distinct'⟩ := List.nodup_cons.mp distinct
    have all : ((⟨entry :: rest⟩ : Table κ α).gather list).count x =
        (list entry.2).count x + ((⟨rest⟩ : Table κ α).gather list).count x := by
      simp [gather]
    by_cases same : entry.1 = key
    · have left : (⟨entry :: rest⟩ : Table κ α).erase key = ⟨rest⟩ := by
        have others : ∀ other ∈ rest, other.1 ≠ key := fun other member equal =>
          apart (List.mem_map.mpr ⟨other, member, equal.trans same.symm⟩)
        simpa [Table.erase, same] using others
      have found : (⟨entry :: rest⟩ : Table κ α).get? key = some entry.2 := by
        simp [get?, same]
      rw [left, found, all, Option.elim_some]
      omega
    · have left : ((⟨entry :: rest⟩ : Table κ α).erase key).gather list =
          list entry.2 ++ ((⟨rest⟩ : Table κ α).erase key).gather list := by
        simp [gather, Table.erase, same]
      have found : (⟨entry :: rest⟩ : Table κ α).get? key = (⟨rest⟩ : Table κ α).get? key := by
        simp [get?, same]
      have fewer := ih distinct'
      rw [left, found, all, List.count_append]
      omega

/-- Erasing several keys takes away what their values have. -/
theorem Distinct.count_gather_foldl_erase [DecidableEq β] (distinct : table.Distinct)
    {keys : List κ} (different : keys.Nodup) (list : α → List β) (x : β) :
    ((keys.foldl Table.erase table).gather list).count x +
        (keys.flatMap fun key => (table.get? key).elim [] list).count x =
      (table.gather list).count x := by
  induction keys generalizing table with
  | nil => simp
  | cons first rest ih =>
    obtain ⟨apart, different'⟩ := List.nodup_cons.mp different
    have others : (rest.flatMap fun key => ((table.erase first).get? key).elim [] list) =
        rest.flatMap fun key => (table.get? key).elim [] list := by
      refine List.flatMap_congr fun key member => ?_
      have differ : key ≠ first := by
        rintro rfl
        exact apart member
      rw [get?_erase_of_ne table differ]
    have one := distinct.count_gather_erase first list x
    have later := ih (distinct.erase first) different'
    rw [others] at later
    rw [List.foldl_cons, List.flatMap_cons, List.count_append]
    omega

end PawnScope.Table
