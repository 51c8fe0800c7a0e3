/-!
A table of values by key. Of what a table holds only `get?` can be told: `insert` and `erase` say
what they do to it.
-/

namespace PawnScope

/-- Values by key; of two entries for one key the first counts. -/
structure Table (κ α : Type) where
  entries : List (κ × α)
deriving DecidableEq, Repr

namespace Table

variable {κ α : Type} [DecidableEq κ]

def empty : Table κ α :=
  ⟨[]⟩

def get? (table : Table κ α) (key : κ) : Option α :=
  (table.entries.find? (·.1 = key)).map Prod.snd

def contains (table : Table κ α) (key : κ) : Bool :=
  (table.get? key).isSome

def size (table : Table κ α) : Nat :=
  table.entries.length

def erase (table : Table κ α) (key : κ) : Table κ α :=
  ⟨table.entries.filter (·.1 ≠ key)⟩

def insert (table : Table κ α) (key : κ) (value : α) : Table κ α :=
  ⟨(key, value) :: (table.erase key).entries⟩

@[simp] theorem get?_empty (key : κ) : (empty : Table κ α).get? key = none := rfl

@[simp] theorem get?_erase_self (table : Table κ α) (key : κ) :
    (table.erase key).get? key = none := by
  simp [get?, erase, List.find?_filter]

theorem get?_erase_of_ne (table : Table κ α) {key other : κ} (distinct : other ≠ key) :
    (table.erase key).get? other = table.get? other := by
  simp only [get?, erase, List.find?_filter]
  congr 2
  funext entry
  by_cases same : entry.1 = other <;> simp [same, distinct]

@[simp] theorem get?_insert_self (table : Table κ α) (key : κ) (value : α) :
    (table.insert key value).get? key = some value := by
  simp [get?, insert]

theorem get?_insert_of_ne (table : Table κ α) {key other : κ} (value : α)
    (distinct : other ≠ key) : (table.insert key value).get? other = table.get? other := by
  rw [← get?_erase_of_ne table distinct]
  simp [get?, insert, Ne.symm distinct]

end Table

end PawnScope
