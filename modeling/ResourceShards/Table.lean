/-!
# ResourceShards.Table

**Tables.** A table is a list of keys with their values, in the order in which the keys first came.
Giving a key another value keeps its place. The view of a table is look-up: each operation says what
it does to the value found under any key.
-/

namespace ResourceShards

/-- Keys with their values. -/
abbrev Table (κ α : Type) := List (κ × α)

namespace Table

variable {κ α : Type} [DecidableEq κ]

/-- The value of a key. -/
def get? (key : κ) : Table κ α → Option α
  | [] => none
  | (other, value) :: rest => if other = key then some value else get? key rest

/-- Gives a key a value. -/
def insert (key : κ) (value : α) : Table κ α → Table κ α
  | [] => [(key, value)]
  | (other, old) :: rest =>
    if other = key then (key, value) :: rest else (other, old) :: insert key value rest

/-- Takes a key out. -/
def erase (key : κ) : Table κ α → Table κ α
  | [] => []
  | (other, value) :: rest =>
    if other = key then erase key rest else (other, value) :: erase key rest

/-- Whether a key has a value. -/
def contains (key : κ) (table : Table κ α) : Bool :=
  (table.get? key).isSome

/-- Puts a value under a key in terms of the value that is there. -/
def alter (key : κ) (f : Option α → α) (table : Table κ α) : Table κ α :=
  table.insert key (f (table.get? key))

@[simp] theorem get?_nil (key : κ) : get? key ([] : Table κ α) = none := rfl

theorem get?_insert (key other : κ) (value : α) (table : Table κ α) :
    (table.insert key value).get? other = if key = other then some value else table.get? other := by
  induction table with
  | nil => simp [insert, get?]
  | cons entry rest ih =>
    obtain ⟨k, v⟩ := entry
    simp only [insert]
    split
    · rename_i hk
      subst hk
      simp only [get?]
      split <;> rfl
    · rename_i hk
      simp only [get?, ih]
      split
      · rename_i hko
        subst hko
        rw [if_neg (fun h => hk h.symm)]
      · rfl

theorem get?_erase (key other : κ) (table : Table κ α) :
    (table.erase key).get? other = if key = other then none else table.get? other := by
  induction table with
  | nil => simp [erase]
  | cons entry rest ih =>
    obtain ⟨k, v⟩ := entry
    simp only [erase]
    split
    · rename_i hk
      subst hk
      rw [ih]
      split
      · rfl
      · rename_i hne
        simp [get?, hne]
    · rename_i hk
      simp only [get?, ih]
      split
      · rename_i hko
        subst hko
        rw [if_neg (fun h => hk h.symm)]
      · rfl

/-- Keys of a table after one of them got a value. -/
theorem mem_keys_insert (key other : κ) (value : α) (table : Table κ α) :
    other ∈ (table.insert key value).map Prod.fst ↔ other = key ∨ other ∈ table.map Prod.fst := by
  induction table with
  | nil => simp [insert]
  | cons entry rest ih =>
    obtain ⟨k, v⟩ := entry
    simp only [insert]
    split
    · rename_i hk
      subst hk
      simp
    · simp only [List.map_cons, List.mem_cons, ih]
      constructor
      · rintro (h | h | h) <;> simp [h]
      · rintro (h | h | h) <;> simp [h]

/-- Keys stay different from each other. -/
theorem nodup_keys_insert (key : κ) (value : α) {table : Table κ α}
    (h : (table.map Prod.fst).Nodup) : ((table.insert key value).map Prod.fst).Nodup := by
  induction table with
  | nil => simp [insert]
  | cons entry rest ih =>
    obtain ⟨k, v⟩ := entry
    simp only [List.map_cons, List.nodup_cons] at h
    simp only [insert]
    split
    · rename_i hk
      subst hk
      simpa using h
    · rename_i hk
      simp only [List.map_cons, List.nodup_cons, ih h.2, and_true]
      rw [mem_keys_insert]
      rintro (rfl | hmem)
      · exact hk rfl
      · exact h.1 hmem

end Table

end ResourceShards
