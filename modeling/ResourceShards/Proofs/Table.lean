import ResourceShards.Table

/-!
# ResourceShards.Proofs.Table

**Tables by look-up.** In a table whose keys differ from each other, look-up and membership say the
same, so two such tables that agree on every look-up hold the same entries, in some order.
-/

namespace ResourceShards.Table

variable {κ α : Type}

/-- If the keys are different, so are the entries. -/
theorem nodup_of_keys {table : Table κ α} (hkeys : (table.map Prod.fst).Nodup) : table.Nodup :=
  (List.pairwise_map.1 hkeys).imp fun hne heq => hne (congrArg Prod.fst heq)

variable [DecidableEq κ]

/-- What `get?` finds is an entry. -/
theorem mem_of_get? {key : κ} {value : α} {table : Table κ α} (h : table.get? key = some value) :
    (key, value) ∈ table := by
  induction table with
  | nil => exact absurd h.symm (Option.some_ne_none _)
  | cons entry rest ih =>
      obtain ⟨other, found⟩ := entry
      rw [get?] at h
      by_cases heq : other = key
      · rw [if_pos heq, Option.some.injEq] at h
        rw [heq, h]
        exact List.mem_cons_self
      · rw [if_neg heq] at h
        exact List.mem_cons_of_mem _ (ih h)

/-- If the keys are different, `get?` finds exactly the entries. -/
theorem get?_eq_some_iff {key : κ} {value : α} {table : Table κ α}
    (hkeys : (table.map Prod.fst).Nodup) : table.get? key = some value ↔ (key, value) ∈ table := by
  refine ⟨mem_of_get?, ?_⟩
  intro h
  induction table with
  | nil => exact absurd h List.not_mem_nil
  | cons entry rest ih =>
      obtain ⟨other, found⟩ := entry
      rw [List.map_cons, List.nodup_cons] at hkeys
      rw [get?]
      rcases List.mem_cons.1 h with hsame | hrest
      · obtain ⟨rfl, rfl⟩ := Prod.mk.inj hsame
        exact if_pos rfl
      · have hne : other ≠ key := by
          rintro rfl
          exact hkeys.1 (List.mem_map.2 ⟨_, hrest, rfl⟩)
        rw [if_neg hne]
        exact ih hkeys.2 hrest

/-- Tables that agree on every `get?` have the same entries. -/
theorem perm_of_get? {a b : Table κ α} (ha : (a.map Prod.fst).Nodup) (hb : (b.map Prod.fst).Nodup)
    (h : ∀ key, a.get? key = b.get? key) : a.Perm b := by
  refine (List.perm_ext_iff_of_nodup (nodup_of_keys ha) (nodup_of_keys hb)).2 ?_
  intro entry
  rw [← get?_eq_some_iff ha, ← get?_eq_some_iff hb, h]

theorem insert_ne_nil (key : κ) (value : α) (table : Table κ α) : table.insert key value ≠ [] := by
  cases table with
  | nil => exact List.cons_ne_nil _ _
  | cons entry rest =>
      obtain ⟨other, found⟩ := entry
      rw [insert]
      split <;> exact List.cons_ne_nil _ _

/-- Of two values that `insert` gave to one key the last one counts. -/
theorem insert_insert (key : κ) (a b : α) (table : Table κ α) :
    (table.insert key a).insert key b = table.insert key b := by
  induction table with
  | nil => exact if_pos rfl
  | cons entry rest ih =>
      obtain ⟨other, found⟩ := entry
      rw [insert, insert]
      by_cases heq : other = key
      · rw [if_pos heq, if_pos heq, insert, if_pos rfl]
      · rw [if_neg heq, if_neg heq, insert, if_neg heq, ih]

/-- `insert` of the value that a key has already changes nothing. -/
theorem insert_self {key : κ} {value : α} {table : Table κ α} (h : table.get? key = some value) :
    table.insert key value = table := by
  induction table with
  | nil => exact absurd h.symm (Option.some_ne_none _)
  | cons entry rest ih =>
      obtain ⟨other, found⟩ := entry
      rw [get?] at h
      rw [insert]
      by_cases heq : other = key
      · rw [if_pos heq, Option.some.injEq] at h
        rw [if_pos heq, heq, h]
      · rw [if_neg heq] at h
        rw [if_neg heq, ih h]

/-- `erase` takes back the `insert` of a new key. -/
theorem erase_insert {key : κ} {table : Table κ α} (h : table.get? key = none) (value : α) :
    (table.insert key value).erase key = table := by
  induction table with
  | nil => exact if_pos rfl
  | cons entry rest ih =>
      obtain ⟨other, found⟩ := entry
      rw [get?] at h
      by_cases heq : other = key
      · rw [if_pos heq] at h
        exact absurd h (Option.some_ne_none _)
      · rw [if_neg heq] at h
        rw [insert, if_neg heq, erase, if_neg heq, ih h]

/-- `insert` puts its entry in the place of the one with the same key. -/
theorem mem_insert_iff {key : κ} {value : α} {table : Table κ α}
    (hkeys : (table.map Prod.fst).Nodup) {entry : κ × α} :
    entry ∈ table.insert key value ↔ entry = (key, value) ∨ entry ∈ table ∧ key ≠ entry.1 := by
  obtain ⟨other, found⟩ := entry
  rw [← get?_eq_some_iff (nodup_keys_insert key value hkeys), get?_insert]
  by_cases heq : key = other
  · rw [if_pos heq]
    simp [heq, eq_comm]
  · rw [if_neg heq, get?_eq_some_iff hkeys]
    simp [heq, eq_comm]

/-- An entry after `insert` is the new one or was there before. -/
theorem mem_insert {key : κ} {value : α} {table : Table κ α} {entry : κ × α}
    (h : entry ∈ table.insert key value) : entry = (key, value) ∨ entry ∈ table := by
  induction table with
  | nil => exact .inl (List.mem_singleton.1 h)
  | cons first rest ih =>
      obtain ⟨other, found⟩ := first
      rw [insert] at h
      by_cases heq : other = key
      · rw [if_pos heq] at h
        exact (List.mem_cons.1 h).imp_right (List.mem_cons_of_mem _)
      · rw [if_neg heq] at h
        rcases List.mem_cons.1 h with rfl | hrest
        · exact .inr List.mem_cons_self
        · exact (ih hrest).imp_right (List.mem_cons_of_mem _)

end ResourceShards.Table
