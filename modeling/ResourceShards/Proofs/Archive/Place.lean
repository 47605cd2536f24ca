import ResourceShards.Archive.Close

/-!
# ResourceShards.Proofs.Archive.Place

**The order of places is total.** Items that have different places are sorted in one way only, so
the order in which they stood before leaves no trace.
-/

namespace ResourceShards.Place

/-! ### The order -/

theorem le_iff {a b : Place} : le a b = true ↔
    a.position < b.position ∨ (a.position = b.position ∧
      ((a.path ≠ b.path ∧ a.path ≤ b.path) ∨ (a.path = b.path ∧ a.rank ≤ b.rank))) := by
  unfold le
  by_cases hposition : a.position = b.position
  · rw [if_neg (not_not_intro hposition)]
    by_cases hpath : a.path = b.path
    · rw [if_neg (not_not_intro hpath), decide_eq_true_iff]
      exact ⟨fun h => .inr ⟨hposition, .inr ⟨hpath, h⟩⟩, fun h => by
        rcases h with h | ⟨-, h | h⟩
        · omega
        · exact absurd hpath h.1
        · exact h.2⟩
    · rw [if_pos hpath, decide_eq_true_iff]
      exact ⟨fun h => .inr ⟨hposition, .inl ⟨hpath, h⟩⟩, fun h => by
        rcases h with h | ⟨-, h | h⟩
        · omega
        · exact h.2
        · exact absurd h.1 hpath⟩
  · rw [if_pos hposition, decide_eq_true_iff]
    exact ⟨.inl, fun h => h.resolve_right fun h => hposition h.1⟩

theorem le_total (a b : Place) : (le a b || le b a) = true := by
  rw [Bool.or_eq_true, le_iff, le_iff]
  rcases Nat.lt_trichotomy a.position b.position with h | h | h
  · exact .inl (.inl h)
  · by_cases hpath : a.path = b.path
    · rcases Nat.le_total a.rank b.rank with hrank | hrank
      · exact .inl (.inr ⟨h, .inr ⟨hpath, hrank⟩⟩)
      · exact .inr (.inr ⟨h.symm, .inr ⟨hpath.symm, hrank⟩⟩)
    · rcases List.le_total a.path b.path with hle | hle
      · exact .inl (.inr ⟨h, .inl ⟨hpath, hle⟩⟩)
      · exact .inr (.inr ⟨h.symm, .inl ⟨fun heq => hpath heq.symm, hle⟩⟩)
  · exact .inr (.inl h)

theorem le_antisymm {a b : Place} (hab : le a b = true) (hba : le b a = true) : a = b := by
  rw [le_iff] at hab hba
  obtain ⟨position, path, rank⟩ := a
  obtain ⟨position', path', rank'⟩ := b
  simp only at hab hba
  obtain rfl : position = position' := by omega
  have hpath : path = path' := by
    rcases hab with h | ⟨-, ⟨hne, hle⟩ | ⟨heq, -⟩⟩
    · exact absurd h (Nat.lt_irrefl _)
    · rcases hba with h | ⟨-, ⟨-, hge⟩ | ⟨heq, -⟩⟩
      · exact absurd h (Nat.lt_irrefl _)
      · exact List.le_antisymm hle hge
      · exact heq.symm
    · exact heq
  subst hpath
  obtain rfl : rank = rank' := by
    have hirrefl : ¬position < position := Nat.lt_irrefl _
    have hranks : rank ≤ rank' := by simpa using hab
    have hranks' : rank' ≤ rank := by simpa using hba
    exact Nat.le_antisymm hranks hranks'
  rfl

theorem le_trans {a b c : Place} (hab : le a b = true) (hbc : le b c = true) : le a c = true := by
  rw [le_iff] at hab hbc ⊢
  rcases hab with h | ⟨h, hpath⟩
  · rcases hbc with h' | ⟨h', -⟩
    · exact .inl (Nat.lt_trans h h')
    · exact .inl (h' ▸ h)
  · rcases hbc with h' | ⟨h', hpath'⟩
    · exact .inl (h ▸ h')
    · refine .inr ⟨h.trans h', ?_⟩
      rcases hpath with ⟨hne, hle⟩ | ⟨heq, hrank⟩
      · rcases hpath' with ⟨hne', hle'⟩ | ⟨heq', -⟩
        · -- paths that go up twice do not come back to the first
          refine .inl ⟨fun heq => ?_, List.le_trans hle hle'⟩
          rw [heq] at hle
          exact hne' (List.le_antisymm hle' hle)
        · exact .inl (heq' ▸ ⟨hne, hle⟩)
      · rcases hpath' with ⟨hne', hle'⟩ | ⟨heq', hrank'⟩
        · exact .inl (heq ▸ ⟨hne', hle'⟩)
        · exact .inr ⟨heq.trans heq', Nat.le_trans hrank hrank'⟩

/-! ### Sorting -/

variable {α : Type}

/-- `sort` changes the order only. -/
theorem sort_perm (place : α → Place) (items : List α) : (sort place items).Perm items := by
  have hperm := (List.mergeSort_perm (items.map fun a => (place a, a))
    fun x y => le x.1 y.1).map Prod.snd
  rw [List.map_map] at hperm
  exact hperm.trans (.of_eq (List.map_id' items))

/-- After `sort`, places increase. -/
theorem sort_pairwise (place : α → Place) (items : List α) :
    (sort place items).Pairwise fun a b => le (place a) (place b) = true := by
  have hsorted : ((items.map fun a => (place a, a)).mergeSort fun x y => le x.1 y.1).Pairwise
      fun x y => le x.1 y.1 = true := by
    refine List.pairwise_mergeSort (fun x y z => ?_) (fun x y => ?_) _
    · exact le_trans
    · exact le_total x.1 y.1
  refine List.pairwise_map.2 (hsorted.imp_of_mem fun {x y} hx hy hle => ?_)
  -- the places that are compared were computed before sorting
  have hplace : ∀ x ∈ (items.map fun a => (place a, a)).mergeSort (fun x y => le x.1 y.1),
      place x.2 = x.1 := by
    intro x hx
    obtain ⟨a, -, rfl⟩ := List.mem_map.1 ((List.mergeSort_perm _ _).subset hx)
    rfl
  rw [hplace x hx, hplace y hy]
  exact hle

/-- `sort` has one result for items with different places, however they stand. -/
theorem sort_congr {place : α → Place} {a b : List α} (hperm : a.Perm b)
    (hplaces : ∀ x ∈ a, ∀ y ∈ a, place x = place y → x = y) : sort place a = sort place b := by
  have hmem : ∀ x ∈ sort place a, x ∈ a := fun x hx => (sort_perm place a).subset hx
  have hsorts : (sort place a).Perm (sort place b) :=
    (sort_perm place a).trans (hperm.trans (sort_perm place b).symm)
  refine hsorts.eq_of_pairwise (fun x y hx hy hxy hyx => ?_) (sort_pairwise place a)
    (sort_pairwise place b)
  have hy' : y ∈ a := hperm.symm.subset ((sort_perm place b).subset hy)
  exact hplaces x (hmem x hx) y hy' (le_antisymm hxy hyx)

/-- `sort` leaves two items in order, or exchanges them. -/
theorem sort_pair (place : α → Place) (a b : α) :
    sort place [a, b] = if le (place a) (place b) then [a, b] else [b, a] := by
  simp only [sort, List.map_cons, List.map_nil, List.mergeSort,
    List.MergeSort.Internal.splitInTwo]
  split <;> simp_all

end ResourceShards.Place
