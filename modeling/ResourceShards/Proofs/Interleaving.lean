import Mathlib.Data.List.Basic
import Mathlib.Data.List.Infix
import Mathlib.Data.Multiset.Replicate

/-!
# ResourceShards.Proofs.Interleaving

**Lists that arrive together.** Some lists are handed over item by item, and nothing is said about
whose turn it is. What arrives holds the items of every list in their order. It is the same every
time exactly where the lists have nothing to disagree about: as soon as two of them hold different
items, there are two arrivals in which these two stand side by side, once this way and once the
other way round.

* `Interleaves`: what may arrive
* `Interleaves.eq_of_agree`: lists that agree arrive in one way
* `exists_interleaves_swapped`: items of two lists may arrive either way
* `Drawn`: the same step by step, each item the first of one of the lists
-/

namespace ResourceShards

variable {α : Type}

/-- The items that came from the list of some number. -/
def itemsOf (i : Nat) (arrivals : List (Nat × α)) : List α :=
  (arrivals.filter fun a => a.1 == i).map Prod.snd

/-- Some lists arrived item by item, those of each list in their order: every item can be given the
number of the list that it came from. -/
def Interleaves (lists : List (List α)) (merged : List α) : Prop :=
  ∃ arrivals : List (Nat × α), arrivals.map Prod.snd = merged ∧
    ∀ i, itemsOf i arrivals = lists[i]?.getD []

/-- No item of one list differs from one of another list. -/
def Agree (lists : List (List α)) : Prop :=
  lists.Pairwise fun u v => ∀ x ∈ u, ∀ y ∈ v, x = y

/-! ### Items of one list -/

@[simp] theorem itemsOf_nil (i : Nat) : itemsOf i ([] : List (Nat × α)) = [] := rfl

@[simp] theorem itemsOf_cons (i j : Nat) (a : α) (arrivals : List (Nat × α)) :
    itemsOf i ((j, a) :: arrivals) =
      if j = i then a :: itemsOf i arrivals else itemsOf i arrivals := by
  by_cases h : j = i <;> simp [itemsOf, h]

@[simp] theorem itemsOf_append (i : Nat) (a b : List (Nat × α)) :
    itemsOf i (a ++ b) = itemsOf i a ++ itemsOf i b := by
  simp [itemsOf]

/-- `itemsOf` a list that arrives as a whole. -/
@[simp] theorem itemsOf_map_mk (i j : Nat) (items : List α) :
    itemsOf i (items.map fun a => (j, a)) = if j = i then items else [] := by
  induction items with
  | nil => simp
  | cons a items ih => by_cases h : j = i <;> simp_all

theorem mem_itemsOf {i : Nat} {a : α} {arrivals : List (Nat × α)} :
    a ∈ itemsOf i arrivals ↔ (i, a) ∈ arrivals := by
  simp [itemsOf]

/-- `itemsOf` arrivals that pass a test are the items of their list that pass it. -/
theorem itemsOf_filter (i : Nat) (p : α → Bool) (arrivals : List (Nat × α)) :
    itemsOf i (arrivals.filter fun a => p a.2) = (itemsOf i arrivals).filter p := by
  induction arrivals with
  | nil => rfl
  | cons a arrivals ih =>
      obtain ⟨j, a⟩ := a
      by_cases hp : p a <;> by_cases hj : j = i <;> simp [hp, hj, ih]

/-- `itemsOf` counts what arrives with the number of the list. -/
theorem count_itemsOf [DecidableEq α] (i : Nat) (a : α) (arrivals : List (Nat × α)) :
    (itemsOf i arrivals).count a = arrivals.count (i, a) := by
  induction arrivals with
  | nil => rfl
  | cons b arrivals ih =>
      obtain ⟨j, b⟩ := b
      by_cases hj : j = i <;> by_cases hb : b = a <;> simp_all

theorem map_snd_eq_itemsOf {i : Nat} {arrivals : List (Nat × α)}
    (h : ∀ t ∈ arrivals, t.1 = i) : arrivals.map Prod.snd = itemsOf i arrivals := by
  rw [itemsOf, List.filter_eq_self.2 fun t ht => beq_iff_eq.2 (h t ht)]

/-! ### Arrivals -/

theorem mem_getD {lists : List (List α)} {i : Nat} {x : α} (h : x ∈ lists[i]?.getD []) :
    ∃ hi : i < lists.length, x ∈ lists[i] := by
  by_cases hi : i < lists.length
  · rw [List.getElem?_eq_getElem hi] at h
    exact ⟨hi, h⟩
  · rw [List.getElem?_eq_none (Nat.le_of_not_lt hi)] at h
    exact absurd h List.not_mem_nil

theorem Agree.eq {lists : List (List α)} (h : Agree lists) {i j : Nat} (hne : i ≠ j) {x y : α}
    (hx : x ∈ lists[i]?.getD []) (hy : y ∈ lists[j]?.getD []) : x = y := by
  obtain ⟨hi, hx⟩ := mem_getD hx
  obtain ⟨hj, hy⟩ := mem_getD hy
  rcases Nat.lt_or_gt_of_ne hne with hlt | hgt
  · exact List.pairwise_iff_getElem.1 h i j hi hj hlt x hx y hy
  · exact (List.pairwise_iff_getElem.1 h j i hj hi hgt y hy x hx).symm

namespace Interleaves

variable {lists : List (List α)} {merged a b : List α}

/-- What passes a test `Interleaves` the lists of what passes it. -/
theorem filter (h : Interleaves lists merged) (p : α → Bool) :
    Interleaves (lists.map (List.filter p)) (merged.filter p) := by
  obtain ⟨arrivals, rfl, hitems⟩ := h
  refine ⟨arrivals.filter fun a => p a.2, ?_, fun i => ?_⟩
  · rw [List.filter_map]
    rfl
  · rw [itemsOf_filter, hitems, List.getElem?_map]
    cases lists[i]? <;> rfl

/-- Every item of every list arrives in what `Interleaves` them. -/
theorem mem (h : Interleaves lists merged) {items : List α} {x : α} (hitems : items ∈ lists)
    (hx : x ∈ items) : x ∈ merged := by
  obtain ⟨arrivals, rfl, hfrom⟩ := h
  obtain ⟨i, hi⟩ := List.mem_iff_getElem?.1 hitems
  have harrived : x ∈ itemsOf i arrivals := by
    rw [hfrom, hi]
    exact hx
  exact List.mem_map.2 ⟨(i, x), mem_itemsOf.1 harrived, rfl⟩

theorem perm [DecidableEq α] (ha : Interleaves lists a) (hb : Interleaves lists b) : a.Perm b := by
  obtain ⟨arrivals, rfl, hitems⟩ := ha
  obtain ⟨arrivals', rfl, hitems'⟩ := hb
  refine List.Perm.map _ (List.perm_iff_count.2 fun x => ?_)
  rw [← count_itemsOf, ← count_itemsOf, hitems, hitems']

/-- Only one list `Interleaves` lists that `Agree`: either all comes from one of them, or one item
is all that comes. -/
theorem eq_of_agree [DecidableEq α] (hagree : Agree lists) (ha : Interleaves lists a)
    (hb : Interleaves lists b) : a = b := by
  have hperm := ha.perm hb
  obtain ⟨arrivals, rfl, hitems⟩ := ha
  obtain ⟨arrivals', rfl, hitems'⟩ := hb
  cases arrivals with
  | nil => exact hperm.nil_eq
  | cons first rest =>
      obtain ⟨i, x⟩ := first
      by_cases hall : ∀ y ∈ ((i, x) :: rest).map Prod.snd, y = x
      · rw [List.eq_replicate_of_mem hall,
          List.eq_replicate_of_mem fun y hy => hall y (hperm.symm.subset hy), hperm.length_eq]
      · simp only [not_forall] at hall
        obtain ⟨y, hy, hne⟩ := hall
        obtain ⟨⟨k, y⟩, hk, rfl⟩ := List.mem_map.1 hy
        have hfrom : ∀ t ∈ (i, x) :: rest, t.2 ∈ lists[t.1]?.getD [] := by
          intro t ht
          rw [← hitems]
          exact mem_itemsOf.2 ht
        have hx := hfrom (i, x) List.mem_cons_self
        obtain rfl : k = i := by
          by_contra hki
          exact hne (hagree.eq hki (hfrom _ hk) hx)
        -- an item of another list would be both of the two
        have hone : ∀ t ∈ (k, x) :: rest, t.1 = k := by
          intro t ht
          by_contra htk
          exact hne ((hagree.eq htk (hfrom t ht) (hfrom _ hk)).symm.trans
            (hagree.eq htk (hfrom t ht) hx))
        have hone' : ∀ t ∈ arrivals', t.1 = k := by
          intro t ht
          have hmem : t.2 ∈ itemsOf t.1 ((k, x) :: rest) := by
            rw [hitems, ← hitems']
            exact mem_itemsOf.2 ht
          exact hone _ (mem_itemsOf.1 hmem)
        rw [map_snd_eq_itemsOf hone, map_snd_eq_itemsOf hone', hitems, hitems']

end Interleaves

/-! ### Arrivals that exist -/

/-- Some list `Interleaves` any lists: one after the other, for instance. -/
theorem exists_interleaves (lists : List (List α)) : ∃ merged, Interleaves lists merged := by
  induction lists with
  | nil => exact ⟨[], [], rfl, fun i => rfl⟩
  | cons items lists ih =>
      obtain ⟨merged, arrivals, rfl, hitems⟩ := ih
      refine ⟨_, items.map (fun a => (0, a)) ++ arrivals.map fun a => (a.1 + 1, a.2), rfl, ?_⟩
      intro i
      cases i with
      | zero =>
          have hnone : itemsOf 0 (arrivals.map fun a => (a.1 + 1, a.2)) = [] := by
            rw [itemsOf, List.filter_eq_nil_iff.2, List.map_nil]
            intro t ht
            obtain ⟨a, -, rfl⟩ := List.mem_map.1 ht
            simp
          simp [hnone]
      | succ i =>
          have hshift : itemsOf (i + 1) (arrivals.map fun a => (a.1 + 1, a.2)) =
              itemsOf i arrivals := by
            simp [itemsOf, List.filter_map, Function.comp_def]
          simp [hshift, hitems]

/-- Items of two lists may stand side by side, either way round. -/
theorem exists_interleaves_swapped {lists : List (List α)} {i j : Nat} {u u' v v' : List α}
    {x y : α} (hne : i ≠ j) (hi : lists[i]? = some (u ++ x :: u'))
    (hj : lists[j]? = some (v ++ y :: v')) :
    ∃ before after, Interleaves lists (before ++ x :: y :: after) ∧
      Interleaves lists (before ++ y :: x :: after) := by
  obtain ⟨merged, arrivals, rfl, hitems⟩ := exists_interleaves ((lists.set i u').set j v')
  have hrest : ∀ k, itemsOf k arrivals =
      if k = j then v' else if k = i then u' else lists[k]?.getD [] := by
    intro k
    rw [hitems, List.getElem?_set, List.getElem?_set]
    obtain ⟨hilt, -⟩ := List.getElem?_eq_some_iff.1 hi
    obtain ⟨hjlt, -⟩ := List.getElem?_eq_some_iff.1 hj
    by_cases hkj : j = k
    · simp [hkj, hkj ▸ hjlt]
    · by_cases hki : i = k
      · simp [hkj, Ne.symm hkj, hki, hki ▸ hilt]
      · simp [hkj, Ne.symm hkj, hki, Ne.symm hki]
  let front := u.map (fun a => (i, a)) ++ v.map fun a => (j, a)
  -- only the two items in the middle may change places
  have hall : ∀ (k : Nat) (middle : List (Nat × α)),
      itemsOf k middle = (if i = k then [x] else if j = k then [y] else []) →
      itemsOf k (front ++ (middle ++ arrivals)) = lists[k]?.getD [] := by
    intro k middle hmiddle
    rw [itemsOf_append, itemsOf_append, itemsOf_append, itemsOf_map_mk, itemsOf_map_mk, hmiddle,
      hrest]
    by_cases hki : i = k
    · subst hki
      simp [hne, hne.symm, hi]
    · by_cases hkj : j = k
      · subst hkj
        simp [hki, hj]
      · simp [hki, hkj, Ne.symm hki, Ne.symm hkj]
  refine ⟨front.map Prod.snd, arrivals.map Prod.snd,
    ⟨front ++ ([(i, x), (j, y)] ++ arrivals), by simp, fun k => hall k _ ?_⟩,
    ⟨front ++ ([(j, y), (i, x)] ++ arrivals), by simp, fun k => hall k _ ?_⟩⟩
  · by_cases hki : i = k
    · subst hki
      simp [hne.symm]
    · by_cases hkj : j = k <;> simp [hki, hkj]
  · by_cases hki : i = k
    · subst hki
      simp [hne.symm]
    · by_cases hkj : j = k <;> simp [hki, hkj]

/-! ### Drawing item by item -/

/-- A list is drawn from some lists: each item is the first of one of them, until all are used
up. -/
inductive Drawn : Multiset (List α) → List α → Prop
  | done {S : Multiset (List α)} (h : ∀ l ∈ S, l = []) : Drawn S []
  | draw {a : α} {l m : List α} {S : Multiset (List α)} (h : Drawn (l ::ₘ S) m) :
      Drawn ((a :: l) ::ₘ S) (a :: m)

namespace Drawn

variable {u v m : List α} {S T : Multiset (List α)}

/-- A list without items gives nothing to what is `Drawn`. -/
theorem cons_nil (h : Drawn S m) : Drawn ([] ::ₘ S) m := by
  induction h with
  | done h => exact .done (Multiset.forall_mem_cons.2 ⟨rfl, h⟩)
  | @draw a l m S h ih =>
      rw [Multiset.cons_swap] at ih ⊢
      exact .draw ih

theorem of_cons_nil (h : Drawn ([] ::ₘ S) m) : Drawn S m := by
  generalize hT : [] ::ₘ S = T at h
  induction h generalizing S with
  | done h =>
      subst hT
      exact .done (Multiset.forall_mem_cons.1 h).2
  | @draw a l m R h ih =>
      rcases Multiset.cons_eq_cons.1 hT with ⟨hnil, -⟩ | ⟨-, rest, rfl, rfl⟩
      · cases hnil
      · exact .draw (ih (Multiset.cons_swap _ _ _))

theorem of_add_replicate_nil {n : Nat} (h : Drawn (S + Multiset.replicate n []) m) :
    Drawn S m := by
  induction n with
  | zero =>
      rw [Multiset.replicate_zero, Multiset.add_zero] at h
      exact h
  | succ n ih =>
      rw [Multiset.replicate_succ, Multiset.add_cons] at h
      exact ih h.of_cons_nil

/-- What is `Drawn` from two lists one behind the other is drawn from the two. -/
theorem cut (h : Drawn ((u ++ v) ::ₘ S) m) : Drawn (u ::ₘ v ::ₘ S) m := by
  generalize hT : (u ++ v) ::ₘ S = T at h
  induction h generalizing u S with
  | done h =>
      subst hT
      obtain ⟨huv, hS⟩ := Multiset.forall_mem_cons.1 h
      obtain ⟨rfl, rfl⟩ := List.append_eq_nil_iff.1 huv
      exact .done (Multiset.forall_mem_cons.2 ⟨rfl, Multiset.forall_mem_cons.2 ⟨rfl, hS⟩⟩)
  | @draw a l m R h ih =>
      rcases Multiset.cons_eq_cons.1 hT with ⟨hfirst, rfl⟩ | ⟨-, rest, rfl, rfl⟩
      · cases u with
        | nil =>
            obtain rfl : v = a :: l := hfirst
            exact (Drawn.draw h).cons_nil
        | cons b u =>
            obtain ⟨rfl, rfl⟩ := List.cons.inj hfirst
            exact .draw (ih rfl)
      · have hdrawn := ih (Multiset.cons_swap _ _ _)
        rw [Multiset.cons_swap v, Multiset.cons_swap u] at hdrawn ⊢
        exact .draw hdrawn

/-- What is `Drawn` from lists `Interleaves` them. -/
theorem interleaves {lists : List (List α)} (h : Drawn lists m) : Interleaves lists m := by
  generalize hS : (lists : Multiset (List α)) = S at h
  induction h generalizing lists with
  | done h =>
      subst hS
      refine ⟨[], rfl, fun i => ?_⟩
      cases hi : lists[i]? with
      | none => rfl
      | some l => exact (h l (List.mem_of_getElem? hi)).symm
  | @draw a l m S h ih =>
      have hmem : a :: l ∈ lists := by
        rw [← Multiset.mem_coe, hS]
        exact Multiset.mem_cons_self _ _
      obtain ⟨before, after, rfl⟩ := List.append_of_mem hmem
      have hrest : ((before ++ l :: after : List (List α)) : Multiset (List α)) = l ::ₘ S := by
        rw [← Multiset.coe_add, ← Multiset.cons_coe, Multiset.add_cons] at hS ⊢
        rw [Multiset.cons_inj_right] at hS ⊢
        exact hS
      obtain ⟨arrivals, rfl, hitems⟩ := ih hrest
      refine ⟨(before.length, a) :: arrivals, rfl, fun i => ?_⟩
      have hi := hitems i
      by_cases heq : before.length = i
      · subst heq
        simp_all
      · rw [itemsOf_cons, if_neg heq, hi]
        congr 1
        rcases Nat.lt_or_gt_of_ne heq with hlt | hgt
        · obtain ⟨k, rfl⟩ := Nat.exists_eq_add_of_lt hlt
          simp [List.getElem?_append_right, Nat.add_assoc]
        · simp [List.getElem?_append_left, hgt]

end Drawn

end ResourceShards
