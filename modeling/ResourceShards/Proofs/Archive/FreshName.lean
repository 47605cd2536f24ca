import Mathlib.Algebra.Order.Ring.Int
import Mathlib.Data.List.Nodup
import Mathlib.Data.List.Perm.Subperm
import ResourceShards.Archive.FreshName
import ResourceShards.Proofs.Resource.Forms

/-!
# ResourceShards.Proofs.Archive.FreshName

**Where the search for a name ends.** Variants with different numbers are different. `counter` shows
2 ^ 32 numbers before it comes back to the first, so of one more variant than there are names in use
one is free, or the counter has been through all its numbers. The number goes into the last segment
of a name, whatever dots there are in the segments before it.

* `FreshName.variant_injective`: variants are told apart
* `FreshName.choose_eq_none_iff`: which searches have no end
* `FreshName.exists_unused`: there is always a name to give
* `FreshName.variant_inside`: where the number goes
-/

namespace ResourceShards.FreshName

/-! ### Numbers in names -/

/-- The digits of a number tell the number. -/
theorem toDigits_injective : Function.Injective (Nat.toDigits 10) := by
  intro m n h
  rw [← Nat.ofDigitChars_toDigits (b := 10) (n := m) (by decide) (by decide), h,
    Nat.ofDigitChars_toDigits (by decide) (by decide)]

theorem not_mem_toDigits {c : Char} (h : c.isDigit = false) (n : Nat) :
    c ∉ Nat.toDigits 10 n := by
  intro hmem
  rw [Nat.isDigit_of_mem_toDigits (by decide) (by decide) hmem] at h
  cases h

/-- `toString n` is the digits of `n`, behind a sign where `n` is negative. -/
theorem toList_toString (n : Int) :
    (toString n).toList =
      if 0 ≤ n then Nat.toDigits 10 n.natAbs else '-' :: Nat.toDigits 10 n.natAbs := by
  rw [Int.toString_eq_repr, Int.repr_eq_if]
  split
  · rw [Nat.toList_repr, show n.toNat = n.natAbs by omega]
  · rw [String.toList_append, Nat.toList_repr, show (-n).toNat = n.natAbs by omega]
    rfl

/-- No separator of paths stands in a number. -/
theorem slash_not_mem_toString (n : Int) : '/' ∉ (toString n).toList := by
  have hdigits := not_mem_toDigits (c := '/') rfl n.natAbs
  rw [toList_toString]
  split
  · exact hdigits
  · simpa using hdigits

/-- Each `variant` of a name is told by its number. -/
theorem variant_injective (name : String) : Function.Injective (variant name) := by
  intro m n h
  simp only [variant, String.append_left_inj] at h
  have htext := congrArg String.toList ((String.append_right_inj _).1 h)
  rw [toList_toString, toList_toString] at htext
  have hsign := not_mem_toDigits (c := '-') rfl
  split at htext <;> split at htext
  · have hdigits := toDigits_injective htext
    omega
  · exact absurd (htext ▸ List.mem_cons_self) (hsign m.natAbs)
  · exact absurd (htext ▸ List.mem_cons_self) (hsign n.natAbs)
  · have hdigits := toDigits_injective (List.cons.inj htext).2
    omega

/-! ### The counter -/

theorem counter_zero : counter 0 = 1 := rfl

theorem counter_succ (k : Nat) : counter (k + 1) = counter k + 1 :=
  Int32.ofNat_add (k + 1) 1

/-- Until it runs over, `counter` counts. -/
theorem toInt_counter {k : Nat} (h : k + 1 < 2 ^ 31) : (counter k).toInt = k + 1 :=
  Int32.toInt_ofNat_of_lt h

/-- `counter` shows no number twice before it has shown 2 ^ 32. -/
theorem counter_injective {j k : Nat} (hj : j < 2 ^ 32) (hk : k < 2 ^ 32)
    (h : counter j = counter k) : j = k := by
  have hshown : ∀ i,
      (counter i).toInt % (2 ^ 32 : Nat) = ((i + 1 : Nat) : Int) % (2 ^ 32 : Nat) := by
    intro i
    rw [counter, Int32.toInt_ofNat']
    exact Int.bmod_emod
  have hsame := hshown j
  rw [h, hshown k] at hsame
  omega

/-- `counter` shows every number in its first 2 ^ 32 steps. -/
theorem exists_counter (n : Int32) : ∃ k < 2 ^ 32, counter k = n := by
  have hlower := n.le_toInt
  have hupper := n.toInt_lt
  refine ⟨((n.toInt - 1) % 2 ^ 32).toNat, by omega, ?_⟩
  rw [counter, ← Int32.ofInt_eq_ofNat, Int32.ofInt_eq_iff_bmod_eq_toInt,
    Int.bmod_eq_iff (by decide)]
  omega

section Search

variable {taken : List String} {name : String}

/-- Of numbers whose `variant` is in use there are no more than names in use. -/
theorem length_le_of_variants {numbers : List Int} (hdistinct : numbers.Nodup)
    (hused : ∀ n ∈ numbers, variant name n ∈ taken) : numbers.length ≤ taken.length := by
  have hsubset : numbers.map (variant name) ⊆ taken := by
    intro entry hentry
    obtain ⟨n, hn, rfl⟩ := List.mem_map.1 hentry
    exact hused n hn
  have hvariants := hdistinct.map (variant_injective name)
  have hlength := (List.subperm_of_subset hvariants hsubset).length_le
  rwa [List.length_map] at hlength

/-- If the variants of all numbers that `number?` tries are in use, there are at least 2 ^ 32 names
in use. -/
theorem length_of_steps_used
    (hused : ∀ k ≤ taken.length, variant name (counter k).toInt ∈ taken) :
    2 ^ 32 ≤ taken.length := by
  by_contra hfew
  -- the numbers that are tried are different, and one more than the names in use
  have hdistinct : ((List.range (taken.length + 1)).map fun k => (counter k).toInt).Nodup := by
    refine List.nodup_range.map_on fun j hj k hk h => ?_
    rw [List.mem_range] at hj hk
    exact counter_injective (by omega) (by omega) (Int32.toInt_inj.1 h)
  have htried : ∀ n ∈ (List.range (taken.length + 1)).map fun k => (counter k).toInt,
      variant name n ∈ taken := by
    intro n hn
    obtain ⟨k, hk, rfl⟩ := List.mem_map.1 hn
    exact hused k (Nat.le_of_lt_succ (List.mem_range.1 hk))
  have hlength := length_le_of_variants hdistinct htried
  rw [List.length_map, List.length_range] at hlength
  omega

theorem number?_eq_none_iff_steps :
    number? taken name = none ↔
      ∀ k ≤ taken.length, variant name (counter k).toInt ∈ taken := by
  rw [number?, List.find?_eq_none]
  constructor
  · intro hused k hk
    have htried : counter k ∈ (List.range (taken.length + 1)).map counter :=
      List.mem_map_of_mem (List.mem_range.2 (Nat.lt_succ_of_le hk))
    simpa using hused (counter k) htried
  · intro hused n hn
    obtain ⟨k, hk, rfl⟩ := List.mem_map.1 hn
    simpa using hused k (Nat.le_of_lt_succ (List.mem_range.1 hk))

/-- `number?` finds none exactly if the variants of all numbers of 32 bits are in use. -/
theorem number?_eq_none_iff :
    number? taken name = none ↔ ∀ n : Int32, variant name n.toInt ∈ taken := by
  rw [number?_eq_none_iff_steps]
  refine ⟨fun hused n => ?_, fun hused k _ => hused _⟩
  obtain ⟨k, hk, rfl⟩ := exists_counter n
  exact hused k (Nat.le_of_lt (hk.trans_le (length_of_steps_used hused)))

/-- `choose` gives no name exactly if the name and the variants of all numbers of 32 bits are in
use. -/
theorem choose_eq_none_iff :
    choose taken name = none ↔ name ∈ taken ∧ ∀ n : Int32, variant name n.toInt ∈ taken := by
  rw [← number?_eq_none_iff]
  unfold choose
  split
  · simp_all
  · simp_all

/-- Of fewer than 2 ^ 32 names in use `choose` always finds another one. -/
theorem exists_choose (h : taken.length < 2 ^ 32) (name : String) :
    ∃ entry, choose taken name = some entry := by
  rw [← Option.isSome_iff_exists, ← Option.isNone_eq_false_iff, Bool.eq_false_iff]
  intro hnone
  obtain ⟨-, hused⟩ := choose_eq_none_iff.1 (Option.isNone_iff_eq_none.1 hnone)
  exact absurd h (Nat.not_lt.2 (length_of_steps_used fun k _ => hused (counter k)))

/-- If the variants with the numbers from 1 to `k` are all in use, there are `k` names in use. -/
theorem le_length_of_used {k : Nat}
    (hused : ∀ n : Nat, 1 ≤ n → n ≤ k → variant name n ∈ taken) : k ≤ taken.length := by
  have hdistinct : ((List.range' 1 k).map fun n : Nat => (n : Int)).Nodup :=
    (List.nodup_range' 1).map fun m n h => Int.ofNat_inj.1 h
  have hvariants : ∀ n ∈ (List.range' 1 k).map fun n : Nat => (n : Int),
      variant name n ∈ taken := by
    intro n hn
    obtain ⟨m, hm, rfl⟩ := List.mem_map.1 hn
    obtain ⟨hone, hlt⟩ := List.mem_range'_1.1 hm
    exact hused m hone (by omega)
  have hlength := length_le_of_variants hdistinct hvariants
  rwa [List.length_map, List.length_range'] at hlength

/-- Some `variant` of a name is not in use, be it one that the counter never comes to. -/
theorem exists_unused (taken : List String) (name : String) :
    ∃ n : Nat, 1 ≤ n ∧ variant name n ∉ taken := by
  by_contra hnone
  have hused : ∀ n : Nat, 1 ≤ n → n ≤ taken.length + 1 → variant name n ∈ taken := by
    intro n hn _
    by_contra hfree
    exact hnone ⟨n, hn, hfree⟩
  exact absurd (le_length_of_used hused) (Nat.not_succ_le_self _)

end Search

/-! ### Where the number goes -/

/-- `splitExtension` cuts a name in two in front of a dot, or not at all. -/
theorem splitExtension_append (name : String) :
    (splitExtension name).1 ++ (splitExtension name).2 = name.toList ∧
      ((splitExtension name).2 = [] ∨ (splitExtension name).2.head? = some '.') := by
  unfold splitExtension
  dsimp only
  split
  · simp
  · rename_i extension front hcut
    obtain ⟨hchars, -⟩ := ResourceName.cut_eq_some hcut
    refine ⟨?_, .inr rfl⟩
    have hsplit := List.takeWhile_append_dropWhile (p := (· != '/')) (l := name.toList.reverse)
    rw [hchars, List.append_assoc, List.cons_append] at hsplit
    have hback : name.toList.reverse.drop (extension.length + 1) =
        front ++ name.toList.reverse.dropWhile (· != '/') := by
      conv_lhs => rw [← hsplit]
      simp
    have hname : name.toList = (extension ++ '.' ::
        (front ++ name.toList.reverse.dropWhile (· != '/'))).reverse := by
      rw [hsplit, List.reverse_reverse]
    rw [hback]
    conv_rhs => rw [hname]
    simp

/-- `splitExtension` finds the extension of the last segment. -/
theorem splitExtension_inside (dir : String) {file : String} (h : '/' ∉ file.toList) :
    splitExtension (dir ++ "/" ++ file) =
      ((dir ++ "/").toList ++ (splitExtension file).1, (splitExtension file).2) := by
  have hpass : ∀ c ∈ file.toList.reverse, (c != '/') = true := by
    intro c hc
    refine bne_iff_ne.2 ?_
    rintro rfl
    exact h (List.mem_reverse.1 hc)
  have hback : (dir ++ "/" ++ file).toList.reverse =
      file.toList.reverse ++ '/' :: dir.toList.reverse := by
    simp
  have hlast : (dir ++ "/" ++ file).toList.reverse.takeWhile (· != '/') = file.toList.reverse := by
    rw [hback, List.takeWhile_append_of_pos hpass, List.takeWhile_cons_of_neg (by simp),
      List.append_nil]
  have hfile : file.toList.reverse.takeWhile (· != '/') = file.toList.reverse :=
    List.takeWhile_eq_self_iff.2 hpass
  unfold splitExtension
  dsimp only
  rw [hlast, hfile]
  cases hcut : ResourceName.cut '.' file.toList.reverse with
  | none => simp
  | some parts =>
      obtain ⟨extension, front⟩ := parts
      obtain ⟨hchars, -⟩ := ResourceName.cut_eq_some hcut
      have hsuffix : (extension ++ '.' :: front ++ '/' :: dir.toList.reverse).drop
          (extension.length + 1) = front ++ '/' :: dir.toList.reverse := by
        simp
      have hown : (extension ++ '.' :: front).drop (extension.length + 1) = front := by simp
      rw [hback, hchars]
      simp only [hsuffix, hown]
      simp

/-- `variant` puts the number into the last segment. -/
theorem variant_inside (dir : String) {file : String} (h : '/' ∉ file.toList) (n : Int) :
    variant (dir ++ "/" ++ file) n = dir ++ "/" ++ variant file n := by
  rw [variant, variant, splitExtension_inside dir h]
  simp only [String.ofList_append, String.ofList_toList, String.append_assoc]

end ResourceShards.FreshName
