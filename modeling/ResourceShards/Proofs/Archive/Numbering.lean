import Mathlib.Data.List.Dedup
import Mathlib.Order.Bounds.Basic
import ResourceShards.Proofs.Archive.Noting

/-!
# ResourceShards.Proofs.Archive.Numbering

**The least number that is free.** The number of an entry whose name is in use stands in front of
the extension of the last segment. It is due to be the least one from 1 on whose variant is free,
and there always is such a number. `choose` looks for it with a counter of 32 bits, which comes to
the numbers below 2 ^ 31 only. If the variants of all these are in use, the counter runs over, and
the entry gets a number that is not positive, or none at all. That takes 2 ^ 31 names in use: with
fewer of them an entry gets the name that it is due. Whatever the number, the name is noted with
those in use, so of all names that are given one after the other no two are the same.

* `FreshName.Numbered`, `FreshName.numbered_iff`: where the number stands
* `FreshName.CountsTo`, `FreshName.number?_eq_some_iff`: counting up, and where it ends
* `FreshName.IsDue`: the name that an entry is due
* `Session.nameEach`: names for one entry after the other
* `FreshName.choose_due_iff`: when `choose` gives what is due, and what it gives at all
* `FreshName.choose_overrun`: names with which it does not
-/

namespace ResourceShards

namespace FreshName

/-! ### Where the number stands -/

/-- What may stand in front of a last segment: nothing, or a directory. -/
inductive IsFront : String → Prop where
  /-- There is one segment only. -/
  | empty : IsFront ""
  /-- A separator ends what is in front. -/
  | directory (dir : String) : IsFront (dir ++ "/")

/-- `entry` is `name` with a number in front of the extension of its last segment. -/
inductive Numbered (n : Int) : (name entry : String) → Prop where
  /-- The last segment has a dot, and the number stands in front of its last one. -/
  | extended {front stem extension : String} (hfront : IsFront front)
      (hstem : '/' ∉ stem.toList) (hslash : '/' ∉ extension.toList)
      (hdot : '.' ∉ extension.toList) :
      Numbered n (front ++ (stem ++ "." ++ extension))
        (front ++ (stem ++ "_" ++ toString n ++ "." ++ extension))
  /-- The last segment has no dot, and the number stands at its end. -/
  | bare {front segment : String} (hfront : IsFront front) (hslash : '/' ∉ segment.toList)
      (hdot : '.' ∉ segment.toList) :
      Numbered n (front ++ segment) (front ++ (segment ++ "_" ++ toString n))

/-- A text does not hold `c`, or it can be cut where it holds `c` last. -/
theorem exists_cut_last (c : Char) (text : String) :
    c ∉ text.toList ∨ ∃ before after : String,
      text.toList = before.toList ++ c :: after.toList ∧ c ∉ after.toList := by
  cases hcut : ResourceName.cut c text.toList.reverse with
  | none => exact .inl (by simpa using ResourceName.cut_eq_none hcut)
  | some parts =>
      obtain ⟨backwards, rest⟩ := parts
      obtain ⟨hchars, hclean⟩ := ResourceName.cut_eq_some hcut
      refine .inr ⟨String.ofList rest.reverse, String.ofList backwards.reverse, ?_,
        by simpa using hclean⟩
      rw [← List.reverse_inj, hchars]
      simp

/-- A name ends with a segment that holds no separator; what is before it `IsFront`. -/
theorem exists_front (name : String) :
    ∃ front segment, IsFront front ∧ '/' ∉ segment.toList ∧ name = front ++ segment := by
  rcases exists_cut_last '/' name with hclean | ⟨dir, segment, hname, hclean⟩
  · exact ⟨"", name, .empty, hclean, String.empty_append.symm⟩
  · exact ⟨dir ++ "/", segment, .directory dir, hclean,
      String.toList_injective (by simp [hname])⟩

section Segment

variable {front segment stem extension : String} (n : Int)

theorem variant_of_front (hfront : IsFront front) (h : '/' ∉ segment.toList) :
    variant (front ++ segment) n = front ++ variant segment n := by
  cases hfront with
  | empty => simp
  | directory dir => exact variant_inside dir h n

/-- Read from the end, a segment is the text up to the first separator. -/
theorem takeWhile_reverse_segment (h : '/' ∉ segment.toList) :
    segment.toList.reverse.takeWhile (· != '/') = segment.toList.reverse := by
  refine List.takeWhile_eq_self_iff.2 fun c hc => bne_iff_ne.2 ?_
  rintro rfl
  exact h (List.mem_reverse.1 hc)

/-- `variant` puts the number in front of the last dot. -/
theorem variant_extended (hstem : '/' ∉ stem.toList) (hslash : '/' ∉ extension.toList)
    (hdot : '.' ∉ extension.toList) :
    variant (stem ++ "." ++ extension) n = stem ++ "_" ++ toString n ++ "." ++ extension := by
  have hclean : '/' ∉ (stem ++ "." ++ extension).toList := by simp [hstem, hslash]
  have hback : (stem ++ "." ++ extension).toList.reverse =
      extension.toList.reverse ++ '.' :: stem.toList.reverse := by
    simp
  have hcut : ResourceName.cut '.' (extension.toList.reverse ++ '.' :: stem.toList.reverse) =
      some (extension.toList.reverse, stem.toList.reverse) :=
    ResourceName.cut_append _ (by simpa using hdot)
  have hrest : ∀ before after : List Char,
      (before ++ '.' :: after).drop (before.length + 1) = after := by
    intro before after
    simp
  have hsplit : splitExtension (stem ++ "." ++ extension) =
      (stem.toList, '.' :: extension.toList) := by
    unfold splitExtension
    dsimp only
    rw [takeWhile_reverse_segment hclean, hback, hcut]
    dsimp only
    rw [hrest, List.reverse_reverse, List.reverse_reverse]
  rw [variant, hsplit]
  simp [String.ofList_cons, String.append_assoc]

/-- `variant` puts the number at the end of a segment without a dot. -/
theorem variant_bare (hslash : '/' ∉ segment.toList) (hdot : '.' ∉ segment.toList) :
    variant segment n = segment ++ "_" ++ toString n := by
  have hsplit : splitExtension segment = (segment.toList, []) := by
    unfold splitExtension
    dsimp only
    rw [takeWhile_reverse_segment hslash, ResourceName.cut_of_not_mem (by simpa using hdot)]
  rw [variant, hsplit]
  simp

end Segment

/-- What is `Numbered` is the `variant` and nothing else. -/
theorem numbered_iff {n : Int} {name entry : String} :
    Numbered n name entry ↔ entry = variant name n := by
  constructor
  · intro h
    cases h with
    | @extended front stem extension hfront hstem hslash hdot =>
        have hclean : '/' ∉ (stem ++ "." ++ extension).toList := by simp [hstem, hslash]
        rw [variant_of_front n hfront hclean, variant_extended n hstem hslash hdot]
    | bare hfront hslash hdot => rw [variant_of_front n hfront hslash, variant_bare n hslash hdot]
  · rintro rfl
    obtain ⟨front, segment, hfront, hclean, rfl⟩ := exists_front name
    rw [variant_of_front n hfront hclean]
    rcases exists_cut_last '.' segment with hdot | ⟨stem, extension, hsegment, hdot⟩
    · rw [variant_bare n hclean hdot]
      exact .bare hfront hclean hdot
    · obtain rfl : segment = stem ++ "." ++ extension :=
        String.toList_injective (by simp [hsegment])
      simp only [String.toList_append, List.mem_append, not_or] at hclean
      rw [variant_extended n hclean.1.1 hclean.2 hdot]
      exact .extended hfront hclean.1.1 hclean.2 hdot

/-- A `variant` is longer than the name. -/
theorem variant_ne (name : String) (n : Int) : variant name n ≠ name := by
  intro h
  obtain ⟨hall, -⟩ := splitExtension_append name
  have hlength := congrArg (fun s : String => s.toList.length) h
  simp only [variant, String.toList_append, String.toList_ofList, List.length_append] at hlength
  have hname := congrArg List.length hall
  rw [List.length_append] at hname
  have hmark : "_".toList.length = 1 := rfl
  omega

/-! ### Counting up -/

/-- Counting up from `k` ends with `n`, the first number met whose variant is free. Additions are
those of 32 bits. -/
inductive CountsTo (taken : List String) (name : String) : (k n : Int32) → Prop where
  /-- The variant is free. -/
  | free {k : Int32} (h : variant name k.toInt ∉ taken) : CountsTo taken name k k
  /-- The variant is in use, and the count goes on with the next number. -/
  | inUse {k n : Int32} (h : variant name k.toInt ∈ taken)
      (rest : CountsTo taken name (k + 1) n) : CountsTo taken name k n

section Counting

variable {taken : List String} {name entry : String}

/-- `CountsTo` ends with one number only. -/
theorem CountsTo.unique {k m n : Int32} (h : CountsTo taken name k m)
    (h' : CountsTo taken name k n) : m = n := by
  induction h with
  | free hfree =>
      cases h' with
      | free => rfl
      | inUse hused => exact absurd hused hfree
  | inUse hused rest ih =>
      cases h' with
      | free hfree => exact absurd hused hfree
      | inUse _ rest' => exact ih rest'

/-- `CountsTo` depends on the names in use as a set, not on the order in which they are noted. -/
theorem CountsTo.congr {taken' : List String} (hsame : ∀ entry, entry ∈ taken ↔ entry ∈ taken')
    {k n : Int32} (h : CountsTo taken name k n) : CountsTo taken' name k n := by
  induction h with
  | free hfree => exact .free (mt (hsame _).2 hfree)
  | inUse hused rest ih => exact .inUse ((hsame _).1 hused) ih

/-- `counter` comes to the number with which a count ends, and what it shows before is in use. -/
theorem CountsTo.exists_first {m n : Int32} (h : CountsTo taken name m n) {i : Nat}
    (hi : counter i = m) :
    ∃ k, i ≤ k ∧ counter k = n ∧ variant name n.toInt ∉ taken := by
  induction h generalizing i with
  | free hfree => exact ⟨i, le_rfl, hi, hfree⟩
  | @inUse m n hused rest ih =>
      obtain ⟨k, hle, hk, hfree⟩ := ih (show counter (i + 1) = m + 1 by rw [counter_succ, hi])
      exact ⟨k, Nat.le_of_succ_le hle, hk, hfree⟩

/-- A count ends with the first number of `counter` whose variant is free. -/
theorem CountsTo.of_first {i k : Nat} (hle : i ≤ k) (hfree : variant name (counter k).toInt ∉ taken)
    (hbefore : ∀ j, i ≤ j → j < k → variant name (counter j).toInt ∈ taken) :
    CountsTo taken name (counter i) (counter k) := by
  obtain ⟨steps, rfl⟩ := Nat.exists_eq_add_of_le hle
  induction steps generalizing i with
  | zero => exact .free hfree
  | succ steps ih =>
      refine .inUse (hbefore i le_rfl (by omega)) ?_
      rw [← counter_succ]
      rw [show i + (steps + 1) = i + 1 + steps by omega] at hfree hbefore ⊢
      exact ih (Nat.le_add_right _ _) hfree fun j hj hlt => hbefore j (Nat.le_of_succ_le hj) hlt

/-- `number?` finds the number that counting up from 1 ends with. -/
theorem number?_eq_some_iff {n : Int32} :
    number? taken name = some n ↔ CountsTo taken name 1 n := by
  have hcounts : ∀ {m}, number? taken name = some m → CountsTo taken name 1 m := by
    intro m hm
    rw [number?, List.find?_map] at hm
    obtain ⟨k, hk, rfl⟩ := Option.map_eq_some_iff.1 hm
    obtain ⟨hfree, -, hbefore⟩ := List.find?_range_eq_some.1 hk
    rw [← counter_zero]
    exact .of_first (Nat.zero_le k) (by simpa using hfree) fun j _ hlt => by
      simpa using hbefore j hlt
  refine ⟨hcounts, fun h => ?_⟩
  obtain ⟨-, -, -, hfree⟩ := h.exists_first counter_zero
  cases hsearch : number? taken name with
  | none => exact absurd (number?_eq_none_iff.1 hsearch n) hfree
  | some m => rw [(hcounts hsearch).unique h]

/-- The name that `choose` gives instead of one that is in use. -/
theorem choose_eq_some_iff (hname : name ∈ taken) :
    choose taken name = some entry ↔
      ∃ n, CountsTo taken name 1 n ∧ entry = variant name n.toInt := by
  have hsearch : choose taken name =
      (number? taken name).map fun n => variant name n.toInt := by
    simp [choose, hname]
  rw [hsearch, Option.map_eq_some_iff]
  simp only [number?_eq_some_iff, eq_comm (a := entry)]

/-- `choose` depends on the names in use as a set. -/
theorem choose_congr {taken' : List String} (hsame : ∀ entry, entry ∈ taken ↔ entry ∈ taken') :
    choose taken' name = choose taken name := by
  by_cases hname : name ∈ taken
  · refine Option.ext fun entry => ?_
    rw [choose_eq_some_iff hname, choose_eq_some_iff ((hsame name).1 hname)]
    have hback : ∀ entry, entry ∈ taken' ↔ entry ∈ taken := fun entry => (hsame entry).symm
    constructor
    · rintro ⟨n, hn, hentry⟩
      exact ⟨n, hn.congr hback, hentry⟩
    · rintro ⟨n, hn, hentry⟩
      exact ⟨n, hn.congr hsame, hentry⟩
  · rw [choose_of_not_mem hname, choose_of_not_mem (mt (hsame name).2 hname)]

end Counting

/-! ### The name that is due -/

/-- The name that an entry of that name is due: `name` itself if that is free, else its variant with
the least number from 1 on whose variant is free, however great that is. -/
def IsDue (taken : List String) (name entry : String) : Prop :=
  if name ∈ taken then
    ∃ n : Nat, IsLeast {m : Nat | 1 ≤ m ∧ variant name m ∉ taken} n ∧ Numbered n name entry
  else entry = name

section Due

variable {taken : List String} {name entry : String} {n : Nat}

theorem exists_least (taken : List String) (name : String) :
    ∃ n : Nat, IsLeast {m : Nat | 1 ≤ m ∧ variant name m ∉ taken} n := by
  have hunused := exists_unused taken name
  exact ⟨Nat.find hunused, Nat.find_spec hunused, fun m hm => Nat.find_min' hunused hm⟩

/-- A name that is in use gives way to its `variant` with the least number: it is this one that
`IsDue`. -/
theorem isDue_iff_of_least (hname : name ∈ taken)
    (hleast : IsLeast {m : Nat | 1 ≤ m ∧ variant name m ∉ taken} n) :
    IsDue taken name entry ↔ entry = variant name n := by
  rw [IsDue, if_pos hname, ← numbered_iff]
  constructor
  · rintro ⟨m, hm, hnumbered⟩
    rwa [hleast.unique hm]
  · intro hnumbered
    exact ⟨n, hleast, hnumbered⟩

/-- The numbers below the least one that is free belong to different names in use, none of which is
the name itself. -/
theorem le_length_of_least (hname : name ∈ taken)
    (hleast : IsLeast {m : Nat | 1 ≤ m ∧ variant name m ∉ taken} n) : n ≤ taken.dedup.length := by
  obtain ⟨⟨hn, -⟩, hlower⟩ := hleast
  have hused : ∀ m : Nat, 1 ≤ m → m ≤ n - 1 → variant name m ∈ taken.dedup.erase name := by
    intro m hm hlt
    refine (List.mem_erase_of_ne (variant_ne name m)).2 (List.mem_dedup.2 ?_)
    by_contra hfree
    exact absurd (hlower ⟨hm, hfree⟩) (by omega)
  have hmem := List.mem_dedup.2 hname
  have hlength := le_length_of_used hused
  rw [List.length_erase_of_mem hmem] at hlength
  have hpos := List.length_pos_of_mem hmem
  omega

/-- `choose` gives what is due exactly if its counter comes to a number that is free before it runs
over. -/
theorem choose_isDue_iff :
    (∃ entry, choose taken name = some entry ∧ IsDue taken name entry) ↔
      (name ∈ taken → ∃ n : Nat, 1 ≤ n ∧ n < 2 ^ 31 ∧ variant name n ∉ taken) := by
  by_cases hname : name ∈ taken
  · obtain ⟨n, hleast⟩ := exists_least taken name
    have ⟨⟨hn, hfree⟩, hlower⟩ := hleast
    constructor
    · rintro ⟨entry, hchosen, hdue⟩ -
      rw [isDue_iff_of_least hname hleast] at hdue
      obtain ⟨i, -, hentry⟩ := (choose_eq_some_iff hname).1 hchosen
      have hnumber : (n : Int) = i.toInt := variant_injective name (hdue.symm.trans hentry)
      have hbound := i.toInt_lt
      exact ⟨n, hn, by omega, hfree⟩
    · intro hsmall
      obtain ⟨m, hm, hlt, hother⟩ := hsmall hname
      have hle : n ≤ m := hlower ⟨hm, hother⟩
      have hshown : ∀ k < n, (counter k).toInt = (k + 1 : Nat) := by
        intro k hk
        rw [toInt_counter (by omega)]
        rfl
      have hlast : (counter (n - 1)).toInt = n := by
        rw [hshown (n - 1) (by omega), Nat.sub_add_cancel hn]
      refine ⟨variant name n, (choose_eq_some_iff hname).2 ⟨counter (n - 1), ?_, by rw [hlast]⟩,
        (isDue_iff_of_least hname hleast).2 rfl⟩
      rw [← counter_zero]
      refine .of_first (Nat.zero_le _) (by rwa [hlast]) fun j _ hj => ?_
      rw [hshown j (by omega)]
      by_contra hearlier
      exact absurd (hlower ⟨Nat.succ_pos j, hearlier⟩) (by omega)
  · refine ⟨fun _ h => absurd h hname, fun _ => ⟨name, choose_of_not_mem hname, ?_⟩⟩
    rw [IsDue, if_neg hname]

/-- With fewer than 2 ^ 31 names in use the counter never runs over, and `choose` gives the name
that `IsDue`. -/
theorem exists_isDue_of_length (h : taken.dedup.length < 2 ^ 31) (name : String) :
    ∃ entry, choose taken name = some entry ∧ IsDue taken name entry := by
  refine choose_isDue_iff.2 fun hname => ?_
  obtain ⟨n, hleast⟩ := exists_least taken name
  have hbound := le_length_of_least hname hleast
  exact ⟨n, hleast.1.1, by omega, hleast.1.2⟩

end Due

end FreshName

/-! ### One name after the other -/

namespace Session

/-- Names for entries of a type. Each is chosen with all those in use that were noted before it, and
is noted itself. Nothing comes after a name for which the search has no end. -/
def nameEach (type : ResourceType) : List String → Session → List String × Session
  | [], s => ([], s)
  | name :: rest, s =>
    match FreshName.choose (s.takenOf type) name with
    | none => ([], s)
    | some entry =>
      let (entries, t) := nameEach type rest (s.take type entry)
      (entry :: entries, t)

theorem mem_takenOf_take {type other : ResourceType} {name entry : String} {s : Session} :
    entry ∈ (s.take type name).takenOf other ↔
      (other = type ∧ entry = name) ∨ entry ∈ s.takenOf other := by
  rw [takenOf_take]
  split
  · rename_i htype
    simp [htype]
  · rename_i htype
    simp [Ne.symm htype]

section Names

variable {type : ResourceType} {names : List String} {s : Session} {entry : String}

theorem mem_takenOf_nameEach :
    entry ∈ (nameEach type names s).2.takenOf type ↔
      entry ∈ (nameEach type names s).1 ∨ entry ∈ s.takenOf type := by
  induction names generalizing s with
  | nil => simp [nameEach]
  | cons name names ih =>
      rw [nameEach]
      split
      · simp
      · simp only [ih, mem_takenOf_take, List.mem_cons, true_and]
        exact or_left_comm.trans or_assoc.symm

/-- `nameEach` gives no name that was in use. -/
theorem not_mem_of_mem_nameEach (h : entry ∈ (nameEach type names s).1) :
    entry ∉ s.takenOf type := by
  induction names generalizing s with
  | nil => exact absurd h List.not_mem_nil
  | cons name names ih =>
      rw [nameEach] at h
      split at h
      · exact absurd h List.not_mem_nil
      · rename_i chosen hchosen
        rcases List.mem_cons.1 h with rfl | h
        · exact FreshName.not_mem_of_choose hchosen
        · exact fun hmem => ih h (mem_takenOf_take.2 (.inr hmem))

/-- `nameEach` gives no name twice. -/
theorem nodup_nameEach (type : ResourceType) (names : List String) (s : Session) :
    (nameEach type names s).1.Nodup := by
  induction names generalizing s with
  | nil => exact List.nodup_nil
  | cons name names ih =>
      rw [nameEach]
      split
      · exact List.nodup_nil
      · refine List.nodup_cons.2 ⟨fun hmem => ?_, ih _⟩
        exact not_mem_of_mem_nameEach hmem (mem_takenOf_take.2 (.inl ⟨rfl, rfl⟩))

/-- `nameEach` gives every entry a name while fewer than 2 ^ 32 are in use. -/
theorem length_nameEach (h : (s.takenOf type).length + names.length ≤ 2 ^ 32) :
    (nameEach type names s).1.length = names.length := by
  induction names generalizing s with
  | nil => rfl
  | cons name names ih =>
      rw [List.length_cons] at h
      have hfew : (s.takenOf type).length < 2 ^ 32 := by omega
      obtain ⟨entry, hchosen⟩ := FreshName.exists_choose hfew name
      have hrest : ((s.take type entry).takenOf type).length + names.length ≤ 2 ^ 32 := by
        rw [takenOf_take, if_pos rfl, List.length_cons]
        omega
      simp only [nameEach, hchosen, List.length_cons, ih hrest]

end Names

/-- `storeValues` notes the one name that is chosen, whatever comes of it then. -/
theorem mem_takenOf_storeValues {type : ResourceType} {held : Holding} {s : Session} {tag : Bytes}
    (h : resourcesTag ((s.rootAttributes.get? held.source.path.components).getD []) = .ok tag)
    {other : ResourceType} {entry : String} :
    entry ∈ (Filing.reached (storeValues type held) s).takenOf other ↔
      (other = type ∧
        FreshName.choose (s.takenOf type) held.source.entryName = some entry) ∨
        entry ∈ s.takenOf other := by
  -- what is noted is what `take` notes, in all cases in which a name is chosen
  have hnoted : ∀ {name : String},
      FreshName.choose (s.takenOf type) held.source.entryName = some name →
      (entry ∈ (s.take type name).takenOf other ↔
        (other = type ∧
          FreshName.choose (s.takenOf type) held.source.entryName = some entry) ∨
          entry ∈ s.takenOf other) := by
    intro name hchosen
    rw [mem_takenOf_take, hchosen, Option.some.injEq, eq_comm (a := name)]
  have hend := valuesEnd type held s
  rw [Filing.reached]
  generalize storeValues type held s = result at hend
  cases hend with
  | untagged herror =>
      rw [h] at herror
      cases herror
  | endless hnone =>
      have hchosen : FreshName.choose (s.takenOf type) held.source.entryName = none := hnone
      simp [hchosen]
  | homeless hchosen => exact hnoted hchosen
  | refused hchosen hout hheld => exact hnoted hchosen
  | homelessDeclaration hchosen hout hfailed => exact hnoted hchosen
  | written hchosen hout hdocument hnew => exact hnoted hchosen

end Session

/-! ### The names that are chosen -/

namespace FreshName

/-- **Which name an entry gets.** `choose` gives the name that `IsDue` exactly if the name is free,
or some variant with a number from 1 to 2 ^ 31 - 1 is; with fewer than 2 ^ 31 names in use that is
always so. In any case it counts up from 1 with 32 bits, ends exactly if some variant with a number
of 32 bits is free, and gives no name that is in use. Which name that is depends on the names in use
as a set. `storeValues` adds this name to the set and no other, and of the names that `nameEach`
gives one after the other no two are the same. -/
theorem choose_due_iff (taken : List String) (name : String) :
    ((∃ entry, choose taken name = some entry ∧ IsDue taken name entry) ↔
        (name ∈ taken → ∃ n : Nat, 1 ≤ n ∧ n < 2 ^ 31 ∧ variant name n ∉ taken)) ∧
      (taken.dedup.length < 2 ^ 31 →
        ∃ entry, choose taken name = some entry ∧ IsDue taken name entry) ∧
      (name ∉ taken → choose taken name = some name) ∧
      (name ∈ taken → ∀ entry, choose taken name = some entry ↔
        ∃ n, CountsTo taken name 1 n ∧ Numbered n.toInt name entry) ∧
      (∀ n entry, Numbered n name entry ↔ entry = variant name n) ∧
      (choose taken name = none ↔
        name ∈ taken ∧ ∀ n : Int32, variant name n.toInt ∈ taken) ∧
      (∀ entry, choose taken name = some entry → entry ∉ taken) ∧
      (∀ taken', (∀ entry, entry ∈ taken ↔ entry ∈ taken') →
        choose taken' name = choose taken name) ∧
      (∀ (s : Session) (type : ResourceType) (held : Holding) (tag : Bytes),
        Session.resourcesTag
          ((s.rootAttributes.get? held.source.path.components).getD []) = .ok tag →
        ∀ other entry, entry ∈ (Filing.reached (Session.storeValues type held) s).takenOf other ↔
          (other = type ∧ choose (s.takenOf type) held.source.entryName = some entry) ∨
            entry ∈ s.takenOf other) ∧
      ∀ (s : Session) (type : ResourceType) (names : List String),
        (Session.nameEach type names s).1.Nodup ∧
          ((s.takenOf type).length + names.length ≤ 2 ^ 32 →
            (Session.nameEach type names s).1.length = names.length) ∧
          (∀ entry ∈ (Session.nameEach type names s).1, entry ∉ s.takenOf type) ∧
          ∀ entry, entry ∈ (Session.nameEach type names s).2.takenOf type ↔
            entry ∈ (Session.nameEach type names s).1 ∨ entry ∈ s.takenOf type := by
  refine ⟨choose_isDue_iff, fun h => exists_isDue_of_length h name, choose_of_not_mem,
    fun hname entry => ?_, fun _ _ => numbered_iff, choose_eq_none_iff,
    fun _ => not_mem_of_choose, fun _ => choose_congr,
    fun _ _ _ _ htag _ _ => Session.mem_takenOf_storeValues htag, fun s type names =>
    ⟨Session.nodup_nameEach type names s, Session.length_nameEach,
      fun _ => Session.not_mem_of_mem_nameEach, fun _ => Session.mem_takenOf_nameEach⟩⟩
  simp only [choose_eq_some_iff hname, numbered_iff]

/-- The first and the third number are in use, and the declarations of a file of that name are
written with the second. The dot in the directory does not count. -/
theorem choose_due_gap :
    let name := "res.v2/values/b.en.xml"
    let taken := [name, "res.v2/values/b.en_1.xml", "res.v2/values/b.en_3.xml"]
    let path := Path.ofString name
    let file : ResourceFile := ⟨path, .ofString "res.v2", "values", .values, "", {}⟩
    let s : Session :=
      { outputs := [(.string, [[]])], sharder := .fnv, taken := [(.string, taken)] }
    let t := Filing.reached (Session.storeValues .string { source := file }) s
    name ∈ taken ∧ choose taken name = some "res.v2/values/b.en_2.xml" ∧
      IsDue taken name "res.v2/values/b.en_2.xml" ∧
      "res.v2/values/b.en_2.xml" ∈ t.takenOf .string := by
  intro name taken path file s t
  have hname : name ∈ taken := by decide
  have hchosen : choose taken name = some "res.v2/values/b.en_2.xml" := by decide +kernel
  have htag : Session.resourcesTag
      ((s.rootAttributes.get? file.path.components).getD []) =
        .ok (Bytes.ofString "<resources>") := by decide +kernel
  have hfree : variant name 2 ∉ taken := by decide +kernel
  obtain ⟨hdue, -, -, -, -, -, -, -, hwritten, -⟩ := choose_due_iff taken name
  obtain ⟨entry, hentry, hisDue⟩ := hdue.2 fun _ => ⟨2, by decide, by decide, hfree⟩
  obtain rfl : "res.v2/values/b.en_2.xml" = entry := Option.some.inj (hchosen.symm.trans hentry)
  refine ⟨hname, hchosen, hisDue, ?_⟩
  refine (hwritten s .string { source := file } _ htag .string _).2 (.inl ⟨rfl, ?_⟩)
  have hfile : file.entryName = name := by decide +kernel
  rw [hfile]
  exact hchosen

/-- Where the name and its variants with all positive numbers of 32 bits are in use, and the one
with the least number is free, `choose` gives that one. -/
theorem choose_of_overrun {taken : List String} {name : String} (hname : name ∈ taken)
    (hused : ∀ n : Nat, 1 ≤ n → n < 2 ^ 31 → variant name n ∈ taken)
    (hfree : variant name (-2147483648) ∉ taken) :
    choose taken name = some (variant name (-2147483648)) := by
  have hlast : (counter 2147483647).toInt = -2147483648 := by decide +kernel
  refine (choose_eq_some_iff hname).2 ⟨counter 2147483647, ?_, by rw [hlast]⟩
  rw [← counter_zero]
  refine .of_first (Nat.zero_le _) (by rwa [hlast]) fun j _ hj => ?_
  rw [toInt_counter (by omega)]
  exact hused (j + 1) (Nat.succ_pos j) (by omega)

/-- With 2 ^ 31 names in use, `a.xml` and its variants up to `a_2147483647.xml`, the counter runs
over: the entry is due the next number, and gets a negative one. -/
theorem choose_overrun :
    let name := "res/values/a.xml"
    let taken := name :: (List.range' 1 2147483647).map fun n : Nat => variant name n
    choose taken name = some "res/values/a_-2147483648.xml" ∧
      IsDue taken name "res/values/a_2147483648.xml" ∧
      ¬IsDue taken name "res/values/a_-2147483648.xml" := by
  intro name taken
  have hname : name ∈ taken := List.mem_cons_self
  have hused : ∀ n : Nat, 1 ≤ n → n < 2 ^ 31 → variant name n ∈ taken := by
    intro n hn hlt
    refine List.mem_cons_of_mem _ (List.mem_map.2 ⟨n, List.mem_range'_1.2 ⟨hn, ?_⟩, rfl⟩)
    omega
  have hfree : ∀ n : Int, (n < 1 ∨ 2147483647 < n) → variant name n ∉ taken := by
    intro n hn hmem
    rcases List.mem_cons.1 hmem with hsame | hmem
    · exact variant_ne name n hsame
    · obtain ⟨m, hm, hsame⟩ := List.mem_map.1 hmem
      have hnumber := variant_injective name hsame
      have hrange := List.mem_range'_1.1 hm
      omega
  have hleast : IsLeast {m : Nat | 1 ≤ m ∧ variant name m ∉ taken} 2147483648 := by
    refine ⟨⟨by decide, hfree _ (.inr (by decide))⟩, fun m hm => ?_⟩
    obtain ⟨hone, hother⟩ := hm
    by_contra hlt
    exact hother (hused m hone (by omega))
  have hdue : "res/values/a_2147483648.xml" = variant name (2147483648 : Nat) := by decide +kernel
  have hgiven : "res/values/a_-2147483648.xml" = variant name (-2147483648) := by decide +kernel
  refine ⟨?_, (isDue_iff_of_least hname hleast).2 hdue, fun h => ?_⟩
  · rw [hgiven]
    exact choose_of_overrun hname hused (hfree _ (.inl (by decide)))
  · have hnumber := variant_injective name
      (hgiven.symm.trans ((isDue_iff_of_least hname hleast).1 h))
    exact absurd hnumber (by decide)

end FreshName

end ResourceShards
