import Mathlib.Data.List.Lex
import ResourceShards.Files.Walk
import ResourceShards.Proofs.Files.Respelling

/-!
# ResourceShards.Proofs.Files.DepthFirst

**The walk of one tree.** The files beneath a root are those to which names lead through the
directories of its tree. A walk takes the ways to all of them, each way once, and in the order of
their names: where the ways to two files part, the one with the lesser name comes first. So what is
in one directory is listed before anything in an entry behind it.

* `Path.below`, `Path.components_below`: the path to which names lead
* `Tree.Proper`: trees as file systems have them
* `Tree.HasFile`: the names that lead to files
* `Tree.Proper.find`: what a path names is such a tree again
* `Tree.Precedes`: depth-first order
* `Tree.Proper.exists_isWalk`: the walk of a tree
-/

namespace ResourceShards

namespace Path

/-! ### Paths below a path -/

/-- A name in place of the empty piece at the end of a path adds one component. -/
theorem components_of_last {p q : Path} (front : List Bytes) {name : Bytes}
    (hp : p.bytes.splitOn separator = front ++ [[]])
    (hq : q.bytes.splitOn separator = front ++ [name]) (habsolute : q.isAbsolute = p.isAbsolute)
    (hname : IsName name) : q.components = p.components ++ [.name name] := by
  have hhead : ((front ++ [name]).head? == some dot) = ((front ++ [[]]).head? == some dot) := by
    cases front with
    | nil => simpa [dot] using hname.ne_dot
    | cons piece front => rfl
  have hnone : Component.ofSegment? [] = none := rfl
  unfold components
  simp only [Bytes.splitAll_eq_splitOn, hp, hq, habsolute, hhead, List.filterMap_append,
    List.filterMap_cons, List.filterMap_nil, hname.ofSegment?, hnone, List.append_nil]
  split
  · rfl
  · split <;> rfl

/-- `join` adds one component, however the path of the directory ends. -/
theorem components_join (p : Path) {name : Bytes} (hname : IsName name) :
    (p.join name).components = p.components ++ [.name name] := by
  obtain ⟨b, rest, hbytes⟩ := List.exists_cons_of_ne_nil hname.ne_nil
  have hb : b ≠ separator := fun heq => hname.separator (hbytes ▸ heq ▸ List.mem_cons_self)
  have hrelative : ¬(name.head? == some separator) = true := by simpa [hbytes] using hb
  rw [join, if_neg hrelative]
  split
  · rename_i hend
    simp only [Bool.or_eq_true, beq_iff_eq] at hend
    rcases hend with hempty | hlast
    · refine components_of_last [] ?_ ?_ ?_ hname
      · rw [hempty]
        rfl
      · rw [hempty]
        exact List.splitOn_eq_singleton hname.separator
      · simpa [isAbsolute, hempty, hbytes] using hb
    · obtain ⟨front, hfront⟩ := List.getLast?_eq_some_iff.1 hlast
      refine components_of_last (front.splitOn separator) ?_ ?_ ?_ hname
      · rw [hfront, List.splitOn_append_cons_self, List.splitOn_nil]
      · rw [hfront, List.append_assoc, List.singleton_append, List.splitOn_append_cons_self,
          List.splitOn_eq_singleton hname.separator]
      · cases front <;> simp [isAbsolute, hfront]
  · rename_i hend
    simp only [Bool.or_eq_true, beq_iff_eq, not_or] at hend
    exact components_inside hend.1 hname

/-- The path to which names lead from another one. -/
def below (p : Path) (names : List Bytes) : Path :=
  names.foldl join p

theorem components_below (p : Path) {names : List Bytes} (h : ∀ name ∈ names, IsName name) :
    (p.below names).components = p.components ++ names.map .name := by
  induction names generalizing p with
  | nil => simp [below]
  | cons name names ih =>
      rw [below, List.foldl_cons, ← below, ih _ fun other hother => h other (.tail _ hother),
        components_join p (h name List.mem_cons_self), List.append_assoc, List.singleton_append,
        List.map_cons]

end Path

namespace Tree

/-! ### Files of a tree -/

variable {α : Type}

/-- A tree as file systems have them: what a directory holds has names, each another one. -/
inductive Proper : Tree α → Prop where
  /-- A file. -/
  | file (contents : α) : Proper (.file contents)
  /-- A directory. -/
  | directory {entries : List (Bytes × Tree α)} (distinct : (entries.map Prod.fst).Nodup)
      (named : ∀ e ∈ entries, Path.IsName e.1) (inner : ∀ e ∈ entries, Proper e.2) :
      Proper (.directory entries)

/-- Names that lead to a file of a tree. -/
inductive HasFile : Tree α → List Bytes → Prop where
  /-- The tree is a file. -/
  | here (contents : α) : HasFile (.file contents) []
  /-- The file is in an entry of a directory. -/
  | inside {entries : List (Bytes × Tree α)} {name : Bytes} {tree : Tree α} {names : List Bytes}
      (hentry : (name, tree) ∈ entries) (h : HasFile tree names) :
      HasFile (.directory entries) (name :: names)

/-- In a `Proper` tree all names of `HasFile` are names of entries (`IsName`). -/
theorem Proper.isName {tree : Tree α} (htree : tree.Proper) {names : List Bytes}
    (h : tree.HasFile names) : ∀ name ∈ names, Path.IsName name := by
  induction h with
  | here contents => exact fun _ hname => absurd hname List.not_mem_nil
  | inside hentry h ih =>
      cases htree with
      | directory distinct named inner =>
          intro name hname
          rcases List.mem_cons.1 hname with rfl | hname
          · exact named _ hentry
          · exact ih (inner _ hentry) name hname

/-- `entry` finds a `Proper` tree in a `Proper` tree. -/
theorem Proper.entry {tree found : Tree α} (htree : tree.Proper) {name : Bytes}
    (h : tree.entry name = .ok found) : found.Proper := by
  cases htree with
  | file contents => cases h
  | @directory entries distinct named inner =>
      rw [Tree.entry] at h
      split at h
      · rename_i tree hlookup
        cases h
        obtain ⟨before, after, rfl, -⟩ := List.lookup_eq_some_iff.1 hlookup
        exact inner _ (List.mem_append_right _ List.mem_cons_self)
      · cases h

/-- A spot that was reached through proper trees. -/
structure Spot.Proper (s : Spot α) : Prop where
  /-- What stands there. -/
  here : s.here.Proper
  /-- What it stands in. -/
  trail : ∀ e ∈ s.trail, e.2.Proper

/-- `Spot.step` leads from proper trees to proper trees. -/
theorem Spot.Proper.step {s t : Spot α} (hs : s.Proper) {segment : Bytes}
    (h : s.step segment = .ok t) : t.Proper := by
  unfold Spot.step at h
  split at h
  · cases h
  split at h
  · cases h
    exact hs
  split at h
  · split at h
    · cases h
    · rename_i name outer trail heq
      cases h
      have htrail := hs.trail
      rw [heq, List.forall_mem_cons] at htrail
      exact ⟨htrail.1, htrail.2⟩
  · cases hentry : s.here.entry segment with
    | error reason =>
        rw [hentry] at h
        cases h
    | ok found =>
        rw [hentry] at h
        cases h
        exact ⟨hs.here.entry hentry, List.forall_mem_cons.2 ⟨hs.here, hs.trail⟩⟩

/-- `Spot.step` leads to proper trees along any list of segments. -/
theorem Spot.Proper.steps {segments : List Bytes} {s t : Spot α} (hs : s.Proper)
    (h : segments.foldlM Spot.step s = .ok t) : t.Proper := by
  induction segments generalizing s with
  | nil =>
      cases h
      exact hs
  | cons segment segments ih =>
      rw [List.foldlM_cons] at h
      cases hstep : s.step segment with
      | error reason =>
          rw [hstep] at h
          cases h
      | ok next =>
          rw [hstep] at h
          exact ih (hs.step hstep) h

/-- `find` finds a `Proper` tree in a `Proper` tree. -/
theorem Proper.find {tree found : Tree α} (htree : tree.Proper) {p : Path}
    (h : tree.find p = .ok found) : found.Proper := by
  unfold Tree.find spot at h
  split at h
  · cases h
  · cases hspot : tree.follow (Bytes.splitAll Path.separator p.bytes) with
    | error reason =>
        rw [hspot] at h
        cases h
    | ok t =>
        rw [hspot] at h
        cases h
        have hstart : Spot.Proper ⟨[], tree⟩ := ⟨htree, fun _ he => absurd he List.not_mem_nil⟩
        exact (hstart.steps hspot).here

/-! ### Depth-first order -/

/-- Two ways part in some directory, and there the first one takes the lesser name. What is in one
entry of a directory so comes before all that is in a later one. -/
def Precedes (a b : List Bytes) : Prop :=
  ∃ common x y rest rest', a = common ++ x :: rest ∧ b = common ++ y :: rest' ∧ x < y

theorem Precedes.of_lt {x y : Bytes} (h : x < y) (a b : List Bytes) :
    Precedes (x :: a) (y :: b) :=
  ⟨[], x, y, a, b, rfl, rfl, h⟩

theorem Precedes.cons {a b : List Bytes} (h : Precedes a b) (name : Bytes) :
    Precedes (name :: a) (name :: b) := by
  obtain ⟨common, x, y, rest, rest', rfl, rfl, hlt⟩ := h
  exact ⟨name :: common, x, y, rest, rest', rfl, rfl, hlt⟩

/-- `Precedes` implies the order of lists. -/
theorem Precedes.lt {a b : List Bytes} (h : Precedes a b) : a < b := by
  obtain ⟨common, x, y, rest, rest', rfl, rfl, hlt⟩ := h
  exact List.append_left_lt (List.cons_lt_cons_iff.2 (.inl hlt))

/-! ### The walk of one tree -/

theorem entryFilesAt_eq_map (place : Path) (entries : List (Bytes × Tree α)) :
    entryFilesAt place entries = entries.map fun e => (e.1, e.2.filesAt (place.join e.1)) := by
  induction entries with
  | nil => rw [entryFilesAt, List.map_nil]
  | cons e entries ih => rw [entryFilesAt, ih, List.map_cons]

/-- The entries of a directory, sorted by name. -/
def sortedEntries (entries : List (Bytes × Tree α)) : List (Bytes × Tree α) :=
  entries.mergeSort fun a b => nameLe a.1 b.1

theorem mem_sortedEntries {entries : List (Bytes × Tree α)} {e : Bytes × Tree α} :
    e ∈ sortedEntries entries ↔ e ∈ entries :=
  (List.mergeSort_perm _ _).mem_iff

/-- `filesAt` walks a directory entry by entry, as `sortedEntries` has them. -/
theorem filesAt_directory (place : Path) (entries : List (Bytes × Tree α)) :
    (Tree.directory entries).filesAt place =
      (sortedEntries entries).flatMap fun e => e.2.filesAt (place.join e.1) := by
  have hsort : (sortedEntries entries).map (fun e => (e.1, e.2.filesAt (place.join e.1))) =
      (entryFilesAt place entries).mergeSort fun a b => nameLe a.1 b.1 := by
    rw [entryFilesAt_eq_map]
    exact List.map_mergeSort fun _ _ _ _ => rfl
  rw [filesAt, ← hsort, List.flatMap_map]

/-- If all names are different, those of `sortedEntries` increase. -/
theorem pairwise_sortedEntries {entries : List (Bytes × Tree α)}
    (h : (entries.map Prod.fst).Nodup) :
    (sortedEntries entries).Pairwise fun a b => a.1 < b.1 := by
  have hsorted : (sortedEntries entries).Pairwise fun a b => nameLe a.1 b.1 = true := by
    refine List.pairwise_mergeSort (fun a b c hab hbc => ?_) (fun a b => ?_) entries
    · exact decide_eq_true (List.le_trans (of_decide_eq_true hab) (of_decide_eq_true hbc))
    · simpa [nameLe] using List.le_total a.1 b.1
  have hdistinct : (sortedEntries entries).Pairwise fun a b => a.1 ≠ b.1 :=
    List.pairwise_map.1 (((List.mergeSort_perm entries _).map Prod.fst).nodup_iff.2 h)
  exact hsorted.imp₂ (fun a b hle hne => Std.lt_of_le_of_ne (of_decide_eq_true hle) hne) hdistinct

/-- If all names are different, `sortedEntries` is the only order in which they increase. -/
theorem sortedEntries_eq {entries sorted : List (Bytes × Tree α)} (hperm : sorted.Perm entries)
    (hsorted : sorted.Pairwise fun a b => a.1 < b.1) : sortedEntries entries = sorted := by
  have hdistinct : (entries.map Prod.fst).Nodup := by
    rw [← (hperm.map Prod.fst).nodup_iff]
    refine List.pairwise_map.2 (hsorted.imp fun {a b} hlt (heq : a.1 = b.1) => ?_)
    rw [heq] at hlt
    exact List.lt_irrefl _ hlt
  refine List.Perm.eq_of_pairwise (fun _ _ _ _ hlt hgt => absurd hgt (List.lt_asymm hlt))
    (pairwise_sortedEntries hdistinct) hsorted ?_
  exact (List.mergeSort_perm _ _).trans hperm.symm

/-- A walk takes these ways to the files of a tree. -/
structure IsWalk (tree : Tree α) (ways : List (List Bytes)) : Prop where
  /-- What is listed are the paths at the end of them. -/
  spelled : ∀ place, tree.filesAt place = ways.map place.below
  /-- They are in depth-first order. -/
  ordered : ways.Pairwise Precedes
  /-- They are all ways to files. -/
  exact : ∀ names, names ∈ ways ↔ tree.HasFile names

/-- A row of entries is walked like a directory: their ways, each with the name of its entry in
front, are in the order of `Precedes` and are exactly those of the files. -/
theorem exists_ways {entries : List (Bytes × Tree α)}
    (hsorted : entries.Pairwise fun a b => a.1 < b.1)
    (h : ∀ e ∈ entries, ∃ ways, IsWalk e.2 ways) :
    ∃ ways : List (List Bytes),
      (∀ place : Path, entries.flatMap (fun e => e.2.filesAt (place.join e.1)) =
        ways.map place.below) ∧
      ways.Pairwise Precedes ∧
      ∀ names, names ∈ ways ↔
        ∃ e ∈ entries, ∃ rest, names = e.1 :: rest ∧ e.2.HasFile rest := by
  induction entries with
  | nil => exact ⟨[], fun _ => rfl, .nil, by simp⟩
  | cons e entries ih =>
      obtain ⟨hfirst, hrest⟩ := List.pairwise_cons.1 hsorted
      obtain ⟨own, hown⟩ := h e List.mem_cons_self
      obtain ⟨others, hspelled, hordered, hexact⟩ :=
        ih hrest fun other hother => h other (List.mem_cons_of_mem _ hother)
      refine ⟨own.map (e.1 :: ·) ++ others, fun place => ?_, ?_, fun names => ?_⟩
      · rw [List.flatMap_cons, hspelled, hown.spelled, List.map_append, List.map_map]
        rfl
      · refine List.pairwise_append.2 ⟨?_, hordered, fun a ha b hb => ?_⟩
        · exact List.pairwise_map.2 (hown.ordered.imp fun hab => hab.cons e.1)
        · obtain ⟨rest, -, rfl⟩ := List.mem_map.1 ha
          obtain ⟨other, hother, rest', rfl, -⟩ := (hexact b).1 hb
          exact .of_lt (hfirst other hother) rest rest'
      · simp only [List.mem_append, List.mem_map, hown.exact, hexact, List.mem_cons,
          or_and_right, exists_or, exists_eq_left]
        refine or_congr_left ⟨?_, ?_⟩
        · rintro ⟨rest, hfile, rfl⟩
          exact ⟨rest, rfl, hfile⟩
        · rintro ⟨rest, rfl, hfile⟩
          exact ⟨rest, hfile, rfl⟩

/-- Every `Proper` tree has an `IsWalk`, which names each of its files once. -/
theorem Proper.exists_isWalk {tree : Tree α} (h : tree.Proper) : ∃ ways, IsWalk tree ways := by
  induction h with
  | file contents =>
      refine ⟨[[]], fun place => by rw [filesAt]; rfl, List.pairwise_singleton _ _,
        fun names => ?_⟩
      rw [List.mem_singleton]
      refine ⟨?_, fun hfile => ?_⟩
      · rintro rfl
        exact .here contents
      · cases hfile
        rfl
  | @directory entries distinct named inner ih =>
      obtain ⟨ways, hspelled, hordered, hexact⟩ := exists_ways (pairwise_sortedEntries distinct)
        fun e he => ih e (mem_sortedEntries.1 he)
      refine ⟨ways, fun place => ?_, hordered, fun names => ?_⟩
      · rw [filesAt_directory, hspelled]
      · simp only [hexact, mem_sortedEntries]
        refine ⟨?_, fun hfile => ?_⟩
        · rintro ⟨e, he, rest, rfl, hfile⟩
          exact .inside he hfile
        · cases hfile with
          | inside hentry hfile => exact ⟨_, hentry, _, rfl, hfile⟩

end Tree

end ResourceShards
