import Mathlib.Data.List.Nodup
import Mathlib.Data.List.Perm.Basic
import ResourceShards.Archive.Reshard
import ResourceShards.Proofs.Archive.Writing

/-!
# ResourceShards.Proofs.Archive.Resharding

**Dealing out divides the files of an archive.** Every file goes behind what is there in the one
archive that its name is assigned to, and files that go to the same archive keep their order. A file
without a shard, or with a name that its archive has already, stops the dealing: all files before it
are dealt out then, and no others. Directories and links are passed over, so they stop nothing.

* `Reshard.share`: the files that belong to one archive, as they are put there
* `Reshard.Fits`, `Reshard.Refused`: files that can be dealt out, and one that can not
* `Reshard.forM_deal_ok_iff`: how any number of files is dealt out
* `Reshard.dealAll_partitions`: how the files of an archive are dealt out, and where that stops
-/

namespace ResourceShards.Reshard

/-- An entry as it is dealt out. -/
def copied (e : Entry) : Entry where
  name := e.name
  body := e.body
  method := .stored

/-- Which of some files one archive gets, if there are so many of them. -/
def share (sharder : Sharder) (shards : Nat) (files : List Entry) (index : Nat) : List Entry :=
  (files.filter fun e => sharder.assign e.name shards == index).map copied

/-- Files that can be dealt out over some archives. -/
structure Fits (sharder : Sharder) (archives : List Archive) (files : List Entry) : Prop where
  /-- Each of them has a shard. -/
  inRange : ∀ e ∈ files, sharder.assign e.name archives.length < archives.length
  /-- No archive has one of the names that it gets. -/
  new : ∀ (index : Nat) (a : Archive), archives[index]? = some a →
    a.names.Disjoint (Archive.names (share sharder archives.length files index))
  /-- No archive gets a name twice. -/
  distinct : ∀ index, (Archive.names (share sharder archives.length files index)).Nodup

/-- Why a file is not dealt out. -/
inductive Refused (sharder : Sharder) (archives : List Archive) (e : Entry) : Error → Prop where
  /-- It has no shard. -/
  | outOfRange (h : archives.length ≤ sharder.assign e.name archives.length) :
      Refused sharder archives e (.badShard sharder.name e.name archives.length
        (sharder.assign e.name archives.length))
  /-- Its archive has an entry of its name. -/
  | nameTaken {a : Archive}
      (hfound : archives[sharder.assign e.name archives.length]? = some a)
      (htaken : e.name ∈ a.names) :
      Refused sharder archives e (.archive .createOutputEntry e.name (.duplicate e.name))

/-! ### Shares -/

variable {sharder : Sharder} {archives after : List Archive} {e : Entry} {files : List Entry}

theorem share_append (shards : Nat) (files more : List Entry) (index : Nat) :
    share sharder shards (files ++ more) index =
      share sharder shards files index ++ share sharder shards more index := by
  rw [share, List.filter_append, List.map_append]
  rfl

theorem share_singleton (shards : Nat) (e : Entry) (index : Nat) :
    share sharder shards [e] index =
      if index = sharder.assign e.name shards then [copied e] else [] := by
  by_cases h : index = sharder.assign e.name shards
  · simp [share, h]
  · simp [share, h, Ne.symm h]

theorem share_cons (shards : Nat) (e : Entry) (files : List Entry) (index : Nat) :
    share sharder shards (e :: files) index =
      share sharder shards [e] index ++ share sharder shards files index :=
  share_append shards [e] files index

/-- A file is in the `share` of the one archive that it is assigned to. -/
theorem copied_mem_share_iff {shards index : Nat} (he : e ∈ files) :
    copied e ∈ share sharder shards files index ↔ index = sharder.assign e.name shards := by
  constructor
  · intro hmem
    obtain ⟨other, hother, hsame⟩ := List.mem_map.1 hmem
    have hname : (copied other).name = (copied e).name := congrArg Entry.name hsame
    change other.name = e.name at hname
    rw [← hname]
    exact (beq_iff_eq.1 (List.mem_filter.1 hother).2).symm
  · rintro rfl
    exact List.mem_map_of_mem (List.mem_filter.2 ⟨he, beq_self_eq_true _⟩)

/-- All shares together are all files, if each is assigned to some archive. -/
theorem perm_flatMap_share {shards : Nat}
    (h : ∀ e ∈ files, sharder.assign e.name shards < shards) :
    ((List.range shards).flatMap (share sharder shards files)).Perm (files.map copied) := by
  induction files with
  | nil =>
      have hnone : (List.range shards).flatMap (share sharder shards []) = [] :=
        List.flatMap_eq_nil_iff.2 fun index _ => rfl
      rw [hnone]
      exact .nil
  | cons e files ih =>
      obtain ⟨hfirst, hrest⟩ := List.forall_mem_cons.1 h
      have hone : (List.range shards).flatMap (share sharder shards [e]) = [copied e] := by
        obtain ⟨before, later, hsplit⟩ := List.append_of_mem (List.mem_range.2 hfirst)
        have hdistinct := List.nodup_range (n := shards)
        rw [hsplit, List.nodup_append, List.nodup_cons] at hdistinct
        obtain ⟨-, ⟨hlater, -⟩, hbefore⟩ := hdistinct
        have hother : ∀ index, index ≠ sharder.assign e.name shards →
            share sharder shards [e] index = [] := by
          intro index hindex
          rw [share_singleton, if_neg hindex]
        rw [hsplit, List.flatMap_append, List.flatMap_cons,
          List.flatMap_eq_nil_iff.2 fun index hindex =>
            hother index (hbefore index hindex _ List.mem_cons_self),
          List.flatMap_eq_nil_iff.2 fun index hindex =>
            hother index fun heq => hlater (heq ▸ hindex), share_singleton, if_pos rfl]
        rfl
      have hcons : share sharder shards (e :: files) =
          fun index => share sharder shards [e] index ++ share sharder shards files index := by
        funext index
        exact share_cons shards e files index
      rw [hcons]
      refine (List.flatMap_append_perm _ _ _).symm.trans ?_
      rw [hone]
      exact (ih hrest).cons (copied e)

/-! ### One file -/

/-- `deal` puts a file where it is assigned to, if there is such an archive and the name is new
there. -/
theorem deal_eq (hne : archives ≠ []) (e : Entry) :
    deal sharder e archives =
      match archives[sharder.assign e.name archives.length]? with
      | none => .error (.badShard sharder.name e.name archives.length
          (sharder.assign e.name archives.length)) archives
      | some a =>
        if e.name ∈ a.names then
          .error (.archive .createOutputEntry e.name (.duplicate e.name)) archives
        else .ok () (archives.set (sharder.assign e.name archives.length) (a ++ [copied e])) := by
  unfold deal
  rw [bind_of_ok (show (get : Dealing (List Archive)) archives = .ok archives archives from rfl)]
  unfold Sharder.shard
  rw [if_neg (mt List.length_eq_zero_iff.1 hne)]
  by_cases hlt : sharder.assign e.name archives.length < archives.length
  · rw [if_pos hlt, List.getElem?_eq_getElem hlt]
    simp only
    rw [bind_of_ok (show (pure _ : Dealing Nat) archives = .ok _ archives from rfl),
      List.getElem?_eq_getElem hlt, Option.getD_some, Archive.add]
    simp only [List.contains_iff_mem]
    by_cases htaken : e.name ∈ archives[sharder.assign e.name archives.length].names
    · rw [if_pos htaken, if_pos htaken]
      rfl
    · rw [if_neg htaken, if_neg htaken]
      rfl
  · rw [if_neg hlt, List.getElem?_eq_none (Nat.le_of_not_lt hlt)]
    rfl

theorem deal_ok_iff (hne : archives ≠ []) :
    deal sharder e archives = .ok () after ↔
      ∃ a, archives[sharder.assign e.name archives.length]? = some a ∧ e.name ∉ a.names ∧
        after = appendAll (share sharder archives.length [e]) archives := by
  rw [deal_eq hne]
  cases hfound : archives[sharder.assign e.name archives.length]? with
  | none => simp
  | some a =>
      have hset : archives.set (sharder.assign e.name archives.length) (a ++ [copied e]) =
          appendAll (share sharder archives.length [e]) archives := by
        rw [set_eq_appendAll _ hfound]
        refine congrArg (appendAll · archives) ?_
        funext index
        exact (share_singleton _ _ _).symm
      by_cases htaken : e.name ∈ a.names
      · simp [htaken]
      · simp [htaken, hset, eq_comm]

theorem deal_error_iff (hne : archives ≠ []) {err : Error} :
    deal sharder e archives = .error err after ↔
      after = archives ∧ Refused sharder archives e err := by
  rw [deal_eq hne]
  cases hfound : archives[sharder.assign e.name archives.length]? with
  | none =>
      constructor
      · rintro ⟨⟩
        exact ⟨rfl, .outOfRange (List.getElem?_eq_none_iff.1 hfound)⟩
      · rintro ⟨rfl, hrefused⟩
        cases hrefused with
        | outOfRange h => rfl
        | nameTaken hfound' _ =>
            rw [hfound] at hfound'
            cases hfound'
  | some a =>
      obtain ⟨hlt, -⟩ := List.getElem?_eq_some_iff.1 hfound
      by_cases htaken : e.name ∈ a.names
      · simp only [if_pos htaken]
        constructor
        · rintro ⟨⟩
          exact ⟨rfl, .nameTaken hfound htaken⟩
        · rintro ⟨rfl, hrefused⟩
          cases hrefused with
          | outOfRange h => exact absurd hlt (Nat.not_lt.2 h)
          | nameTaken _ _ => rfl
      · simp only [if_neg htaken]
        constructor
        · rintro ⟨⟩
        · rintro ⟨rfl, hrefused⟩
          cases hrefused with
          | outOfRange h => exact absurd hlt (Nat.not_lt.2 h)
          | nameTaken hfound' htaken' =>
              rw [hfound] at hfound'
              cases hfound'
              exact absurd htaken' htaken

/-- Which number of archives is too small for a file does not depend on what is in them. -/
theorem refused_of_length (hlength : after.length = archives.length)
    (h : archives.length ≤ sharder.assign e.name archives.length) :
    Refused sharder after e (.badShard sharder.name e.name archives.length
      (sharder.assign e.name archives.length)) := by
  rw [← hlength] at h ⊢
  exact .outOfRange h

/-! ### Any number of files -/

theorem appendAll_ne_nil (more : Nat → List Entry) (hne : archives ≠ []) :
    appendAll more archives ≠ [] := by
  intro hnil
  have hlength := congrArg List.length hnil
  rw [length_appendAll] at hlength
  exact hne (List.length_eq_zero_iff.1 hlength)

theorem fits_nil : Fits sharder archives [] :=
  ⟨fun _ h => absurd h List.not_mem_nil, fun _ _ _ _ _ h => absurd h List.not_mem_nil,
    fun _ => .nil⟩

/-- A row of files `Fits` if the first one can be dealt out, and then the others. -/
theorem fits_cons_iff :
    Fits sharder archives (e :: files) ↔
      (∃ a, archives[sharder.assign e.name archives.length]? = some a ∧ e.name ∉ a.names) ∧
        Fits sharder (appendAll (share sharder archives.length [e]) archives) files := by
  have hfirst : ∀ index, Archive.names (share sharder archives.length [e] index) =
      if index = sharder.assign e.name archives.length then [e.name] else [] := by
    intro index
    rw [share_singleton]
    split <;> rfl
  have hnames : ∀ index, Archive.names (share sharder archives.length (e :: files) index) =
      Archive.names (share sharder archives.length [e] index) ++
        Archive.names (share sharder archives.length files index) := by
    intro index
    rw [share_cons, Archive.names_append]
  constructor
  · intro h
    have hlt := h.inRange e List.mem_cons_self
    refine ⟨⟨_, List.getElem?_eq_getElem hlt, ?_⟩, ?_, ?_, ?_⟩
    · intro hmem
      refine h.new _ _ (List.getElem?_eq_getElem hlt) hmem ?_
      rw [hnames, hfirst, if_pos rfl]
      exact List.mem_cons_self
    · intro other hother
      rw [length_appendAll]
      exact h.inRange other (List.mem_cons_of_mem e hother)
    · intro index a hfound
      rw [getElem?_appendAll] at hfound
      obtain ⟨old, hold, rfl⟩ := Option.map_eq_some_iff.1 hfound
      have hnew := h.new index old hold
      have hdistinct := h.distinct index
      rw [hnames] at hnew hdistinct
      rw [length_appendAll, Archive.names_append, List.disjoint_append_left]
      exact ⟨(List.disjoint_append_right.1 hnew).2, List.disjoint_of_nodup_append hdistinct⟩
    · intro index
      have hdistinct := h.distinct index
      rw [hnames] at hdistinct
      rw [length_appendAll]
      exact hdistinct.of_append_right
  · rintro ⟨⟨a, hfound, htaken⟩, hrange, hnew, hdistinct⟩
    rw [length_appendAll] at hrange hnew hdistinct
    -- what the first file adds is in no share of the others
    have happ : ∀ (index : Nat) (old : Archive), archives[index]? = some old →
        old.names.Disjoint (Archive.names (share sharder archives.length files index)) ∧
          (Archive.names (share sharder archives.length [e] index)).Disjoint
            (Archive.names (share sharder archives.length files index)) := by
      intro index old hold
      rw [← List.disjoint_append_left, ← Archive.names_append]
      refine hnew index _ ?_
      rw [getElem?_appendAll, hold]
      rfl
    refine ⟨List.forall_mem_cons.2 ⟨(List.getElem?_eq_some_iff.1 hfound).1, hrange⟩, ?_, ?_⟩
    · intro index old hold
      rw [hnames, List.disjoint_append_right]
      refine ⟨?_, (happ index old hold).1⟩
      rw [hfirst]
      split
      · rename_i hindex
        rw [hindex, hfound] at hold
        cases hold
        exact List.disjoint_singleton.2 htaken
      · exact List.disjoint_nil_right _
    · intro index
      rw [hnames, List.nodup_append']
      refine ⟨?_, hdistinct index, ?_⟩
      · rw [hfirst]
        split
        · exact List.nodup_singleton _
        · exact .nil
      · by_cases hindex : index = sharder.assign e.name archives.length
        · exact (happ index a (hindex ▸ hfound)).2
        · rw [hfirst, if_neg hindex]
          exact List.disjoint_nil_left _

/-- `deal` succeeds for files that `Fits`, and then each archive has its `share`. -/
theorem forM_deal_ok_iff (hne : archives ≠ []) :
    files.forM (deal sharder) archives = .ok () after ↔
      Fits sharder archives files ∧
        after = appendAll (share sharder archives.length files) archives := by
  induction files generalizing archives with
  | nil =>
      have hnone : appendAll (share sharder archives.length []) archives = archives :=
        appendAll_nil archives
      rw [hnone]
      constructor
      · rintro ⟨⟩
        exact ⟨fits_nil, rfl⟩
      · rintro ⟨-, rfl⟩
        rfl
  | cons e files ih =>
      have hall : appendAll (share sharder archives.length (e :: files)) archives =
          appendAll (share sharder archives.length files)
            (appendAll (share sharder archives.length [e]) archives) := by
        rw [appendAll_appendAll]
        refine congrArg (appendAll · archives) ?_
        funext index
        exact share_cons _ e files index
      have hnext := ih (appendAll_ne_nil (share sharder archives.length [e]) hne)
      rw [length_appendAll] at hnext
      rw [hall, fits_cons_iff, and_assoc, ← hnext]
      constructor
      · intro h
        obtain ⟨t, hfirst, hrest⟩ := exists_of_forM_cons_ok h
        obtain ⟨a, hfound, hnew, rfl⟩ := (deal_ok_iff hne).1 hfirst
        exact ⟨⟨a, hfound, hnew⟩, hrest⟩
      · rintro ⟨⟨a, hfound, hnew⟩, hrest⟩
        exact (bind_of_ok ((deal_ok_iff hne).2 ⟨a, hfound, hnew, rfl⟩) _).trans hrest

/-! ### The files of an archive -/

/-- The regular files among some entries: those that are neither directories nor links. -/
def regular (entries : List Entry) : List Entry :=
  entries.filter Entry.isFile

/-- Among entries without links, the `regular` ones are all but the directories. -/
theorem regular_of_no_links {entries : List Entry} (h : ∀ e ∈ entries, e.isLink = false) :
    regular entries = entries.filter fun e => !e.isDirectory := by
  refine List.filter_congr fun e he => ?_
  rw [Entry.isFile, h e he, Bool.not_false, Bool.and_true]

/-- To cut the `regular` entries at one of them is to cut the entries there. -/
theorem regular_eq_iff {entries done rest : List Entry} :
    regular entries = done ++ e :: rest ↔
      ∃ before later, entries = before ++ e :: later ∧ e.isFile ∧ regular before = done ∧
        regular later = rest := by
  unfold regular
  constructor
  · intro h
    obtain ⟨front, back, rfl, rfl, hback⟩ := List.filter_eq_append_iff.1 h
    obtain ⟨passed, later, rfl, hpassed, he, rfl⟩ := List.filter_eq_cons_iff.1 hback
    refine ⟨front ++ passed, later, (List.append_assoc _ _ _).symm, he, ?_, rfl⟩
    rw [List.filter_append, List.filter_eq_nil_iff.2 hpassed, List.append_nil]
  · rintro ⟨before, later, rfl, he, rfl, rfl⟩
    rw [List.filter_append, List.filter_cons_of_pos he]

theorem dealAll_eq (hne : archives ≠ []) (entries : List Entry) :
    dealAll sharder entries archives = (regular entries).forM (deal sharder) archives := by
  obtain ⟨a, others, rfl⟩ := List.exists_cons_of_ne_nil hne
  rfl

theorem dealAll_ok_iff (hne : archives ≠ []) {entries : List Entry} :
    dealAll sharder entries archives = .ok () after ↔
      Fits sharder archives (regular entries) ∧
        after = appendAll (share sharder archives.length (regular entries)) archives := by
  rw [dealAll_eq hne]
  exact forM_deal_ok_iff hne

theorem dealAll_error_iff (hne : archives ≠ []) {entries : List Entry} {err : Error} :
    dealAll sharder entries archives = .error err after ↔
      ∃ before e later, entries = before ++ e :: later ∧ e.isFile ∧
        dealAll sharder before archives = .ok () after ∧ Refused sharder after e err := by
  have hreached : ∀ {done : List Entry} {t : List Archive},
      done.forM (deal sharder) archives = .ok () t → t ≠ [] := by
    intro done t hdone
    rw [((forM_deal_ok_iff hne).1 hdone).2]
    exact appendAll_ne_nil _ hne
  rw [dealAll_eq hne, forM_eq_error_iff]
  constructor
  · rintro ⟨done, e, rest, t, hsplit, hdone, he⟩
    obtain ⟨before, later, rfl, hfile, rfl, rfl⟩ := regular_eq_iff.1 hsplit
    obtain ⟨rfl, hrefused⟩ := (deal_error_iff (hreached hdone)).1 he
    exact ⟨before, e, later, rfl, hfile, (dealAll_eq hne before).trans hdone, hrefused⟩
  · rintro ⟨before, e, later, rfl, hfile, hdone, hrefused⟩
    rw [dealAll_eq hne] at hdone
    exact ⟨regular before, e, regular later, after,
      regular_eq_iff.2 ⟨before, later, rfl, hfile, rfl, rfl⟩, hdone,
      (deal_error_iff (hreached hdone)).2 ⟨rfl, hrefused⟩⟩

/-- **Dealing out is a partition.** `dealAll` succeeds exactly if the `regular` entries of an
archive, those that are neither directories nor links, all fit; then each archive has its `share` of
them behind what was there, in order and as they were, and each entry is in exactly one share. Where
the entries before one fit and that one has no shard, `dealAll` stops there with those before it
dealt out. If it fails at all, it does so at such an entry, or at one whose name its archive has
already. -/
theorem dealAll_partitions (sharder : Sharder) (entries : List Entry) {archives : List Archive}
    (hne : archives ≠ []) :
    (∀ after, dealAll sharder entries archives = .ok () after ↔
        Fits sharder archives (regular entries) ∧
          after = appendAll (share sharder archives.length (regular entries)) archives) ∧
      (Fits sharder archives (regular entries) →
        ((List.range archives.length).flatMap
            (share sharder archives.length (regular entries))).Perm
          ((regular entries).map copied) ∧
        ∀ e ∈ regular entries, ∃! index, index < archives.length ∧
          copied e ∈ share sharder archives.length (regular entries) index) ∧
      (∀ before e later, entries = before ++ e :: later → e.isFile →
        Fits sharder archives (regular before) →
        archives.length ≤ sharder.assign e.name archives.length →
          dealAll sharder entries archives =
            .error (.badShard sharder.name e.name archives.length
                (sharder.assign e.name archives.length))
              (appendAll (share sharder archives.length (regular before)) archives)) ∧
      (∀ err after, dealAll sharder entries archives = .error err after ↔
        ∃ before e later, entries = before ++ e :: later ∧ e.isFile ∧
          dealAll sharder before archives = .ok () after ∧ Refused sharder after e err) ∧
      ((∀ e ∈ entries, e.isLink = false) →
        regular entries = entries.filter fun e => !e.isDirectory) := by
  refine ⟨fun after => dealAll_ok_iff hne, ?_, ?_, fun err after => dealAll_error_iff hne,
    regular_of_no_links⟩
  · intro hfits
    refine ⟨perm_flatMap_share hfits.inRange, ?_⟩
    intro e he
    refine ⟨sharder.assign e.name archives.length,
      ⟨hfits.inRange e he, (copied_mem_share_iff he).2 rfl⟩, ?_⟩
    rintro index ⟨-, hmem⟩
    exact (copied_mem_share_iff he).1 hmem
  · intro before e later hsplit hfile hfits hrange
    have hdone := (dealAll_ok_iff hne).2 ⟨hfits, rfl⟩
    exact (dealAll_error_iff hne).2 ⟨before, e, later, hsplit, hfile, hdone,
      refused_of_length (length_appendAll _ _) hrange⟩

/-- The length of a key as its shard, which need not be there. -/
def byLength : Sharder where
  name := "len"
  assign key _ := key.length

/-- A directory, a file and a link. -/
def mixed : List Entry :=
  [{ name := "res/", body := [] }, { name := "a", body := [1] },
    { name := "l", body := [2], isLink := true }]

theorem dealAll_partitions_outOfRange :
    let archives : List Archive := [[], [{ name := "x", body := [3] }]]
    let after : List Archive :=
      [[], [{ name := "x", body := [3] }, { name := "a", body := [1], method := .stored }]]
    archives ≠ [] ∧ Fits byLength archives (regular mixed) ∧
      dealAll byLength mixed archives = .ok () after ∧
      dealAll byLength (mixed ++ [{ name := "bb", body := [4] }, { name := "b", body := [5] }])
        archives = .error (.badShard "len" "bb" 2 2) after := by
  intro archives after
  have hne : archives ≠ [] := List.cons_ne_nil _ _
  have hdone : dealAll byLength mixed archives = .ok () after := rfl
  obtain ⟨hok, -⟩ := dealAll_partitions byLength mixed hne
  obtain ⟨hfits, hafter⟩ := (hok after).1 hdone
  obtain ⟨-, -, hbad, -⟩ := dealAll_partitions byLength
    (mixed ++ [{ name := "bb", body := [4] }, { name := "b", body := [5] }]) hne
  have hstopped := hbad mixed { name := "bb", body := [4] } [{ name := "b", body := [5] }] rfl
    (by decide) hfits (by decide)
  rw [← hafter] at hstopped
  exact ⟨hne, hfits, hdone, hstopped⟩

end ResourceShards.Reshard
