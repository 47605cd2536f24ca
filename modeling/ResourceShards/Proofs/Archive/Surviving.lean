import ResourceShards.Proofs.Archive.Sharding

/-!
# ResourceShards.Proofs.Archive.Surviving

**Which files are written.** Files that are collected under one path replace each other. Of the
files that are left, those with one type and entry name override each other, and the one that comes
last by the order of declarations survives. The order is total on different paths, so there is
always one, and no two survivors of one type have the same entry name.

* `CollectedFile`: a file that deliveries leave under its path
* `ComesLast`: a file that no other one of its type and entry name comes after
* `DeclarationOrder.before_or_before`: the order is total, whatever is declared
* `Session.mem_survivors_iff`: the files that are written are those that come last
-/

namespace ResourceShards

/-! ### What is collected and what comes last -/

/-- A file was delivered, its type has archives, and no such file with its path was delivered
later. -/
def CollectedFile (outputs : Outputs) (ds : List Delivery) (file : ResourceFile) : Prop :=
  ∃ before after, ds = before ++ .file file :: after ∧ outputs.contains file.type = true ∧
    ∀ other, Delivery.file other ∈ after → outputs.contains other.type = true →
      other.path.components ≠ file.path.components

/-- A file of some collection that comes after all others which would have its name in the archives
of its type. -/
structure ComesLast (order : DeclarationOrder) (collected : ResourceFile → Prop)
    (file : ResourceFile) : Prop where
  /-- It is one of them. -/
  mem : collected file
  /-- The others come before it. -/
  last : ∀ other, collected other → other.type = file.type → other.entryName = file.entryName →
    other = file ∨ order.Before other.path file.path

namespace DeclarationOrder

theorem Before.irrefl {order : DeclarationOrder} (p : Path) : ¬order.Before p p := by
  rintro (h | ⟨-, h⟩)
  · exact Nat.lt_irrefl _ h
  · exact Std.lt_irrefl h

theorem Before.trans {order : DeclarationOrder} {p q r : Path} (h : order.Before p q)
    (h' : order.Before q r) : order.Before p r := by
  rcases h with h | ⟨h, hkey⟩ <;> rcases h' with h' | ⟨h', hkey'⟩
  · exact .inl (Nat.lt_trans h h')
  · exact .inl (h' ▸ h)
  · exact .inl (h ▸ h')
  · exact .inr ⟨h.trans h', List.lt_trans hkey hkey'⟩

/-- Of two paths that are not the `Same` one comes `Before` the other, whatever is declared. -/
theorem before_or_before (order : DeclarationOrder) {p q : Path} (h : ¬p.Same q) :
    order.Before p q ∨ order.Before q p := by
  have hkey : p.key ≠ q.key := fun heq => h (Path.key_eq_iff.1 heq)
  rcases Nat.lt_trichotomy (order.position p) (order.position q) with hlt | heq | hlt
  · exact .inl (.inl hlt)
  · rcases List.le_total p.key q.key with hle | hle
    · exact .inl (.inr ⟨heq, Std.lt_of_le_of_ne hle hkey⟩)
    · exact .inr (.inr ⟨heq.symm, Std.lt_of_le_of_ne hle hkey.symm⟩)
  · exact .inr (.inl hlt)

end DeclarationOrder

namespace Session

/-! ### The last of each kind -/

section Lasts

variable {κ α : Type} [BEq κ] [LawfulBEq κ]

/-- The items after which no other one has the same key. -/
abbrev lasts (key : α → κ) (items : List α) : List α :=
  dropOverridden (items.map fun a => (key a, a))

omit [LawfulBEq κ] in
theorem lasts_cons (key : α → κ) (a : α) (items : List α) :
    lasts key (a :: items) =
      if items.any fun b => key b == key a then lasts key items else a :: lasts key items := by
  rw [lasts, List.map_cons, dropOverridden, List.any_map]
  rfl

omit [LawfulBEq κ] in
theorem lasts_sublist (key : α → κ) (items : List α) : (lasts key items).Sublist items := by
  induction items with
  | nil => exact .slnil
  | cons a items ih =>
      rw [lasts_cons]
      split
      · exact ih.cons a
      · exact ih.cons_cons a

theorem mem_lasts {key : α → κ} {items : List α} {a : α} :
    a ∈ lasts key items ↔
      ∃ before after, items = before ++ a :: after ∧ ∀ b ∈ after, key b ≠ key a := by
  induction items with
  | nil => simp [lasts, dropOverridden]
  | cons first items ih =>
      rw [lasts_cons]
      constructor
      · intro h
        split at h
        · obtain ⟨before, after, rfl, hafter⟩ := ih.1 h
          exact ⟨first :: before, after, rfl, hafter⟩
        · rename_i hnew
          rcases List.mem_cons.1 h with rfl | h
          · refine ⟨[], items, rfl, fun b hb heq => hnew ?_⟩
            exact List.any_eq_true.2 ⟨b, hb, beq_iff_eq.2 heq⟩
          · obtain ⟨before, after, rfl, hafter⟩ := ih.1 h
            exact ⟨first :: before, after, rfl, hafter⟩
      · rintro ⟨before, after, hitems, hafter⟩
        cases before with
        | nil =>
            obtain ⟨rfl, rfl⟩ := List.cons.inj hitems
            have hnew : ¬(items.any fun b => key b == key first) = true := by
              intro hany
              obtain ⟨b, hb, heq⟩ := List.any_eq_true.1 hany
              exact hafter b hb (beq_iff_eq.1 heq)
            rw [if_neg hnew]
            exact List.mem_cons_self
        | cons other before =>
            obtain ⟨rfl, hrest⟩ := List.cons.inj hitems
            have hmem := ih.2 ⟨before, after, hrest, hafter⟩
            split
            · exact hmem
            · exact List.mem_cons_of_mem _ hmem

/-- No two items of `lasts` have the same key. -/
theorem lasts_pairwise (key : α → κ) (items : List α) :
    (lasts key items).Pairwise fun a b => key a ≠ key b := by
  induction items with
  | nil => exact .nil
  | cons a items ih =>
      rw [lasts_cons]
      split
      · exact ih
      · rename_i hnew
        refine List.pairwise_cons.2 ⟨fun b hb heq => hnew ?_, ih⟩
        exact List.any_eq_true.2 ⟨b, (lasts_sublist key items).subset hb, beq_iff_eq.2 heq.symm⟩

/-- `lasts` keeps an item of every key. -/
theorem exists_mem_lasts (key : α → κ) {items : List α} {a : α} (h : a ∈ items) :
    ∃ b ∈ lasts key items, key b = key a := by
  induction items generalizing a with
  | nil => exact absurd h List.not_mem_nil
  | cons first items ih =>
      rw [lasts_cons]
      split
      · rename_i hagain
        rcases List.mem_cons.1 h with rfl | h
        · obtain ⟨b, hb, heq⟩ := List.any_eq_true.1 hagain
          obtain ⟨c, hc, hkey⟩ := ih hb
          exact ⟨c, hc, hkey.trans (beq_iff_eq.1 heq)⟩
        · exact ih h
      · rcases List.mem_cons.1 h with rfl | h
        · exact ⟨a, List.mem_cons_self, rfl⟩
        · obtain ⟨b, hb, hkey⟩ := ih h
          exact ⟨b, List.mem_cons_of_mem _ hb, hkey⟩

end Lasts

/-! ### Survivors -/

/-- The collected files in the order of declarations. -/
def sortedFiles (s : Session) : List ResourceFile :=
  Place.sort (fun file => s.place file.path file.type) (s.files.map Prod.snd)

/-- The `survivors` are the `lasts` by type and entry name. -/
theorem survivors_eq (s : Session) :
    s.survivors = lasts (fun file => (file.type, file.entryName)) s.sortedFiles := rfl

theorem survivors_sublist (s : Session) : s.survivors.Sublist s.sortedFiles :=
  lasts_sublist _ _

theorem survivors_apart (s : Session) :
    s.survivors.Pairwise fun a b => (a.type, a.entryName) ≠ (b.type, b.entryName) :=
  lasts_pairwise _ _

theorem mem_sortedFiles {s : Session} {file : ResourceFile} :
    file ∈ s.sortedFiles ↔ file ∈ s.files.map Prod.snd :=
  (Place.sort_perm _ _).mem_iff

/-- A `Keyed` session has one file of a path. -/
theorem Keyed.eq_of_same {s : Session} (h : s.Keyed) {a b : ResourceFile}
    (ha : a ∈ s.files.map Prod.snd) (hb : b ∈ s.files.map Prod.snd) (hsame : a.path.Same b.path) :
    a = b := by
  obtain ⟨⟨partsA, a⟩, hinA, rfl⟩ := List.mem_map.1 ha
  obtain ⟨⟨partsB, b⟩, hinB, rfl⟩ := List.mem_map.1 hb
  obtain rfl : partsA = partsB :=
    (h.ownFile _ hinA).symm.trans (hsame.trans (h.ownFile _ hinB))
  have hgetA := (Table.get?_eq_some_iff h.files).2 hinA
  have hgetB := (Table.get?_eq_some_iff h.files).2 hinB
  exact Option.some.inj (hgetA.symm.trans hgetB)

/-- The `sortedFiles` of a `Keyed` session are in the order of declarations. -/
theorem Keyed.sortedFiles_ordered {s : Session} (h : s.Keyed) :
    s.sortedFiles.Pairwise fun a b => s.order.Before a.path b.path := by
  have hle := Place.sort_pairwise (fun file => s.place file.path file.type) (s.files.map Prod.snd)
  have hdistinct : s.sortedFiles.Pairwise (· ≠ ·) := by
    refine (Place.sort_perm _ _).nodup_iff.2 (List.pairwise_map.2 ?_)
    refine (List.pairwise_map.1 h.files).imp_of_mem fun {a b} ha hb hne hfile => hne ?_
    rw [← h.ownFile a ha, ← h.ownFile b hb, hfile]
  refine (hle.and hdistinct).imp_of_mem fun {a b} ha hb hab => ?_
  have hkeys : a.path.key ≠ b.path.key := fun hkey =>
    hab.2 (h.eq_of_same (mem_sortedFiles.1 ha) (mem_sortedFiles.1 hb) (Path.key_eq_iff.1 hkey))
  rcases Place.le_iff.1 hab.1 with hlt | ⟨heq, ⟨-, hpath⟩ | ⟨hpath, -⟩⟩
  · exact .inl hlt
  · exact .inr ⟨heq, Std.lt_of_le_of_ne hpath hkeys⟩
  · exact absurd hpath hkeys

/-- The `survivors` are the files that `ComesLast` holds of. -/
theorem Keyed.mem_survivors_iff {s : Session} (h : s.Keyed) {file : ResourceFile} :
    file ∈ s.survivors ↔ ComesLast s.order (· ∈ s.files.map Prod.snd) file := by
  rw [survivors_eq, mem_lasts]
  have hordered := h.sortedFiles_ordered
  constructor
  · rintro ⟨before, after, hsorted, hafter⟩
    rw [hsorted, List.pairwise_append] at hordered
    refine ⟨mem_sortedFiles.1 (hsorted ▸ by simp), fun other hother htype hentry => ?_⟩
    rw [← mem_sortedFiles, hsorted, List.mem_append] at hother
    rcases hother with hbefore | hother
    · exact .inr (hordered.2.2 other hbefore file List.mem_cons_self)
    · rcases List.mem_cons.1 hother with rfl | hother
      · exact .inl rfl
      · exact absurd (Prod.ext htype hentry) (hafter other hother)
  · intro hlast
    obtain ⟨before, after, hsorted⟩ := List.append_of_mem (mem_sortedFiles.2 hlast.mem)
    refine ⟨before, after, hsorted, fun other hother heq => ?_⟩
    rw [hsorted, List.pairwise_append, List.pairwise_cons] at hordered
    have hbefore := hordered.2.1.1 other hother
    -- what stands behind the file would have to be the file, or to come before it
    obtain ⟨htype, hentry⟩ := Prod.mk.inj heq
    have hmem : other ∈ s.sortedFiles := hsorted ▸ by simp [hother]
    rcases hlast.last other (mem_sortedFiles.1 hmem) htype hentry with rfl | hafter
    · exact DeclarationOrder.Before.irrefl _ hbefore
    · exact DeclarationOrder.Before.irrefl _ (hbefore.trans hafter)

/-! ### Deliveries, whether they are refused or not -/

/-- Collects deliveries, and goes on where one is refused. -/
def collectEach (s : Session) : List Delivery → Session
  | [] => s
  | d :: rest =>
    match s.collect d with
    | .ok next => next.collectEach rest
    | .error _ => s.collectEach rest

/-- The deliveries that are not refused. -/
def accepted (s : Session) : List Delivery → List Delivery
  | [] => []
  | d :: rest =>
    match s.collect d with
    | .ok next => d :: next.accepted rest
    | .error _ => s.accepted rest

/-- `collectAll` of the `accepted` deliveries comes to what `collectEach` of all does: those that
are refused leave no trace. -/
theorem collectAll_accepted (s : Session) (ds : List Delivery) :
    s.collectAll (s.accepted ds) = .ok (s.collectEach ds) := by
  induction ds generalizing s with
  | nil => rfl
  | cons d ds ih =>
      rw [accepted, collectEach]
      cases hd : s.collect d with
      | error e => exact ih s
      | ok next =>
          rw [collectAll, hd]
          exact ih next

/-- A `CollectedFile` after one more delivery. -/
theorem collectedFile_append {outputs : Outputs} {seen : List Delivery} {d : Delivery}
    {file : ResourceFile} :
    CollectedFile outputs (seen ++ [d]) file ↔
      (d = .file file ∧ outputs.contains file.type = true) ∨
        (CollectedFile outputs seen file ∧ ∀ other, d = .file other →
          outputs.contains other.type = true →
            other.path.components ≠ file.path.components) := by
  constructor
  · rintro ⟨before, after, hsplit, htype, hafter⟩
    rcases List.eq_nil_or_concat after with rfl | ⟨rest, last, rfl⟩
    · obtain ⟨-, hlast⟩ := List.append_inj' hsplit rfl
      exact .inl ⟨(List.cons.inj hlast).1, htype⟩
    · have hsplit' : seen ++ [d] = (before ++ .file file :: rest) ++ [last] := by simp [hsplit]
      obtain ⟨rfl, hlast⟩ := List.append_inj' hsplit' rfl
      obtain rfl := (List.cons.inj hlast).1
      refine .inr ⟨⟨before, rest, rfl, htype, fun other hother => ?_⟩, fun other hother => ?_⟩
      · exact hafter other (by simp [hother])
      · exact hafter other (by simp [hother])
  · rintro (⟨rfl, htype⟩ | ⟨⟨before, after, rfl, htype, hafter⟩, hlast⟩)
    · exact ⟨seen, [], rfl, htype, fun other hother => absurd hother List.not_mem_nil⟩
    · refine ⟨before, after ++ [d], by simp, htype, fun other hother hcontains => ?_⟩
      rcases List.mem_append.1 hother with hother | hother
      · exact hafter other hother hcontains
      · exact hlast other (List.mem_singleton.1 hother).symm hcontains

/-- A session has the files that were collected. -/
def HasFiles (seen : List Delivery) (s : Session) : Prop :=
  ∀ file, file ∈ s.files.map Prod.snd ↔ CollectedFile s.outputs seen file

/-- A session that begins has no files. -/
theorem hasFiles_new (outputs : Outputs) (sharder : Sharder) (order : DeclarationOrder) :
    HasFiles [] { outputs, sharder, order } := by
  intro file
  constructor
  · exact fun h => absurd h List.not_mem_nil
  · rintro ⟨before, after, h, -⟩
    exact absurd h (by simp)

theorem Keyed.mem_files_insert {s : Session} (h : s.Keyed) {delivered file : ResourceFile} :
    file ∈ (s.files.insert delivered.path.components delivered).map Prod.snd ↔
      file = delivered ∨
        file ∈ s.files.map Prod.snd ∧ delivered.path.components ≠ file.path.components := by
  constructor
  · intro hfile
    obtain ⟨⟨parts, found⟩, hentry, rfl⟩ := List.mem_map.1 hfile
    rcases (Table.mem_insert_iff h.files).1 hentry with hnew | ⟨hold, hne⟩
    · exact .inl (Prod.mk.inj hnew).2
    · refine .inr ⟨List.mem_map_of_mem hold, ?_⟩
      rw [h.ownFile _ hold]
      exact hne
  · rintro (rfl | ⟨hold, hne⟩)
    · exact List.mem_map.2 ⟨_, (Table.mem_insert_iff h.files).2 (.inl rfl), rfl⟩
    · obtain ⟨entry, hentry, rfl⟩ := List.mem_map.1 hold
      rw [h.ownFile _ hentry] at hne
      exact List.mem_map_of_mem ((Table.mem_insert_iff h.files).2 (.inr ⟨hentry, hne⟩))

/-- A session that `HasFiles` of some deliveries has those of one more after it. -/
theorem HasFiles.collect {seen : List Delivery} {s next : Session} (h : s.HasFiles seen)
    (hkeys : s.Keyed) {d : Delivery} (hd : s.collect d = .ok next) :
    next.HasFiles (seen ++ [d]) := by
  intro file
  rw [collectedFile_append, (sameArchives_of_collect hd).outputs, ← h file]
  cases d with
  | collected source item =>
      have hfiles : next.files = s.files := by
        cases item with
        | rootAttribute attr =>
            obtain rfl := Except.ok.inj hd
            rfl
        | value name payload =>
            rcases collectValue_ok hd with ⟨-, rfl⟩ | ⟨-, kept, -, rfl⟩
            · rfl
            · rfl
      rw [hfiles]
      simp
  | file delivered =>
      obtain rfl := Except.ok.inj hd
      unfold collectFile
      split
      · rename_i haccepts
        rw [hkeys.mem_files_insert]
        constructor
        · rintro (rfl | ⟨hold, hpath⟩)
          · exact .inl ⟨rfl, haccepts⟩
          · exact .inr ⟨hold, fun other hother _ => Delivery.file.inj hother ▸ hpath⟩
        · rintro (⟨hfile, -⟩ | ⟨hold, hpath⟩)
          · exact .inl (Delivery.file.inj hfile).symm
          · exact .inr ⟨hold, hpath delivered rfl haccepts⟩
      · rename_i haccepts
        constructor
        · intro hold
          refine .inr ⟨hold, fun other hother hcontains => ?_⟩
          exact absurd (Delivery.file.inj hother ▸ hcontains) haccepts
        · rintro (⟨hfile, hcontains⟩ | ⟨hold, -⟩)
          · exact absurd (Delivery.file.inj hfile ▸ hcontains) haccepts
          · exact hold

/-- A delivery that is refused is no file. -/
theorem HasFiles.refused {seen : List Delivery} {s : Session} (h : s.HasFiles seen)
    {d : Delivery} {e : Error} (hd : s.collect d = .error e) : s.HasFiles (seen ++ [d]) := by
  intro file
  rw [collectedFile_append, ← h file]
  cases d with
  | file delivered => cases hd
  | collected source item => simp

theorem HasFiles.collectEach {seen : List Delivery} {s : Session} (h : s.HasFiles seen)
    (hkeys : s.Keyed) (ds : List Delivery) : (s.collectEach ds).HasFiles (seen ++ ds) := by
  induction ds generalizing s seen with
  | nil => rwa [List.append_nil]
  | cons d ds ih =>
      rw [Session.collectEach, List.append_cons]
      split
      · rename_i next hd
        exact ih (h.collect hkeys hd) (hkeys.collect hd)
      · rename_i e hd
        exact ih (h.refused hd) hkeys

end Session

end ResourceShards
