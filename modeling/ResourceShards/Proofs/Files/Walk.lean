import Mathlib.Data.List.Sort
import Mathlib.Order.WellFounded
import ResourceShards.Proofs.Files.DepthFirst

/-!
# ResourceShards.Proofs.Files.Walk

**Every file once, in the order of the roots.** A walk comes to a file from some root, by the names
that lead there. Several visits may be made to one path, from roots that overlap or are given again
in another spelling. The first of them is kept, so each path is listed where the first root that
leads to it does, and the files of one root follow each other depth first.

* `Visit`: a file as a walk comes to it; `Visit.Before`, `Visit.IsFirst`: their order
* `Reaches`: the paths a root leads to
* `Walked`: what it means to list the files beneath some roots; `Walked.unique`
* `walkFiles_lists`: that is what the walk does
-/

namespace ResourceShards

/-! ### Visits -/

/-- A file as a walk comes to it: from which root, and by which names. -/
structure Visit where
  /-- The place of the root among the roots. -/
  index : Nat
  /-- The root. -/
  root : Path
  /-- The names that lead from the root to the file. -/
  names : List Bytes

namespace Visit

variable {α : Type}

/-- The path of the file, as the walk spells it. -/
def path (v : Visit) : Path :=
  v.root.below v.names

/-- Root after root is walked, and each of them depth first. -/
def Before (a b : Visit) : Prop :=
  a.index < b.index ∨ (a.index = b.index ∧ Tree.Precedes a.names b.names)

theorem Before.asymm {a b : Visit} (h : a.Before b) : ¬b.Before a := by
  intro hback
  rcases h with hlt | ⟨heq, hab⟩
  · rcases hback with hlt' | ⟨heq', -⟩ <;> omega
  · rcases hback with hlt' | ⟨-, hba⟩
    · omega
    · exact List.lt_asymm hab.lt hba.lt

instance : Std.Irrefl Before :=
  ⟨fun _ h => h.asymm h⟩

instance : Std.Antisymm Before :=
  ⟨fun _ _ h hback => absurd hback h.asymm⟩

/-- The walk comes to the file. -/
def IsMade (look : Look α) (roots : List Path) (v : Visit) : Prop :=
  roots[v.index]? = some v.root ∧ ∃ tree, look v.root = .ok tree ∧ tree.HasFile v.names

/-- The walk comes to the file, and from no root before to a file of that path. -/
def IsFirst (look : Look α) (roots : List Path) (v : Visit) : Prop :=
  v.IsMade look roots ∧
    ∀ w : Visit, w.IsMade look roots → w.path.Same v.path → v.index ≤ w.index

end Visit

/-- A root leads to a path: it is a file and has that path, or it is a directory and the path is
that of a file beneath it. -/
inductive Reaches {α : Type} (look : Look α) (root p : Path) : Prop where
  /-- The root is a file. -/
  | root {contents : α} (hroot : look root = .ok (.file contents)) (hp : p.Same root)
  /-- The root is a directory. -/
  | beneath {entries : List (Bytes × Tree α)} {names : List Bytes}
      (hroot : look root = .ok (.directory entries))
      (hfile : (Tree.directory entries).HasFile names)
      (hp : p.components = root.components ++ names.map .name)

/-- The files beneath some roots, each once and in order. -/
structure Walked {α : Type} (look : Look α) (roots files : List Path) : Prop where
  /-- No two paths are the same. -/
  apart : files.Pairwise fun p q => ¬p.Same q
  /-- They are the paths that roots lead to. -/
  exact : ∀ p, (∃ q ∈ files, q.Same p) ↔ ∃ root ∈ roots, Reaches look root p
  /-- Each stands where the walk comes to it first, spelled from the root there. -/
  ordered : ∃ visits : List Visit, files = visits.map Visit.path ∧
    visits.Pairwise Visit.Before ∧ ∀ v, v ∈ visits ↔ v.IsFirst look roots

section Roots

variable {α : Type} {look : Look α} {roots : List Path}

/-- Only one list of files can be `Walked`. -/
theorem Walked.unique {files files' : List Path} (h : Walked look roots files)
    (h' : Walked look roots files') : files = files' := by
  obtain ⟨visits, rfl, hordered, hfirst⟩ := h.ordered
  obtain ⟨visits', rfl, hordered', hfirst'⟩ := h'.ordered
  have hsame : ∀ v, v ∈ visits ↔ v ∈ visits' := fun v => (hfirst v).trans (hfirst' v).symm
  rw [hordered.eq_of_mem_iff hordered' hsame]

/-- The walks from all roots, one after the other, are the visits in the order of `Visit.Before`. -/
theorem exists_visits
    (h : ∀ root ∈ roots, ∃ tree, look root = .ok tree ∧ tree.Proper) (start : Nat) :
    ∃ (found : List (List Path)) (visits : List Visit),
      roots.mapM (walkRoot look) = .ok found ∧ found.flatten = visits.map Visit.path ∧
      visits.Pairwise Visit.Before ∧
      ∀ v : Visit, v ∈ visits ↔ (v.root, v.index) ∈ roots.zipIdx start ∧
        ∃ tree, look v.root = .ok tree ∧ tree.HasFile v.names := by
  induction roots generalizing start with
  | nil => exact ⟨[], [], rfl, rfl, .nil, by simp⟩
  | cons root roots ih =>
      obtain ⟨tree, htree, hproper⟩ := h root List.mem_cons_self
      obtain ⟨ways, hways⟩ := hproper.exists_isWalk
      obtain ⟨found, visits, hfound, hspelled, hordered, hexact⟩ :=
        ih (fun other hother => h other (List.mem_cons_of_mem _ hother)) (start + 1)
      have hroot : walkRoot look root = .ok (ways.map root.below) := by
        rw [walkRoot, htree, ← hways.spelled]
      refine ⟨ways.map root.below :: found, ways.map (⟨start, root, ·⟩) ++ visits,
        ?_, ?_, ?_, fun v => ?_⟩
      · rw [List.mapM_cons, hroot, hfound]
        rfl
      · rw [List.flatten_cons, hspelled, List.map_append, List.map_map]
        rfl
      · refine List.pairwise_append.2 ⟨?_, hordered, fun v hv w hw => ?_⟩
        · exact List.pairwise_map.2 (hways.ordered.imp fun hab => .inr ⟨rfl, hab⟩)
        · obtain ⟨names, -, rfl⟩ := List.mem_map.1 hv
          exact .inl (List.le_snd_of_mem_zipIdx ((hexact w).1 hw).1)
      · rw [List.mem_append, hexact, List.zipIdx_cons, List.mem_cons, or_and_right, List.mem_map]
        refine or_congr_left ⟨?_, ?_⟩
        · rintro ⟨names, hnames, rfl⟩
          exact ⟨rfl, tree, htree, (hways.exact names).1 hnames⟩
        · obtain ⟨index, other, names⟩ := v
          rintro ⟨heq, other', hother, hfile⟩
          obtain ⟨rfl, rfl⟩ := Prod.mk.inj heq
          rw [htree] at hother
          cases hother
          exact ⟨names, (hways.exact names).2 hfile, rfl⟩

/-- Of visits in the order of `Visit.Before`, `dropRepeated` keeps the first to each path. -/
theorem exists_kept {visits : List Visit} (h : visits.Pairwise Visit.Before)
    (seen : List (List Path.Component)) :
    ∃ kept : List Visit, dropRepeated seen (visits.map Visit.path) = kept.map Visit.path ∧
      kept.Sublist visits ∧
      ∀ v, v ∈ kept ↔ v ∈ visits ∧ v.path.components ∉ seen ∧
        ∀ w ∈ visits, w.Before v → ¬w.path.Same v.path := by
  induction visits generalizing seen with
  | nil => exact ⟨[], rfl, .slnil, by simp⟩
  | cons first visits ih =>
      obtain ⟨hfirst, hrest⟩ := List.pairwise_cons.1 h
      rw [List.map_cons, dropRepeated]
      by_cases hseen : first.path.components ∈ seen
      · obtain ⟨kept, hkept, hsub, hexact⟩ := ih hrest seen
        refine ⟨kept, ?_, hsub.cons _, fun v => ?_⟩
        · rw [if_pos (by simpa using hseen), hkept]
        · rw [hexact, List.mem_cons, List.forall_mem_cons]
          constructor
          · rintro ⟨hv, hnew, hall⟩
            exact ⟨.inr hv, hnew, fun _ hsame => hnew (hsame ▸ hseen), hall⟩
          · rintro ⟨rfl | hv, hnew, -, hall⟩
            · exact absurd hseen hnew
            · exact ⟨hv, hnew, hall⟩
      · obtain ⟨kept, hkept, hsub, hexact⟩ := ih hrest (first.path.components :: seen)
        refine ⟨first :: kept, ?_, hsub.cons_cons _, fun v => ?_⟩
        · rw [if_neg (by simpa using hseen), hkept, List.map_cons]
        · rw [List.mem_cons, hexact, List.mem_cons, List.forall_mem_cons, List.mem_cons, not_or]
          constructor
          · rintro (rfl | ⟨hv, ⟨hother, hnew⟩, hall⟩)
            · exact ⟨.inl rfl, hseen, fun hbefore => absurd hbefore hbefore.asymm,
                fun w hw hbefore => absurd hbefore (hfirst w hw).asymm⟩
            · exact ⟨.inr hv, hnew, fun _ hsame => hother hsame.symm, hall⟩
          · rintro ⟨rfl | hv, hnew, hother, hall⟩
            · exact .inl rfl
            · exact .inr ⟨hv, ⟨fun hsame => hother (hfirst v hv) hsame.symm, hnew⟩, hall⟩

/-- Of the visits to a path there is one that `IsFirst`. -/
theorem exists_isFirst {v : Visit} (hv : v.IsMade look roots) :
    ∃ w : Visit, w.IsFirst look roots ∧ w.path.Same v.path := by
  obtain ⟨w, ⟨hw, hsame⟩, hleast⟩ := (measure Visit.index).wf.has_min
    {w : Visit | w.IsMade look roots ∧ w.path.Same v.path} ⟨v, hv, rfl⟩
  refine ⟨w, ⟨hw, fun other hother hpath => ?_⟩, hsame⟩
  exact Nat.not_lt.1 fun hlt => hleast other ⟨hother, hpath.trans hsame⟩ hlt

variable (h : ∀ root ∈ roots, ∃ tree, look root = .ok tree ∧ tree.Proper)
include h

/-- The components of a visited path are those of the root, then the names. -/
theorem Visit.IsMade.components_path {v : Visit} (hv : v.IsMade look roots) :
    v.path.components = v.root.components ++ v.names.map .name := by
  obtain ⟨hroot, tree, htree, hfile⟩ := hv
  obtain ⟨tree', htree', hproper⟩ := h v.root (List.mem_of_getElem? hroot)
  obtain rfl : tree = tree' := by
    rw [htree] at htree'
    exact Except.ok.inj htree'
  exact Path.components_below _ (hproper.isName hfile)

/-- From one root no path is visited twice. -/
theorem Visit.IsMade.names_inj {v w : Visit} (hv : v.IsMade look roots)
    (hw : w.IsMade look roots) (hindex : v.index = w.index) (hsame : v.path.Same w.path) :
    v.names = w.names := by
  have hroot : v.root = w.root := by
    have hv' := hv.1
    rw [hindex, hw.1] at hv'
    exact (Option.some.inj hv').symm
  rw [Path.Same, hv.components_path h, hw.components_path h, hroot] at hsame
  exact (List.map_inj_right fun _ _ => Path.Component.name.inj).1 (List.append_cancel_left hsame)

/-- A visit `IsFirst` exactly if none `Before` it leads to its path. -/
theorem Visit.isFirst_iff {v : Visit} : v.IsFirst look roots ↔
    v.IsMade look roots ∧
      ∀ w : Visit, w.IsMade look roots → w.Before v → ¬w.path.Same v.path := by
  refine and_congr_right fun hv => forall_congr' fun w => imp_congr_right fun hw => ?_
  constructor
  · rintro hfirst (hlt | ⟨heq, hprecedes⟩) hsame
    · exact absurd (hfirst hsame) (Nat.not_le.2 hlt)
    · rw [hw.names_inj h hv heq hsame] at hprecedes
      exact List.lt_irrefl _ hprecedes.lt
  · intro hbefore hsame
    by_contra hlt
    exact hbefore (.inl (Nat.not_le.1 hlt)) hsame

/-- A root `Reaches` exactly the paths that are visited. -/
theorem exists_reaches_iff {p : Path} : (∃ root ∈ roots, Reaches look root p) ↔
    ∃ v : Visit, v.IsMade look roots ∧ v.path.Same p := by
  constructor
  · rintro ⟨root, hroot, hreaches⟩
    obtain ⟨index, hindex⟩ := List.getElem?_of_mem hroot
    cases hreaches with
    | root hfile hp => exact ⟨⟨index, root, []⟩, ⟨hindex, _, hfile, .here _⟩, hp.symm⟩
    | @beneath entries names hdirectory hfile hp =>
        have hmade : Visit.IsMade look roots ⟨index, root, names⟩ :=
          ⟨hindex, _, hdirectory, hfile⟩
        exact ⟨_, hmade, (hmade.components_path h).trans hp.symm⟩
  · rintro ⟨v, hmade, hsame⟩
    have hparts := hmade.components_path h
    obtain ⟨hroot, tree, htree, hfile⟩ := hmade
    refine ⟨v.root, List.mem_of_getElem? hroot, ?_⟩
    cases tree with
    | file contents =>
        obtain ⟨index, root, names⟩ := v
        cases hfile
        exact .root htree hsame.symm
    | directory entries => exact .beneath htree hfile (hsame.symm.trans hparts)

/-- **A walk lists each file once.** If every root names something, `walkFiles` lists the files
among them and the files beneath the directories among them, no path twice, each where the first
root that leads to its path does. The files of one root follow each other depth first, entries of a
directory in the order of their names. `Walked` says all this, and only one list is `Walked`. -/
theorem walkFiles_lists : ∃ files, walkFiles look roots = .ok files ∧
    Walked look roots files ∧ ∀ other, Walked look roots other → other = files := by
  obtain ⟨found, visits, hfound, hspelled, hordered, hexact⟩ := exists_visits h 0
  obtain ⟨kept, hkept, hsub, hkeeps⟩ := exists_kept hordered []
  have hmade : ∀ v, v ∈ visits ↔ v.IsMade look roots := by
    intro v
    rw [hexact, List.mem_zipIdx_iff_getElem?]
    rfl
  have hfirst : ∀ v, v ∈ kept ↔ v.IsFirst look roots := by
    intro v
    simp only [hkeeps, Visit.isFirst_iff h, hmade, List.not_mem_nil, not_false_eq_true, true_and]
  have hwalked : Walked look roots (kept.map Visit.path) := by
    refine ⟨?_, fun p => ?_, kept, rfl, hordered.sublist hsub, hfirst⟩
    · refine List.pairwise_map.2 ((hordered.sublist hsub).imp_of_mem fun ha hb hbefore => ?_)
      exact ((hkeeps _).1 hb).2.2 _ (hsub.subset ha) hbefore
    · rw [exists_reaches_iff h]
      constructor
      · rintro ⟨q, hq, hsame⟩
        obtain ⟨v, hv, rfl⟩ := List.mem_map.1 hq
        exact ⟨v, ((hfirst v).1 hv).1, hsame⟩
      · rintro ⟨v, hv, hsame⟩
        obtain ⟨w, hw, hpath⟩ := exists_isFirst hv
        exact ⟨w.path, List.mem_map_of_mem ((hfirst w).2 hw), hpath.trans hsame⟩
  refine ⟨kept.map Visit.path, ?_, hwalked, fun other hother => hother.unique hwalked⟩
  rw [walkFiles, hfound, ← hkept, ← hspelled]
  rfl

end Roots

/-- A file, the directory that it is in under another spelling, and a directory around it. -/
theorem walkFiles_lists_overlapping :
    let dir : List (String × Tree Bytes) → Tree Bytes :=
      fun entries => .directory (entries.map fun e => (Bytes.ofString e.1, e.2))
    let values := dir [("b.xml", .file []), ("a.xml", .file [])]
    let res := dir [("values", values), ("layout", dir [("main.xml", .file [])])]
    let tree := dir [("res", res)]
    let roots := ["res/values/b.xml", "res//values/", "res"].map Path.ofString
    let files := ["res/values/b.xml", "res//values/a.xml", "res/layout/main.xml"].map Path.ofString
    (∀ root ∈ roots, ∃ found, tree.find root = .ok found ∧ found.Proper) ∧
      walkFiles tree.find roots = .ok files ∧ Walked tree.find roots files := by
  intro dir values res tree roots files
  have htree : tree.Proper := by
    have hfile : (Tree.file [] : Tree Bytes).Proper := .file []
    have hvalues : values.Proper := .directory (by decide) (by decide)
      (List.forall_mem_cons.2 ⟨hfile, List.forall_mem_singleton.2 hfile⟩)
    have hlayout : (dir [("main.xml", .file [])]).Proper :=
      .directory (by decide) (by decide) (List.forall_mem_singleton.2 hfile)
    have hres : res.Proper := .directory (by decide) (by decide)
      (List.forall_mem_cons.2 ⟨hvalues, List.forall_mem_singleton.2 hlayout⟩)
    exact .directory (by decide) (by decide) (List.forall_mem_singleton.2 hres)
  have hfile : tree.find (.ofString "res/values/b.xml") = .ok (.file []) := rfl
  have hvalues : tree.find (.ofString "res//values/") = .ok values := rfl
  have hres : tree.find (.ofString "res") = .ok res := rfl
  have hroots : ∀ root ∈ roots, ∃ found, tree.find root = .ok found ∧ found.Proper :=
    List.forall_mem_cons.2 ⟨⟨_, hfile, htree.find hfile⟩, List.forall_mem_cons.2
      ⟨⟨_, hvalues, htree.find hvalues⟩, List.forall_mem_singleton.2
        ⟨_, hres, htree.find hres⟩⟩⟩
  -- in both directories the entries are listed the other way round
  have hexchanged : ∀ {place : Path} {x y : Bytes} {a b : Tree Bytes}, y < x →
      (Tree.directory [(x, a), (y, b)]).filesAt place =
        b.filesAt (place.join y) ++ a.filesAt (place.join x) := by
    intro place x y a b hlt
    rw [Tree.filesAt_directory, Tree.sortedEntries_eq (.swap _ _ _) (List.pairwise_pair.2 hlt)]
    simp
  have hvaluesAt : ∀ place, values.filesAt place =
      [place.join (.ofString "a.xml"), place.join (.ofString "b.xml")] := by
    intro place
    simp only [values, dir, List.map_cons, List.map_nil]
    rw [hexchanged (by decide), Tree.filesAt, Tree.filesAt]
    rfl
  have hresAt : ∀ place, res.filesAt place =
      (place.join (.ofString "layout")).join (.ofString "main.xml") ::
        values.filesAt (place.join (.ofString "values")) := by
    intro place
    simp only [res, dir, List.map_cons, List.map_nil]
    rw [hexchanged (by decide), Tree.filesAt, Tree.entryFilesAt, Tree.entryFilesAt, Tree.filesAt,
      List.mergeSort_singleton]
    rfl
  have hwalk : walkFiles tree.find roots = .ok files := by
    simp only [walkFiles, roots, List.map_cons, List.map_nil, List.mapM_cons, List.mapM_nil,
      walkRoot, hfile, hvalues, hres, Tree.filesAt, hresAt, hvaluesAt]
    decide +kernel
  obtain ⟨files', hwalk', hwalked, -⟩ := walkFiles_lists hroots
  rw [hwalk] at hwalk'
  cases hwalk'
  exact ⟨hroots, hwalk, hwalked⟩

end ResourceShards
