import Mathlib.Data.List.Forall2
import ResourceShards.Files.Order
import ResourceShards.Proofs.Files.Ascent
import ResourceShards.Proofs.Files.Respelling
import ResourceShards.Table

/-!
# ResourceShards.Proofs.Files.Order

**The position of a path is that of the longest path above it.** The listed paths are kept in a
table, each under its components with the place where it came first. A path is looked up as it is
written, then what is above it, and so on. What is found first is the longest of the listed paths
above the one that was asked for, since there is one ancestor of each length; and only components
count, so the spelling of a path makes no difference, neither in the list nor in the question.

* `Path.Above`: a path, or a directory that it is in
* `DeclarationOrder.NearestAt`: where the longest path above another one is listed first
* `DeclarationOrder.position_nearest`: its place is the position
-/

namespace ResourceShards

namespace Path

/-! ### Paths above others -/

/-- The path itself, or a directory that it is in. Only relative paths are in the empty one. -/
def Above (q p : Path) : Prop :=
  q.components <+: p.components ∧ (q.components = [] → p.isAbsolute = false)

theorem above_iff_mem_ancestors {q p : Path} : q.Above p ↔ q.components ∈ p.ancestors :=
  mem_ancestors_iff.symm

end Path

namespace DeclarationOrder

/-! ### The table of listed paths -/

/-- The place of each path in the list, under its components; the first one stays. -/
def firstPlaces (files : List Path) : Table (List Path.Component) Nat :=
  files.zipIdx.foldl (fun places (file, i) =>
    if places.contains file.components then places else places.insert file.components i) []

theorem index?_eq (files : List Path) (parts : List Path.Component) :
    (ofFiles files).index? parts = files.findIdx? (·.components == parts) := by
  rw [index?, ofFiles, List.findIdx?_map]
  rfl

/-- `firstPlaces` gives the place that `index?` finds. -/
theorem get?_firstPlaces (files : List Path) (parts : List Path.Component) :
    (firstPlaces files).get? parts = (ofFiles files).index? parts := by
  rw [index?_eq]
  suffices hplaces : ∀ (start : Nat) (places : Table (List Path.Component) Nat),
      Table.get? parts ((files.zipIdx start).foldl (fun places (file, i) =>
        if places.contains file.components then places else places.insert file.components i)
          places) =
        (places.get? parts).or
          ((files.findIdx? (·.components == parts)).map (· + start)) by
    have hfrom := hplaces 0 []
    simpa [firstPlaces] using hfrom
  intro start places
  induction files generalizing start places with
  | nil => simp
  | cons file files ih =>
      rw [List.zipIdx_cons, List.foldl_cons, ih, List.findIdx?_cons]
      dsimp only
      have hshift : (fun i => i + start) ∘ (fun i => i + 1) = fun i : Nat => i + (start + 1) := by
        funext i
        exact (Nat.add_right_comm i 1 start).trans (Nat.add_assoc i start 1)
      by_cases hparts : file.components = parts
      · subst hparts
        cases hplace : places.get? file.components with
        | none => simp [Table.contains, hplace, Table.get?_insert]
        | some i => simp [Table.contains, hplace]
      · rw [if_neg (mt beq_iff_eq.1 hparts), Option.map_map, hshift]
        split
        · rfl
        · rw [Table.get?_insert, if_neg hparts]

/-! ### Looking up -/

/-- The longest of the listed paths above `p` is `q`, and it is listed first at `i`. -/
structure NearestAt (files : List Path) (p : Path) (i : Nat) (q : Path) : Prop where
  /-- It is listed at that place. -/
  listed : files[i]? = some q
  /-- It is above the path. -/
  above : q.Above p
  /-- None that is above it has more components. -/
  longest : ∀ r ∈ files, r.Above p → r.components.length ≤ q.components.length
  /-- It is not listed before. -/
  first : ∀ j < i, ∀ r, files[j]? = some r → ¬r.Same q

theorem index?_eq_some {files : List Path} {parts : List Path.Component} {i : Nat}
    (h : (ofFiles files).index? parts = some i) :
    ∃ q, files[i]? = some q ∧ q.components = parts ∧
      ∀ j < i, ∀ r, files[j]? = some r → r.components ≠ parts := by
  rw [index?_eq, List.findIdx?_eq_some_iff_getElem] at h
  obtain ⟨hlength, hfound, hbefore⟩ := h
  refine ⟨files[i], List.getElem?_eq_getElem hlength, beq_iff_eq.1 hfound, ?_⟩
  intro j hj r hr hparts
  obtain ⟨hj', rfl⟩ := List.getElem?_eq_some_iff.1 hr
  exact hbefore j hj (beq_iff_eq.2 hparts)

theorem index?_ne_none {files : List Path} {q : Path} (h : q ∈ files) :
    (ofFiles files).index? q.components ≠ none := by
  rw [index?_eq, Ne, List.findIdx?_eq_none_iff]
  intro hnone
  exact absurd (hnone q h) (by simp)

/-- `position` is that of the path that is `NearestAt`, or 0 if none is `Above`. -/
theorem position_cases (files : List Path) (p : Path) :
    ((∀ q ∈ files, ¬q.Above p) ∧ (ofFiles files).position p = 0) ∨
      ∃ i q, NearestAt files p i q ∧ (ofFiles files).position p = i := by
  unfold position
  cases hfound : p.ancestors.findSome? (ofFiles files).index? with
  | none =>
      refine .inl ⟨fun q hq habove => index?_ne_none hq ?_, rfl⟩
      exact List.findSome?_eq_none_iff.1 hfound _ (Path.above_iff_mem_ancestors.1 habove)
  | some i =>
      obtain ⟨nearer, parts, farther, hsplit, hindex, hnearer⟩ :=
        List.findSome?_eq_some_iff.1 hfound
      obtain ⟨q, hlisted, rfl, hfirst⟩ := index?_eq_some hindex
      have hpairwise := Path.pairwise_ancestors p
      rw [hsplit] at hpairwise
      have hfarther := (List.pairwise_cons.1 (List.pairwise_append.1 hpairwise).2.1).1
      refine .inr ⟨i, q, ⟨hlisted, ?_, fun r hr habove => ?_, hfirst⟩, rfl⟩
      · rw [Path.above_iff_mem_ancestors, hsplit]
        exact List.mem_append_right _ List.mem_cons_self
      · rw [Path.above_iff_mem_ancestors, hsplit] at habove
        rcases List.mem_append.1 habove with hnear | hrest
        · exact absurd (hnearer _ hnear) (index?_ne_none hr)
        · rcases List.mem_cons.1 hrest with hsame | hfar
          · rw [hsame]
          · exact (hfarther _ hfar).le

/-- `position` is what going `upward` finds in `firstPlaces`. -/
theorem position_eq_upward (files : List Path) (p : Path) :
    (ofFiles files).position p =
      (p.upward.findSome? fun q => (firstPlaces files).get? q.components).getD 0 := by
  have hwalk : (fun q : Path => (firstPlaces files).get? q.components) =
      (ofFiles files).index? ∘ Path.components := by
    funext q
    exact get?_firstPlaces files q.components
  rw [hwalk, ← List.findSome?_map, Path.map_components_upward, position]

/-- `position` is blind to spelling: both of the listed files and of the path that is looked for. -/
theorem position_same {files files' : List Path} {p p' : Path}
    (hfiles : List.Forall₂ Path.Same files files') (hp : p.Same p') :
    (ofFiles files').position p' = (ofFiles files).position p := by
  have hdeclared : files.map Path.components = files'.map Path.components := by
    induction hfiles with
    | nil => rfl
    | cons hsame _ ih => exact congrArg₂ List.cons hsame ih
  rw [ofFiles, ofFiles, ← hdeclared]
  exact (position_congr hp).symm

/-- **The position of a path.** `position` is the place of the path that is `NearestAt`, the first
place of the longest listed path above it, or 0 if none is above it. It is what a walk `upward`,
along the path as it is written, finds in the table of `firstPlaces`. Paths that are the `Same` have
the same position, and these are the spellings of one path. -/
theorem position_nearest (files : List Path) (p : Path) :
    (((∀ q ∈ files, ¬q.Above p) ∧ (ofFiles files).position p = 0) ∨
        ∃ i q, NearestAt files p i q ∧ (ofFiles files).position p = i) ∧
      ((ofFiles files).position p =
        (p.upward.findSome? fun q => (firstPlaces files).get? q.components).getD 0) ∧
      (∀ files' p', List.Forall₂ Path.Same files files' → p.Same p' →
        (ofFiles files').position p' = (ofFiles files).position p) ∧
      ∀ a b : Path, a.Same b ↔ a.Respelled b :=
  ⟨position_cases files p, position_eq_upward files p, fun _ _ => position_same,
    fun _ _ => Path.same_iff_respelled⟩

/-- Other spellings of a list and of a path in one of its directories. -/
theorem position_nearest_spellings :
    let files := ["/r/res", "/r/res/values/x.xml", "/q"].map Path.ofString
    let files' := ["/r//res", "/r/res/./values/x.xml", "/q/"].map Path.ofString
    let p := Path.ofString "/q/res/values/z.xml"
    let p' := Path.ofString "//q/res/.//values/z.xml/."
    List.Forall₂ Path.Same files files' ∧ p.Same p' ∧ (ofFiles files).position p = 2 ∧
      (ofFiles files').position p' = 2 := by
  intro files files' p p'
  have hfiles : List.Forall₂ Path.Same files files' := by decide
  have hp : p.Same p' := by decide
  have hposition : (ofFiles files).position p = 2 := by decide
  obtain ⟨-, -, hsame, -⟩ := position_nearest files p
  exact ⟨hfiles, hp, hposition, (hsame files' p' hfiles hp).trans hposition⟩

example :
    let order := ofFiles (["/r/res", "/r/res/values/x.xml", "/q"].map Path.ofString)
    ["/r/res/values/x.xml", "/r/res/layout/y.xml", "/q/res/values/z.xml", "/elsewhere/z.xml"].map
      (fun p => order.position (.ofString p)) = [1, 0, 2, 0] := by decide

end DeclarationOrder

end ResourceShards
