import ResourceShards.Proofs.Files.Path

/-!
# ResourceShards.Proofs.Files.Ascent

**The way up.** Going up works on what a path is written with: it leaves out the last piece that
stands for something and everything behind it. On components it takes off the last one. So what is
above a path does not depend on its spelling, and only the root and the empty path have nothing
above them.

* `Path.components_of_parent?`: one step up, by components
* `Path.exists_parent?`: where it leads
* `Path.upward`: the path and all that is above it, as it is written
* `Path.map_components_upward`: its ancestors
-/

namespace ResourceShards.Path

/-- The last piece that is kept stands for something, unless it is a `.` in front of all else. -/
theorem ofSegment?_of_dropIdle {absolute : Bool} {pieces before : List Bytes} {segment : Bytes}
    (h : dropIdle absolute pieces = segment :: before) :
    (∃ c, c ≠ .root ∧ Component.ofSegment? segment = some c) ∨
      (segment = dot ∧ absolute = false ∧ before = []) := by
  induction pieces with
  | nil => cases h
  | cons piece pieces ih =>
      rw [dropIdle] at h
      split at h
      · exact ih h
      · rename_i hkept
        obtain ⟨rfl, rfl⟩ := List.cons.inj h
        by_cases hidle : (piece == [] || piece == dot) = true
        · refine .inr ?_
          simp only [Bool.or_eq_true, Bool.and_eq_true, beq_iff_eq, bne_iff_ne, not_or,
            not_and] at hidle hkept
          have hdot : piece = dot := hidle.resolve_left hkept.1
          have hnone := hkept.2 hdot
          exact ⟨hdot, by simpa using hnone.1, by simpa using hnone.2⟩
        · refine .inl ?_
          by_cases hup : (piece == dotDot) = true
          · refine ⟨.up, Component.noConfusion, ?_⟩
            rw [Component.ofSegment?, if_neg hidle, if_pos hup]
          · refine ⟨.name piece, Component.noConfusion, ?_⟩
            rw [Component.ofSegment?, if_neg hidle, if_neg hup]

/-- Only a `.` at the end could be the front of a path. -/
theorem frontComponent_append {absolute : Bool} {segment : Bytes} (h : segment ≠ dot)
    (pieces : List Bytes) :
    frontComponent absolute (pieces ++ [segment]) = frontComponent absolute pieces := by
  cases pieces <;> simp [frontComponent, h]

/-- `parent?` takes off the last component. The root and the empty path are as far up as it goes. -/
theorem components_of_parent? (p : Path) :
    match p.parent? with
    | none => p.components = [] ∨ p.components = [.root]
    | some q => ∃ c, c ≠ .root ∧ p.components = q.components ++ [c] := by
  have hclean : ∀ piece ∈ (p.body.splitOn separator).reverse, separator ∉ piece := by
    intro piece hpiece
    exact Bytes.not_mem_of_mem_splitOn (List.mem_reverse.1 hpiece)
  have hall := components_trimmed p
  obtain ⟨idle, hsplit, -⟩ := dropIdle_split p.isAbsolute (p.body.splitOn separator).reverse
  rw [parent?_eq]
  rw [trimmed] at hall
  cases hkept : dropIdle p.isAbsolute (p.body.splitOn separator).reverse with
  | nil =>
      rw [hkept] at hall
      show p.components = [] ∨ p.components = [.root]
      rw [← hall, rootText]
      split
      · exact .inr rfl
      · exact .inl rfl
  | cons segment before =>
      have hpieces : ∀ piece ∈ segment :: before, separator ∉ piece := by
        intro piece hpiece
        refine hclean piece ?_
        rw [hsplit, hkept]
        exact List.mem_append_right _ hpiece
      have hfirst : p.isAbsolute = false → (segment :: before).getLast? ≠ some [] := by
        intro hrelative hlast
        have hempty := reverse_splitOn_body hrelative (by
          rw [hsplit, hkept, List.getLast?_append, hlast]
          rfl)
        rw [hempty] at hkept
        simp [dropIdle] at hkept
      have hparts : p.components = frontComponent p.isAbsolute (before.reverse ++ [segment]) ++
          (before.reverse ++ [segment]).filterMap Component.ofSegment? := by
        rw [← hall, hkept, ← List.reverse_cons]
        refine components_ofPieces (fun piece h => hpieces piece (List.mem_reverse.1 h)) ?_
        rw [List.head?_reverse]
        exact hfirst
      have habove : (ofPieces p.isAbsolute (dropIdle p.isAbsolute before).reverse).components =
          frontComponent p.isAbsolute before.reverse ++
            before.reverse.filterMap Component.ofSegment? := by
        refine components_ofPieces_dropIdle
          (fun piece h => hpieces piece (List.mem_cons_of_mem _ h)) fun hrelative hlast => ?_
        refine absurd ?_ (hfirst hrelative)
        rw [List.getLast?_cons, hlast]
        rfl
      show ∃ c, c ≠ .root ∧ p.components =
        (ofPieces p.isAbsolute (dropIdle p.isAbsolute before).reverse).components ++ [c]
      rw [hparts, habove]
      rcases ofSegment?_of_dropIdle hkept with ⟨c, hroot, hc⟩ | ⟨rfl, hrelative, rfl⟩
      · have hdot : segment ≠ dot := by
          rintro rfl
          cases hc
        refine ⟨c, hroot, ?_⟩
        rw [frontComponent_append hdot, List.filterMap_append, List.append_assoc]
        simp [hc]
      · rw [hrelative]
        exact ⟨.here, Component.noConfusion, rfl⟩

/-- A path whose last component is not the root has a `parent?`, with all other components. -/
theorem exists_parent? {p : Path} {above : List Component} {c : Component}
    (h : p.components = above ++ [c]) (hc : c ≠ .root) :
    ∃ q, p.parent? = some q ∧ q.components = above := by
  have hparent := components_of_parent? p
  cases hq : p.parent? with
  | none =>
      rw [hq] at hparent
      rcases hparent with hnil | hroot
      · rw [h] at hnil
        exact absurd hnil (List.append_ne_nil_of_right_ne_nil _ (List.cons_ne_nil _ _))
      · rw [h] at hroot
        have hlast : above ++ [c] = [] ++ [.root] := hroot
        exact absurd (List.singleton_inj.1 (List.append_inj' hlast rfl).2) hc
  | some q =>
      rw [hq] at hparent
      obtain ⟨d, -, hd⟩ := hparent
      rw [h] at hd
      exact ⟨q, rfl, (List.append_inj' hd rfl).1.symm⟩

/-- Paths that are the `Same` have parents that are. -/
theorem Same.exists_parent? {p q up : Path} (h : p.Same q) (hup : p.parent? = some up) :
    ∃ up', q.parent? = some up' ∧ up.Same up' := by
  have hparent := components_of_parent? p
  rw [hup] at hparent
  obtain ⟨c, hc, hparts⟩ := hparent
  obtain ⟨up', hup', habove⟩ := Path.exists_parent? (h.symm.trans hparts) hc
  exact ⟨up', hup', habove.symm⟩

theorem Same.fileName?_eq {p q : Path} (h : p.Same q) : p.fileName? = q.fileName? := by
  have hparts : p.components = q.components := h
  rw [fileName?, fileName?, hparts]

/-! ### All the way up -/

/-- The path and the paths above it, nearest first, each as going up writes it. -/
def upward (p : Path) : List Path :=
  p :: match _h : p.parent? with
    | none => []
    | some q => upward q
termination_by p.components.length
decreasing_by
  have hparent := components_of_parent? p
  rw [_h] at hparent
  obtain ⟨c, -, hc⟩ := hparent
  rw [hc, List.length_append, List.length_singleton]
  exact Nat.lt_succ_self _

/-- The `ancestors` of a path are its components and the `ancestors` of its `parent?`. -/
theorem ancestors_eq (p : Path) :
    p.ancestors = p.components :: match p.parent? with
      | none => []
      | some q => q.ancestors := by
  have hparent := components_of_parent? p
  cases hq : p.parent? with
  | none =>
      rw [hq] at hparent
      unfold ancestors
      rcases hparent with hnil | hroot
      · rw [hnil]
        rfl
      · rw [hroot]
        rfl
  | some q =>
      rw [hq] at hparent
      obtain ⟨c, hc, hparts⟩ := hparent
      -- the component that is taken off is not the root, so both go up equally far
      have hleast : (p.components.head? == some .root) = (q.components.head? == some .root) := by
        rw [hparts]
        cases q.components with
        | nil => simpa using hc
        | cons d rest => rfl
      have hle : (if q.components.head? == some .root then 1 else 0) ≤ q.components.length := by
        cases q.components <;> simp
        split <;> omega
      have hlength : p.components.length + 1 -
          (if q.components.head? == some .root then 1 else 0) = q.components.length + 1 -
            (if q.components.head? == some .root then 1 else 0) + 1 := by
        rw [hparts, List.length_append, List.length_singleton]
        omega
      unfold ancestors
      simp only [hleast]
      rw [hlength, List.range_succ_eq_map, List.map_cons, List.map_map]
      refine congrArg₂ List.cons (List.take_length) (List.map_congr_left fun dropped _ => ?_)
      show p.components.take (p.components.length - (dropped + 1)) =
        q.components.take (q.components.length - dropped)
      rw [hparts, List.length_append, List.length_singleton, Nat.add_sub_add_right,
        List.take_append_of_le_length (Nat.sub_le _ _)]

theorem map_components_upward (p : Path) : p.upward.map components = p.ancestors := by
  fun_induction upward p with
  | case1 p ih =>
      rw [ancestors_eq, List.map_cons]
      refine congrArg (p.components :: ·) ?_
      cases hq : p.parent? with
      | none => rfl
      | some q => exact ih q hq

theorem head?_components_iff (p : Path) :
    p.components.head? = some .root ↔ p.isAbsolute = true := by
  rw [components_eq]
  cases p.isAbsolute with
  | true => exact iff_of_true rfl rfl
  | false =>
      refine iff_of_false (fun hhead => ?_) Bool.false_ne_true
      rcases List.mem_append.1 (List.mem_of_head? hhead) with hfront | hpiece
      · rw [frontComponent, if_neg Bool.false_ne_true] at hfront
        split at hfront
        · cases List.mem_singleton.1 hfront
        · cases hfront
      · obtain ⟨segment, -, hsegment⟩ := List.mem_filterMap.1 hpiece
        unfold Component.ofSegment? at hsegment
        split at hsegment
        · cases hsegment
        · split at hsegment <;> cases hsegment

/-- The `ancestors` of a path are the prefixes of its components, the empty one for a relative path
only. -/
theorem mem_ancestors_iff {p : Path} {parts : List Component} :
    parts ∈ p.ancestors ↔ parts <+: p.components ∧ (parts = [] → p.isAbsolute = false) := by
  unfold ancestors
  simp only [List.mem_map, List.mem_range]
  constructor
  · rintro ⟨dropped, hdropped, rfl⟩
    refine ⟨List.take_prefix _ _, fun hnil => ?_⟩
    rw [List.take_eq_nil_iff] at hnil
    by_contra habsolute
    have hroot := (head?_components_iff p).2 (Bool.eq_true_of_not_eq_false habsolute)
    rw [hroot] at hdropped
    rcases hnil with hzero | hempty
    · simp only [beq_self_eq_true, if_true] at hdropped
      omega
    · rw [hempty] at hroot
      cases hroot
  · rintro ⟨hbegins, hempty⟩
    refine ⟨p.components.length - parts.length, ?_, ?_⟩
    · have hle := hbegins.length_le
      split
      · rename_i hroot
        have habsolute := (head?_components_iff p).1 (beq_iff_eq.1 hroot)
        have hpos : 0 < parts.length := by
          refine List.length_pos_of_ne_nil fun hnil => ?_
          rw [hempty hnil] at habsolute
          cases habsolute
        omega
      · omega
    · rw [Nat.sub_sub_self hbegins.length_le]
      exact (List.prefix_iff_eq_take.1 hbegins).symm

/-- Each of the `ancestors` is shorter than those before it. -/
theorem pairwise_ancestors (p : Path) :
    p.ancestors.Pairwise fun a b => b.length < a.length := by
  unfold ancestors
  refine List.pairwise_map.2 (List.pairwise_lt_range.imp_of_mem fun ha hb hlt => ?_)
  have hb' := List.mem_range.1 hb
  rw [List.length_take, List.length_take]
  omega

end ResourceShards.Path
