import ResourceShards.Proofs.Files.Path

/-!
# ResourceShards.Proofs.Files.Respelling

**Spellings of a path.** A separator may be doubled, a `.` may follow it, and there may be one at
the end. None of this changes the components of a path, and two paths with the same components
differ in nothing else: either of them can be respelled with a single separator behind each
component.

* `Path.Respelled`: another spelling of a path
* `Path.same_iff_respelled`: paths are the same exactly if one is another spelling of the other
-/

namespace ResourceShards.Path

/-- Other spellings of a path. -/
inductive Respelled : Path → Path → Prop where
  /-- A separator is doubled. -/
  | doubled (a b : Bytes) :
      Respelled ⟨a ++ separator :: b⟩ ⟨a ++ separator :: separator :: b⟩
  /-- There is a `.` behind a separator. -/
  | dotted (a b : Bytes) :
      Respelled ⟨a ++ separator :: b⟩ ⟨a ++ separator :: (dot ++ separator :: b)⟩
  /-- There is a separator at the end. -/
  | ended {a : Bytes} (ha : a ≠ []) : Respelled ⟨a⟩ ⟨a ++ [separator]⟩
  /-- The path is spelled as it was. -/
  | refl (p : Path) : Respelled p p
  /-- The other way round. -/
  | symm {p q : Path} (h : Respelled p q) : Respelled q p
  /-- One change after another. -/
  | trans {p q r : Path} (h : Respelled p q) (h' : Respelled q r) : Respelled p r

/-! ### Spellings of one path -/

/-- A piece for which `ofSegment?` gives nothing may be put behind any separator. -/
theorem same_of_idle {segment : Bytes} (hclean : separator ∉ segment)
    (hidle : Component.ofSegment? segment = none) (a b : Bytes) :
    Same ⟨a ++ separator :: b⟩ ⟨a ++ separator :: (segment ++ separator :: b)⟩ := by
  obtain ⟨first, rest, hpieces⟩ := List.exists_cons_of_ne_nil (List.splitOn_ne_nil separator a)
  have habsolute : (⟨a ++ separator :: (segment ++ separator :: b)⟩ : Path).isAbsolute =
      (⟨a ++ separator :: b⟩ : Path).isAbsolute := by
    cases a <;> rfl
  unfold Same components
  simp only [habsolute, Bytes.splitAll_eq_splitOn, List.splitOn_append_cons_self,
    List.splitOn_append_cons_self_of_not_mem hclean, hpieces, List.cons_append, List.head?_cons,
    List.filterMap_append, List.filterMap_cons, hidle]

/-- A separator may be put at the end of a path that is not empty. -/
theorem same_of_ended {a : Bytes} (ha : a ≠ []) : Same ⟨a⟩ ⟨a ++ [separator]⟩ := by
  obtain ⟨first, rest, hpieces⟩ := List.exists_cons_of_ne_nil (List.splitOn_ne_nil separator a)
  have habsolute : (⟨a ++ [separator]⟩ : Path).isAbsolute = (⟨a⟩ : Path).isAbsolute := by
    obtain ⟨b, rest, rfl⟩ := List.exists_cons_of_ne_nil ha
    rfl
  have hnone : Component.ofSegment? [] = none := rfl
  unfold Same components
  simp only [habsolute, Bytes.splitAll_eq_splitOn, List.splitOn_append_cons_self, hpieces,
    List.cons_append, List.head?_cons, List.filterMap_append, List.filterMap_cons,
    List.splitOn_nil, hnone, List.filterMap_nil, List.append_nil]

/-- A path that is `Respelled` is the `Same`. -/
theorem Respelled.same {p q : Path} (h : p.Respelled q) : p.Same q := by
  induction h with
  | doubled a b => exact same_of_idle List.not_mem_nil rfl a b
  | dotted a b => exact same_of_idle (by decide) rfl a b
  | ended ha => exact same_of_ended ha
  | refl p => rfl
  | symm h ih => exact ih.symm
  | trans h h' ih ih' => exact ih.trans ih'

/-! ### One spelling for all -/

/-- Pieces, each behind a separator. -/
def behind (pieces : List Bytes) : Bytes :=
  pieces.flatMap (separator :: ·)

theorem intercalate_eq_behind (first : Bytes) (rest : List Bytes) :
    List.intercalate [separator] (first :: rest) = first ++ behind rest := by
  induction rest generalizing first with
  | nil => simp [behind]
  | cons next rest ih =>
      rw [List.intercalate_cons_cons, ih]
      simp [behind]

/-- The component of a piece has the `bytes` of the piece. -/
theorem bytes_of_ofSegment? {segment : Bytes} {c : Component}
    (h : Component.ofSegment? segment = some c) : c.bytes = segment := by
  unfold Component.ofSegment? at h
  split at h
  · cases h
  · split at h
    · rename_i hup
      cases h
      exact (beq_iff_eq.1 hup).symm
    · cases h
      rfl

/-- Only the empty piece and a `.` stand for nothing. -/
theorem eq_of_ofSegment?_eq_none {segment : Bytes} (h : Component.ofSegment? segment = none) :
    segment = [] ∨ segment = dot := by
  unfold Component.ofSegment? at h
  split at h
  · rename_i hidle
    simpa using hidle
  · split at h <;> cases h

/-- In front of a separator, all pieces for which `ofSegment?` gives nothing can be left out. -/
theorem respelled_behind (a : Bytes) (pieces : List Bytes) :
    Respelled ⟨a ++ behind pieces ++ [separator]⟩
      ⟨a ++ behind ((pieces.filterMap Component.ofSegment?).map Component.bytes) ++
        [separator]⟩ := by
  induction pieces generalizing a with
  | nil => exact .refl _
  | cons piece rest ih =>
      -- whatever follows, there is a separator behind the piece
      obtain ⟨b, hb⟩ : ∃ b, behind rest ++ [separator] = separator :: b := by
        cases rest with
        | nil => exact ⟨[], rfl⟩
        | cons next rest => exact ⟨_, rfl⟩
      have hall : a ++ behind (piece :: rest) ++ [separator] =
          a ++ separator :: (piece ++ separator :: b) := by
        rw [← hb]
        simp [behind]
      cases hpiece : Component.ofSegment? piece with
      | none =>
          rw [List.filterMap_cons_none hpiece]
          refine .trans ?_ (ih a)
          rw [hall, List.append_assoc a, hb]
          rcases eq_of_ofSegment?_eq_none hpiece with rfl | rfl
          · exact .symm (.doubled a b)
          · exact .symm (.dotted a b)
      | some c =>
          rw [List.filterMap_cons_some hpiece, List.map_cons, bytes_of_ofSegment? hpiece]
          simpa [behind] using ih (a ++ separator :: piece)

/-- Components, each with a separator behind it. -/
def closed : List Component → Bytes
  | [] => []
  | .root :: rest => behind (rest.map Component.bytes) ++ [separator]
  | c :: rest => c.bytes ++ behind (rest.map Component.bytes) ++ [separator]

/-- Every path can be `Respelled` with a separator behind each of its components. -/
theorem respelled_closed (p : Path) : p.Respelled ⟨closed p.components⟩ := by
  obtain ⟨first, rest, hpieces⟩ :=
    List.exists_cons_of_ne_nil (List.splitOn_ne_nil separator p.bytes)
  have hclean : separator ∉ first := by
    have hmem : first ∈ p.bytes.splitOn separator := by
      rw [hpieces]
      exact List.mem_cons_self
    exact Bytes.not_mem_of_mem_splitOn hmem
  have hbytes : p.bytes = first ++ behind rest := by
    rw [← intercalate_eq_behind, ← hpieces, List.intercalate_splitOn]
  by_cases hempty : p.bytes = []
  · obtain ⟨bytes⟩ := p
    obtain rfl : bytes = [] := hempty
    exact .refl _
  have hclosed : closed p.components =
      first ++ behind ((rest.filterMap Component.ofSegment?).map Component.bytes) ++
        [separator] := by
    unfold components
    simp only [Bytes.splitAll_eq_splitOn, hpieces, List.head?_cons]
    by_cases hfirst : first = []
    · subst hfirst
      have habsolute : p.isAbsolute = true := by
        rw [hbytes] at hempty
        rw [isAbsolute, hbytes]
        cases rest with
        | nil => exact absurd rfl hempty
        | cons next rest => rfl
      rw [if_pos habsolute]
      rfl
    · have hrelative : ¬p.isAbsolute = true := by
        obtain ⟨b, more, rfl⟩ := List.exists_cons_of_ne_nil hfirst
        intro habsolute
        rw [isAbsolute, hbytes, beq_iff_eq] at habsolute
        have hb : b = separator := Option.some.inj habsolute
        exact hclean (hb ▸ List.mem_cons_self)
      rw [if_neg hrelative]
      cases hpiece : Component.ofSegment? first with
      | none =>
          obtain rfl := (eq_of_ofSegment?_eq_none hpiece).resolve_left hfirst
          rfl
      | some c =>
          have hdot : ¬(some first == some dot) = true := by
            rintro hdot
            rw [Option.some.inj (beq_iff_eq.1 hdot)] at hpiece
            cases hpiece
          rw [if_neg hdot, List.filterMap_cons_some hpiece]
          have hfirst := bytes_of_ofSegment? hpiece
          cases c with
          | root => exact absurd (hfirst ▸ List.mem_cons_self) hclean
          | here | up | name _ =>
              rw [← hfirst]
              rfl
  rw [hclosed]
  refine .trans (.ended hempty) ?_
  rw [hbytes]
  exact respelled_behind first rest

/-- Two paths are the `Same` exactly if one can be `Respelled` as the other. -/
theorem same_iff_respelled {p q : Path} : p.Same q ↔ p.Respelled q := by
  refine ⟨fun h => ?_, Respelled.same⟩
  refine .trans (respelled_closed p) (.symm ?_)
  rw [show p.components = q.components from h]
  exact respelled_closed q

end ResourceShards.Path
