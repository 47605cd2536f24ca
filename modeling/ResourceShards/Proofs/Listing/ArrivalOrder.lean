import ResourceShards.Listing.Set
import ResourceShards.Proofs.Interleaving

/-!
# ResourceShards.Proofs.Listing.ArrivalOrder

**What a set keeps of the order of arrival.** A set is sorted by full names, and resources of one
name stay in the order in which they came. Two listings of the same resources therefore give the
same set exactly if, for every name, they hold the resources of that name in the same order. Files
that are listed by several workers arrive in any order, so their set is determined exactly if no two
files declare one name differently, which happens with styleables: each file lists its attributes.

* `ResourceSet.ofResources_eq_iff`: when two listings give one set
* `ResourceSet.ofResources_interleaving_iff`: when the order of arrival leaves no trace
-/

namespace ResourceShards.ResourceSet

/-! ### Sorting by names -/

theorem nameLe_trans (a b c : Resource) (hab : nameLe a b = true) (hbc : nameLe b c = true) :
    nameLe a c = true :=
  decide_eq_true (String.le_trans (of_decide_eq_true hab) (of_decide_eq_true hbc))

theorem nameLe_total (a b : Resource) : (nameLe a b || nameLe b a) = true := by
  simpa [nameLe] using String.le_total a.name.text b.name.text

/-- The resources of one name, by their full form. -/
def named (text : String) (resources : List Resource) : List Resource :=
  resources.filter fun r => r.name.text == text

/-- `mergeSort` leaves the resources `named` alike in their order. -/
theorem named_mergeSort (text : String) (resources : List Resource) :
    named text (resources.mergeSort nameLe) = named text resources := by
  have hsame : (named text resources).Pairwise fun a b => nameLe a b = true := by
    refine List.pairwise_of_forall_mem_list fun a ha b hb => ?_
    have htext := (List.mem_filter.1 ha).2
    have htext' := (List.mem_filter.1 hb).2
    rw [beq_iff_eq] at htext htext'
    simp [nameLe, htext, htext']
  have hsub := (List.sublist_mergeSort nameLe_trans nameLe_total hsame
    List.filter_sublist).filter fun r => r.name.text == text
  have hperm := (List.mergeSort_perm resources nameLe).filter fun r => r.name.text == text
  have hself : (named text resources).filter (fun r => r.name.text == text) =
      named text resources := by
    simp [named]
  rw [hself] at hsub
  exact (hsub.eq_of_length hperm.length_eq.symm).symm

theorem mem_named {text : String} {resources : List Resource} {r : Resource} :
    r ∈ named text resources ↔ r ∈ resources ∧ r.name.text = text := by
  simp [named]

theorem named_cons_self (r : Resource) (resources : List Resource) :
    named r.name.text (r :: resources) = r :: named r.name.text resources := by
  simp [named]

/-- Two sorted listings with the same resources of every name begin with resources of one name. -/
theorem text_eq_of_named {x y : Resource} {a b : List Resource}
    (ha : (x :: a).Pairwise fun r s => nameLe r s = true)
    (hb : (y :: b).Pairwise fun r s => nameLe r s = true)
    (h : ∀ text, named text (x :: a) = named text (y :: b)) : x.name.text = y.name.text := by
  have hx : x ∈ y :: b := by
    have hmem : x ∈ named x.name.text (y :: b) := by
      rw [← h, named_cons_self]
      exact List.mem_cons_self
    exact (mem_named.1 hmem).1
  have hy : y ∈ x :: a := by
    have hmem : y ∈ named y.name.text (x :: a) := by
      rw [h, named_cons_self]
      exact List.mem_cons_self
    exact (mem_named.1 hmem).1
  rcases List.mem_cons.1 hx with rfl | hx
  · rfl
  · rcases List.mem_cons.1 hy with rfl | hy
    · rfl
    · exact String.le_antisymm (of_decide_eq_true (List.rel_of_pairwise_cons ha hy))
        (of_decide_eq_true (List.rel_of_pairwise_cons hb hx))

/-- Sorted listings with the same resources `named` by each text are equal. -/
theorem eq_of_named {a b : List Resource} (ha : a.Pairwise fun r s => nameLe r s = true)
    (hb : b.Pairwise fun r s => nameLe r s = true) (h : ∀ text, named text a = named text b) :
    a = b := by
  induction a generalizing b with
  | nil =>
      cases b with
      | nil => rfl
      | cons y b =>
          have hy := h y.name.text
          rw [named_cons_self] at hy
          exact absurd hy (List.cons_ne_nil y _).symm
  | cons x a ih =>
      cases b with
      | nil =>
          have hx := h x.name.text
          rw [named_cons_self] at hx
          exact absurd hx (List.cons_ne_nil x _)
      | cons y b =>
          have htext := text_eq_of_named ha hb h
          have hhead := h x.name.text
          rw [named_cons_self, htext, named_cons_self, List.cons.injEq] at hhead
          obtain ⟨rfl, -⟩ := hhead
          rw [ih ha.of_cons hb.of_cons fun text => ?_]
          have htail := h text
          by_cases hx : x.name.text = text
          · subst hx
            rw [named_cons_self, named_cons_self] at htail
            exact List.tail_eq_of_cons_eq htail
          · have hskip : (x.name.text == text) = false := beq_eq_false_iff_ne.2 hx
            simpa [named, hskip] using htail

/-- `ofResources` makes one set of two listings exactly if they hold the resources of each name in
the same order. -/
theorem ofResources_eq_iff {package : String} {a b : List Resource} :
    ofResources package a = ofResources package b ↔ ∀ text, named text a = named text b := by
  rw [ofResources, ofResources, mk.injEq]
  constructor
  · rintro ⟨-, hsorted⟩ text
    rw [← named_mergeSort, hsorted, named_mergeSort]
  · intro h
    refine ⟨rfl, eq_of_named (List.pairwise_mergeSort nameLe_trans nameLe_total a)
      (List.pairwise_mergeSort nameLe_trans nameLe_total b) fun text => ?_⟩
    rw [named_mergeSort, named_mergeSort]
    exact h text

/-! ### Files that arrive together -/

/-- The resources that a file hands out. -/
def yields (label : String) (source : Source) : List Resource :=
  (Listing.ofFile label source.1 source.2).1

/-- **When the order of arrival does not tell.** `ofResources` is the same for every interleaving of
what the sources yield exactly if no two of them yield different resources of one full name. -/
theorem ofResources_interleaving_iff (label package : String) (sources : List Source) :
    (∀ a b, Interleaves (sources.map (yields label)) a →
        Interleaves (sources.map (yields label)) b →
        ofResources package a = ofResources package b) ↔
      sources.Pairwise fun f g =>
        ∀ r ∈ yields label f, ∀ s ∈ yields label g, r.name.text = s.name.text → r = s := by
  constructor
  · intro h
    rw [List.pairwise_iff_getElem]
    intro i j hi hj hij r hr s hs hname
    obtain ⟨u, u', hu⟩ := List.append_of_mem hr
    obtain ⟨v, v', hv⟩ := List.append_of_mem hs
    have hfirst : (sources.map (yields label))[i]? = some (u ++ r :: u') := by
      simp [hi, hu]
    have hsecond : (sources.map (yields label))[j]? = some (v ++ s :: v') := by
      simp [hj, hv]
    obtain ⟨before, after, hrs, hsr⟩ :=
      exists_interleaves_swapped (Nat.ne_of_lt hij) hfirst hsecond
    have hsame := ofResources_eq_iff.1 (h _ _ hrs hsr) s.name.text
    have hheads : r :: s :: named s.name.text after = s :: r :: named s.name.text after := by
      simpa [named, hname] using hsame
    exact (List.cons.inj hheads).1
  · intro h a b ha hb
    rw [ofResources_eq_iff]
    intro text
    refine (ha.filter _).eq_of_agree ?_ (hb.filter _)
    rw [Agree, List.map_map, List.pairwise_map]
    refine h.imp fun {f g} hfg r hr s hs => ?_
    obtain ⟨hr, hrtext⟩ := mem_named.1 hr
    obtain ⟨hs, hstext⟩ := mem_named.1 hs
    exact hfg r hr s hs (hrtext.trans hstext.symm)

/-- A values file that declares a styleable with one attribute. -/
def styleableSource (file key : String) : Source where
  fst :=
    { path := Path.ofString ("res/values/" ++ file)
      resDir := Path.ofString "res"
      typeDir := "values"
      type := .values
      qualifier := ""
      density := {} }
  snd := .given <| Bytes.ofString <|
    "<resources><declare-styleable name=\"s\"><attr name=\"" ++ key ++
      "\"/></declare-styleable></resources>"

/-- What that file hands out. -/
def styleableResources (key : String) : List Resource :=
  [⟨⟨ResourceName.defaultPackage, .attr, key⟩, none⟩,
    ⟨⟨ResourceName.defaultPackage, .styleable, "s"⟩, some ["res-auto:attr/" ++ key]⟩]

/-- Two files that give one styleable different attributes can be listed without a failure, and
their set tells which of them arrived first. -/
theorem ofResources_tells_arrival :
    let sources := [styleableSource "a.xml" "a", styleableSource "b.xml" "b"]
    (∀ source ∈ sources, (Listing.ofFile "" source.1 source.2).2 = .ok ()) ∧
      ∃ a b, Interleaves (sources.map (yields "")) a ∧ Interleaves (sources.map (yields "")) b ∧
        ofResources "p" a ≠ ofResources "p" b := by
  intro sources
  have hlistsA : Listing.ofFile "" (styleableSource "a.xml" "a").1 (styleableSource "a.xml" "a").2 =
      (styleableResources "a", .ok ()) := by decide +kernel
  have hlistsB : Listing.ofFile "" (styleableSource "b.xml" "b").1 (styleableSource "b.xml" "b").2 =
      (styleableResources "b", .ok ()) := by decide +kernel
  constructor
  · intro source hsource
    rcases List.mem_pair.1 hsource with rfl | rfl
    · rw [hlistsA]
    · rw [hlistsB]
  · by_contra hnone
    have hsame : ∀ a b, Interleaves (sources.map (yields "")) a →
        Interleaves (sources.map (yields "")) b → ofResources "p" a = ofResources "p" b := by
      intro a b ha hb
      by_contra hne
      exact hnone ⟨a, b, ha, hb, hne⟩
    have hpair := List.pairwise_pair.1 ((ofResources_interleaving_iff "" "p" sources).1 hsame)
    rw [yields, hlistsA, yields, hlistsB] at hpair
    revert hpair
    decide +kernel

end ResourceShards.ResourceSet
