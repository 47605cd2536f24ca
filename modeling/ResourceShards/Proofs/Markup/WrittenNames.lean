import ResourceShards.Proofs.Markup.Reading
import ResourceShards.Proofs.Markup.Spelling

/-!
# ResourceShards.Proofs.Markup.WrittenNames

**Names as they are written.** A decoder puts a namespace in the place of each prefix, and an
encoder looks for a prefix of that namespace. Here names still have the prefixes that they are
written with, together with the bindings that are in force there. A prefix that nothing is bound to
stands for itself, and whether a name with it can be written again is then a matter of chance: the
encoder takes the prefix for a namespace, and may find it among the prefixes or URIs that are in
scope.

* `WrittenName.Undeclared`: names with a prefix that no declaration binds to a URI
* `WrittenName.Stray`: names for which the encoder finds no prefix
* `WrittenTag.Plain`: tags whose declarations are reported as they are written
* `WrittenName.stray_element_iff`, `WrittenName.stray_attribute_iff`: the names that can not be
  spelled are those
-/

namespace ResourceShards.Markup

open ResourceShards.Utf8

/-! ### Written names -/

/-- The URI that a prefix is bound to now, if it was ever bound. -/
def Namespace.bound? (scope : List Binding) (label : Bytes) : Option Bytes :=
  (scope.find? fun b => b.label == label).map Binding.uri

/-- The name of an element or attribute as it is written, and where. -/
structure WrittenName where
  /-- The bindings in force, those of its own tag included. -/
  scope : List Binding
  /-- Whether it is that of an attribute. -/
  forAttribute : Bool
  /-- The name. -/
  raw : Bytes
  deriving DecidableEq, Repr

namespace WrittenName

/-- The prefix, if there is one. -/
def label? (n : WrittenName) : Option Bytes :=
  (Bytes.cutFirst Namespace.colon n.raw).map Prod.fst

/-- The name has a prefix, other than `xml` and `xmlns`, that no declaration of its element or
around it binds to a URI. -/
def Undeclared (n : WrittenName) : Prop :=
  ∃ label ∈ n.label?, label ≠ [] ∧ label ≠ Namespace.xmlLabel ∧
    label ≠ Namespace.xmlnsLabel ∧ ∀ b ∈ n.scope, b.label = label → b.uri = []

instance (n : WrittenName) : Decidable n.Undeclared :=
  inferInstanceAs (Decidable (∃ label ∈ n.label?, _))

/-- What the name has in the place of a namespace, though no declaration gave it one: the prefix
itself, and for an element with the prefix `xmlns` the URI of that. -/
def Surfaces (n : WrittenName) (space : Bytes) : Prop :=
  (n.Undeclared ∧ n.label? = some space) ∨
    (n.forAttribute = false ∧ n.label? = some Namespace.xmlnsLabel ∧ space = Namespace.xmlnsUri)

/-- What stands in the place of a namespace is in scope by chance: it is itself a prefix that was
declared, or the URI that such a prefix is bound to. Attributes have no use for the default
namespace. -/
def Found (n : WrittenName) (space : Bytes) : Prop :=
  (Namespace.bound? n.scope space).isSome = true ∨
    ∃ label, label ≠ Namespace.xmlnsLabel ∧ Namespace.bound? n.scope label = some space ∧
      (n.forAttribute = true → label ≠ [])

/-- No declaration gives the name a namespace, and what it has instead is not in scope. -/
def Stray (n : WrittenName) : Prop :=
  ∃ space, n.Surfaces space ∧ ¬n.Found space

end WrittenName

/-- A start tag as it is written. -/
structure WrittenTag where
  /-- The bindings in force inside it. -/
  scope : List Binding
  /-- The name. -/
  name : Bytes
  /-- The attributes. -/
  attributes : List RawAttribute
  deriving DecidableEq, Repr

/-- An attribute as it is reported. -/
def RawAttribute.reported (scope : List Binding) (a : RawAttribute) : Attribute :=
  ⟨Namespace.attributeName scope a.key,
    match Reference.readText .lenient a.value with
    | .ok value => value
    | .error _ => ""⟩

namespace WrittenTag

/-- The names of the element and of its attributes. -/
def names (t : WrittenTag) : List WrittenName :=
  ⟨t.scope, false, t.name⟩ :: t.attributes.map fun a => ⟨t.scope, true, a.key⟩

/-- The tag is reported as it is written, as far as namespaces go. -/
structure Plain (t : WrittenTag) : Prop where
  /-- The declarations, and no other attributes, are reported as declarations, each with the prefix
  and the URI that are written there. -/
  declarations : ∀ a ∈ t.attributes,
    (a.reported t.scope).declared?.map (fun d => (Bytes.ofString d.1, Bytes.ofString d.2)) =
      (Namespace.declared? a.key).map fun label => (label, a.value)
  /-- Prefixes are UTF-8, so that nothing of them is lost. -/
  labels : ∀ n ∈ t.names, ∀ label ∈ n.label?, Bytes.ofString (decodeLossy label) = label

instance (t : WrittenTag) : Decidable t.Plain :=
  decidable_of_iff
    ((∀ a ∈ t.attributes,
      (a.reported t.scope).declared?.map (fun d => (Bytes.ofString d.1, Bytes.ofString d.2)) =
        (Namespace.declared? a.key).map fun label => (label, a.value)) ∧
      ∀ n ∈ t.names, ∀ label ∈ n.label?, Bytes.ofString (decodeLossy label) = label)
    ⟨fun h => ⟨h.1, h.2⟩, fun h => ⟨h.1, h.2⟩⟩

end WrittenTag

/-! ### Scopes in both forms -/

namespace Scope

/-- Every declaration of a scope is one that a decoder takes. -/
def Allowed (scope : Scope) : Prop :=
  ∀ entry ∈ scope, Allows entry.1 entry.2

namespace Allowed

variable {scope : Scope}

theorem sound (h : scope.Allowed) : scope.Sound := by
  have hnone : Sound [] := fun entry hentry => absurd hentry List.not_mem_nil
  have hsound := Sound.append h hnone
  rwa [List.append_nil] at hsound

/-- No prefix of the scope is `xmlns`. -/
theorem uri?_xmlns (h : scope.Allowed) : scope.uri? Name.xmlns = none := by
  cases huri : scope.uri? Name.xmlns with
  | none => rfl
  | some uri => exact absurd rfl (h.sound _ (mem_of_uri? huri))

/-- The prefix `xml` is bound to its own URI only. -/
theorem uri?_xml (h : scope.Allowed) {uri : String} (huri : scope.uri? "xml" = some uri) :
    uri = Name.xmlSpace := by
  rcases h _ (mem_of_uri? huri) with hempty | ⟨-, heq⟩ | ⟨hne, -⟩
  · exact absurd hempty (by simp)
  · exact heq
  · exact absurd rfl hne

end Allowed

/-- `Namespace.bound?` looks up the bindings of a decoder as `uri?` does the declarations of a
scope. -/
theorem bound?_bindings (scope : Scope) {label : String} (hxml : label ≠ "xml")
    (hxmlns : label ≠ Name.xmlns) :
    Namespace.bound? scope.bindings (Bytes.ofString label) =
      (scope.uri? label).map Bytes.ofString := by
  have hne : ∀ {other : String}, other ≠ label →
      (Bytes.ofString other == Bytes.ofString label) = false :=
    fun hother => beq_eq_false_iff_ne.2 fun heq => hother (ofString_injective heq)
  unfold Namespace.bound?
  induction scope with
  | nil =>
      have h₁ : (Namespace.xmlnsLabel == Bytes.ofString label) = false := hne hxmlns.symm
      have h₂ : (Namespace.xmlLabel == Bytes.ofString label) = false := hne hxml.symm
      simp [bindings, Namespace.initial, h₁, h₂]
  | cons entry scope ih =>
      obtain ⟨other, uri⟩ := entry
      rw [bindings, uri?_cons]
      by_cases hother : other = "xml"
      · rw [if_pos hother, if_neg (by rw [hother]; exact hxml.symm), ih]
      rw [if_neg hother]
      by_cases heq : other = label
      · rw [if_pos heq, heq]
        simp
      · rw [if_neg heq, ← ih, List.find?_cons, hne heq]

/-- The prefixes in the `bindings` of a scope are texts. -/
theorem exists_label_of_mem_bindings {scope : Scope} {b : Binding} (h : b ∈ scope.bindings) :
    ∃ label : String, b.label = Bytes.ofString label := by
  induction scope with
  | nil =>
      rcases List.mem_cons.1 h with rfl | h
      · exact ⟨Name.xmlns, rfl⟩
      · obtain rfl := List.mem_singleton.1 h
        exact ⟨"xml", rfl⟩
  | cons entry scope ih =>
      obtain ⟨label, uri⟩ := entry
      rw [bindings] at h
      by_cases hxml : label = "xml"
      · rw [if_pos hxml] at h
        exact ih h
      rw [if_neg hxml] at h
      rcases List.mem_cons.1 h with rfl | h
      · exact ⟨label, rfl⟩
      · exact ih h

/-- The decoder never loses the URI of `xml`. -/
theorem bound?_xml {scope : Scope} (h : scope.Allowed) :
    Namespace.bound? scope.bindings Namespace.xmlLabel = some Namespace.xmlUri := by
  unfold Namespace.bound?
  induction scope with
  | nil => decide
  | cons entry scope ih =>
      obtain ⟨label, uri⟩ := entry
      have ih' := ih fun entry hentry => h entry (List.mem_cons_of_mem _ hentry)
      rw [bindings]
      by_cases hxml : label = "xml"
      · rw [if_pos hxml, ih']
      · have hne : (Bytes.ofString label == Namespace.xmlLabel) = false :=
          beq_eq_false_iff_ne.2 fun heq => hxml (ofString_injective (t := "xml") heq)
        rw [if_neg hxml, List.find?_cons, hne, ih']

/-- `label?` finds nothing for a namespace that is not one of the fixed ones, that no prefix is
called like and that none is bound to. -/
theorem label?_eq_none_iff (scope : Scope) (forAttribute : Bool) (space : String) :
    scope.label? forAttribute space = none ↔
      (space ≠ "" ∧ space ≠ Name.xmlns ∧ space ≠ "xml" ∧ space ≠ Name.xmlSpace) ∧
        scope.uri? space = none ∧ scope.visible? forAttribute space = none := by
  unfold label?
  by_cases hempty : space = ""
  · simp [hempty]
  by_cases hxmlns : space = Name.xmlns
  · simp [hxmlns, Name.xmlns]
  simp only [beq_iff_eq, hempty, hxmlns, if_false]
  cases hvisible : scope.visible? forAttribute space with
  | some label => simp
  | none =>
      cases huri : scope.uri? space with
      | some uri => simp
      | none => simp [hempty, hxmlns]

/-- `visible?` finds nothing for a URI that no prefix is bound to, or only the empty one where that
is of no use. -/
theorem visible?_eq_none_iff (scope : Scope) (forAttribute : Bool) (uri : String) :
    scope.visible? forAttribute uri = none ↔
      ¬∃ label, scope.uri? label = some uri ∧ (forAttribute = true → label ≠ "") := by
  constructor
  · rintro hnone ⟨label, huri, hlabel⟩
    obtain ⟨found, hfound⟩ := visible?_of_uri? huri hlabel
    rw [hnone] at hfound
    cases hfound
  · intro hno
    cases hvisible : scope.visible? forAttribute uri with
    | none => rfl
    | some label =>
        obtain ⟨huri, hempty⟩ := uri?_of_visible? hvisible
        exact absurd ⟨label, huri, fun hattr hlabel => hempty ⟨hattr, hlabel⟩⟩ hno

/-- A prefix that is bound, if only to nothing, gives its names a `space` that `label?` can write.
-/
theorem label?_space_of_bound {scope : Scope} (h : scope.Allowed) {label uri : String}
    (hlabel : label ≠ "") (huri : scope.uri? label = some uri) (forAttribute : Bool) :
    scope.label? forAttribute (scope.space false label) ≠ none := by
  intro hnone
  obtain ⟨⟨-, -, -, hspace⟩, hknown, hvisible⟩ := (label?_eq_none_iff ..).1 hnone
  unfold space at hspace hknown hvisible
  rw [if_neg hlabel] at hspace hknown hvisible
  by_cases hxmlns : label = Name.xmlns
  · rw [hxmlns, h.uri?_xmlns] at huri
    cases huri
  rw [if_neg hxmlns] at hspace hknown hvisible
  by_cases hxml : label = "xml"
  · exact hspace (if_pos hxml)
  rw [if_neg hxml, huri] at hknown hvisible
  by_cases hempty : uri = ""
  · simp only [hempty, if_true] at hknown
    rw [huri] at hknown
    cases hknown
  · simp only [hempty, if_false] at hvisible
    exact (visible?_eq_none_iff ..).1 hvisible ⟨label, huri, fun _ => hlabel⟩

end Scope

/-! ### Names that can not be written -/

namespace WrittenName

variable {n : WrittenName} {scope : Scope}

/-- What is `Found` by chance is what the tables of an encoder hold. -/
theorem found_iff (h : scope.Allowed) (hn : n.scope = scope.bindings) {space : String}
    (hxml : space ≠ "xml") (hxmlns : space ≠ Name.xmlns) (hspace : space ≠ Name.xmlSpace) :
    n.Found (Bytes.ofString space) ↔
      ¬(scope.uri? space = none ∧ scope.visible? n.forAttribute space = none) := by
  have hbound := scope.bound?_bindings hxml hxmlns
  unfold Found
  rw [hn, hbound, Option.isSome_map, Scope.visible?_eq_none_iff, not_and_or, not_not,
    Option.isSome_iff_ne_none]
  refine or_congr Iff.rfl ⟨?_, ?_⟩
  · rintro ⟨label, hne, huri, hlabel⟩
    obtain ⟨b, hfind, -⟩ := Option.map_eq_some_iff.1 huri
    have hfound : (b.label == label) = true :=
      List.find?_some (p := fun b : Binding => b.label == label) hfind
    obtain rfl := beq_iff_eq.1 hfound
    obtain ⟨text, htext⟩ := Scope.exists_label_of_mem_bindings (List.mem_of_find?_eq_some hfind)
    rw [htext] at hne huri hlabel
    by_cases hname : text = "xml"
    · -- no name stands for the URI of `xml` by chance
      rw [hname] at huri
      have heq := Option.some.inj ((Scope.bound?_xml h).symm.trans huri)
      exact absurd (ofString_injective heq).symm hspace
    rw [scope.bound?_bindings hname fun heq => hne (by rw [heq]; rfl)] at huri
    obtain ⟨uri, hlookup, heq⟩ := Option.map_eq_some_iff.1 huri
    obtain rfl := ofString_injective heq
    exact ⟨text, hlookup, fun hattr hempty => hlabel hattr (by rw [hempty]; rfl)⟩
  · rintro ⟨label, huri, hlabel⟩
    have hname : label ≠ "xml" := by
      rintro rfl
      exact hspace (h.uri?_xml huri)
    have hname' : label ≠ Name.xmlns := by
      rintro rfl
      rw [h.uri?_xmlns] at huri
      cases huri
    refine ⟨Bytes.ofString label, fun heq => hname' (ofString_injective heq), ?_, ?_⟩
    · rw [scope.bound?_bindings hname hname', huri]
      rfl
    · exact fun hattr hempty => hlabel hattr (ofString_injective (t := "") hempty)

/-- A name without a prefix is not `Stray`. -/
theorem not_stray_of_none (hlabel : n.label? = none) : ¬n.Stray := by
  rintro ⟨space, ⟨-, hspace⟩ | ⟨-, hspace, -⟩, -⟩
  · rw [hlabel] at hspace
    cases hspace
  · rw [hlabel] at hspace
    cases hspace

/-- An attribute with the prefix `xmlns` is not stray. -/
theorem not_stray_of_xmlns (hlabel : n.label? = some Namespace.xmlnsLabel)
    (hattr : n.forAttribute = true) : ¬n.Stray := by
  rintro ⟨space, ⟨⟨label, hundeclared, -, -, hne, -⟩, -⟩ | ⟨helement, -⟩, -⟩
  · rw [hlabel] at hundeclared
    exact hne (Option.some.inj hundeclared).symm
  · rw [hattr] at helement
    cases helement

/-- A name with an empty prefix is not `Stray`. -/
theorem not_stray_of_empty (hlabel : n.label? = some []) : ¬n.Stray := by
  rintro ⟨space, ⟨⟨label, hundeclared, hne, -⟩, -⟩ | ⟨-, hxmlns, -⟩, -⟩
  · rw [hlabel] at hundeclared
    exact hne (Option.some.inj hundeclared).symm
  · rw [hlabel] at hxmlns
    exact absurd (Option.some.inj hxmlns) (by decide)

/-- A name that has a known text in the place of a namespace is `Stray` exactly if `label?` finds
nothing for that text. -/
theorem stray_iff_of_surfaces (h : scope.Allowed) (hn : n.scope = scope.bindings) {space : String}
    (hsurfaces : ∀ bytes, n.Surfaces bytes ↔ bytes = Bytes.ofString space)
    (hspace : space ≠ "" ∧ space ≠ Name.xmlns ∧ space ≠ "xml" ∧ space ≠ Name.xmlSpace) :
    n.Stray ↔ scope.label? n.forAttribute space = none := by
  have hfound := found_iff h hn hspace.2.2.1 hspace.2.1 hspace.2.2.2
  rw [Scope.label?_eq_none_iff]
  constructor
  · rintro ⟨bytes, hsurface, hlost⟩
    obtain rfl := (hsurfaces bytes).1 hsurface
    rw [hfound, not_not] at hlost
    exact ⟨hspace, hlost⟩
  · rintro ⟨-, hlost⟩
    refine ⟨_, (hsurfaces _).2 rfl, ?_⟩
    rw [hfound, not_not]
    exact hlost

/-- A prefix that the scope does not bind `Surfaces` itself. -/
theorem surfaces_iff_of_unbound (hn : n.scope = scope.bindings) {label : String}
    (hlabel : n.label? = some (Bytes.ofString label)) (hne : label ≠ "") (hxml : label ≠ "xml")
    (hxmlns : label ≠ Name.xmlns) (huri : scope.uri? label = none) (bytes : Bytes) :
    n.Surfaces bytes ↔ bytes = Bytes.ofString label := by
  constructor
  · rintro (⟨-, hsurface⟩ | ⟨-, hsurface, -⟩)
    · exact Option.some.inj (hsurface.symm.trans hlabel)
    · have heq := Option.some.inj (hlabel.symm.trans hsurface)
      exact absurd (ofString_injective (t := Name.xmlns) heq) hxmlns
  · rintro rfl
    refine .inl ⟨⟨_, hlabel, fun hnil => hne (ofString_injective (t := "") hnil),
      fun heq => hxml (ofString_injective (t := "xml") heq),
      fun heq => hxmlns (ofString_injective heq), fun b hb hb' => ?_⟩, hlabel⟩
    have hnone := scope.bound?_bindings hxml hxmlns
    rw [huri, ← hn] at hnone
    exact absurd (beq_iff_eq.2 hb') (List.find?_eq_none.1 (Option.map_eq_none_iff.1 hnone) b hb)

/-- The prefix `xmlns` of an element surfaces as the URI that it always has. -/
theorem surfaces_iff_of_xmlns (hlabel : n.label? = some Namespace.xmlnsLabel)
    (helement : n.forAttribute = false) (bytes : Bytes) :
    n.Surfaces bytes ↔ bytes = Bytes.ofString Scope.xmlnsUri := by
  constructor
  · rintro (⟨⟨other, hother, -, -, hno, -⟩, -⟩ | ⟨-, -, hbytes⟩)
    · exact absurd (Option.some.inj (hother.symm.trans hlabel)) hno
    · exact hbytes
  · rintro rfl
    exact .inr ⟨helement, hlabel, rfl⟩

/-- A name with a prefix is `Stray` exactly if `label?` finds nothing for the `space` of the prefix.
-/
theorem stray_iff (h : scope.Allowed) (hn : n.scope = scope.bindings) {label : String}
    (hlabel : n.label? = some (Bytes.ofString label)) (hne : label ≠ "")
    (hspace : label ≠ Name.xmlSpace) (hattr : n.forAttribute = true → label ≠ Name.xmlns) :
    n.Stray ↔ scope.label? n.forAttribute (scope.space false label) = none := by
  by_cases hxml : label = "xml"
  · -- its URI is always written with it
    rw [hxml] at hlabel
    refine iff_of_false ?_ fun hnone => ?_
    · rintro ⟨space, ⟨⟨other, hother, -, hno, -⟩, -⟩ | ⟨-, hother, -⟩, -⟩
      · exact hno (Option.some.inj (hother.symm.trans hlabel))
      · exact absurd (Option.some.inj (hother.symm.trans hlabel)) (by decide)
    · rw [hxml] at hnone
      exact ((Scope.label?_eq_none_iff ..).1 hnone).1.2.2.2 rfl
  by_cases hxmlns : label = Name.xmlns
  · have helement : n.forAttribute = false := by
      cases hfor : n.forAttribute with
      | false => rfl
      | true => exact absurd hxmlns (hattr hfor)
    rw [hxmlns] at hlabel ⊢
    show n.Stray ↔ scope.label? n.forAttribute Scope.xmlnsUri = none
    exact stray_iff_of_surfaces h hn (surfaces_iff_of_xmlns hlabel helement) (by decide)
  cases huri : scope.uri? label with
  | some uri =>
      -- a prefix that is bound to nothing is still in scope
      refine iff_of_false ?_ (Scope.label?_space_of_bound h hne huri _)
      rintro ⟨space, ⟨-, hsurface⟩ | ⟨-, hsurface, -⟩, hfound⟩
      · obtain rfl := Option.some.inj (hsurface.symm.trans hlabel)
        rw [found_iff h hn hxml hxmlns hspace, huri] at hfound
        exact hfound fun hnone => Option.some_ne_none _ hnone.1
      · exact hxmlns (ofString_injective (Option.some.inj (hlabel.symm.trans hsurface)))
  | none =>
      have hsame : scope.space false label = label := by
        simp only [Scope.space, hne, hxmlns, hxml, huri, if_false]
      rw [hsame]
      exact stray_iff_of_surfaces h hn
        (surfaces_iff_of_unbound hn hlabel hne hxml hxmlns huri) ⟨hne, hxmlns, hxml, hspace⟩

/-- The prefix of a name is no URI. -/
theorem ne_xmlSpace_of_label? {label : String} (hlabel : n.label? = some (Bytes.ofString label)) :
    label ≠ Name.xmlSpace := by
  rintro rfl
  obtain ⟨⟨before, after⟩, hcut, hbefore⟩ := Option.map_eq_some_iff.1 hlabel
  obtain rfl : before = Bytes.ofString Name.xmlSpace := hbefore
  exact Bytes.not_mem_of_cutFirst hcut (by decide)

end WrittenName

/-! ### What a decoder makes of a written name -/

namespace Scope

variable {scope : Scope}

/-- `Namespace.resolve` puts a name without a prefix into the namespace of those. -/
theorem resolve_of_none {unprefixed raw : Bytes}
    (hcut : Bytes.cutFirst Namespace.colon raw = none) :
    (Namespace.resolve scope.bindings unprefixed raw).space = decodeLossy unprefixed := by
  rw [Namespace.resolve, hcut]

/-- `Namespace.resolve` puts a name with a prefix into the `space` of the prefix. -/
theorem resolve_of_some (h : scope.Allowed) {unprefixed raw localPart : Bytes} {label : String}
    (hcut : Bytes.cutFirst Namespace.colon raw = some (Bytes.ofString label, localPart)) :
    (Namespace.resolve scope.bindings unprefixed raw).space =
      if label = "" then "" else scope.space false label := by
  rw [Namespace.resolve, hcut]
  show decodeLossy (Namespace.ofLabel scope.bindings (Bytes.ofString label)) = _
  by_cases hempty : label = ""
  · have hnone : (scope.bindings.find? fun b => b.label != [] && b.label == []) = none :=
      List.find?_eq_none.2 fun b _ => by simp
    rw [if_pos hempty, hempty]
    show decodeLossy (Namespace.ofLabel scope.bindings []) = ""
    rw [Namespace.ofLabel, hnone]
    exact decodeLossy_ofString ""
  · rw [if_neg hempty, ofLabel_bindings h.sound hempty, decodeLossy_ofString]

end Scope

namespace WrittenName

variable {scope : Scope}

theorem label?_of_cutFirst {n : WrittenName} {before localPart : Bytes}
    (hcut : Bytes.cutFirst Namespace.colon n.raw = some (before, localPart)) :
    n.label? = some before := by
  rw [label?, hcut]
  rfl

theorem label?_of_cutFirst_none {n : WrittenName}
    (hcut : Bytes.cutFirst Namespace.colon n.raw = none) : n.label? = none := by
  rw [label?, hcut]
  rfl

/-- A name with a prefix is `Stray` exactly if `label?` finds nothing for what `Namespace.resolve`
makes of it. -/
theorem stray_iff_of_cutFirst {n : WrittenName} (h : scope.Allowed) (hn : n.scope = scope.bindings)
    {unprefixed before localPart : Bytes}
    (hcut : Bytes.cutFirst Namespace.colon n.raw = some (before, localPart))
    (hutf8 : Bytes.ofString (decodeLossy before) = before)
    (hattr : n.forAttribute = true → before ≠ Namespace.xmlnsLabel) :
    n.Stray ↔ scope.label? n.forAttribute
      (Namespace.resolve scope.bindings unprefixed n.raw).space = none := by
  have hlabel := label?_of_cutFirst hcut
  obtain ⟨label, rfl⟩ : ∃ label, before = Bytes.ofString label := ⟨_, hutf8.symm⟩
  rw [Scope.resolve_of_some h hcut]
  by_cases hempty : label = ""
  · rw [if_pos hempty]
    rw [hempty] at hlabel
    exact iff_of_false (not_stray_of_empty hlabel) nofun
  · rw [if_neg hempty]
    refine stray_iff h hn hlabel hempty (ne_xmlSpace_of_label? hlabel) fun hfor hxmlns => ?_
    exact hattr hfor (congrArg Bytes.ofString hxmlns)

/-- An element is `Stray` exactly if `label?` finds nothing for its `elementName`. -/
theorem stray_element_iff (h : scope.Allowed) {raw : Bytes}
    (hutf8 : ∀ label ∈ (⟨scope.bindings, false, raw⟩ : WrittenName).label?,
      Bytes.ofString (decodeLossy label) = label) :
    (⟨scope.bindings, false, raw⟩ : WrittenName).Stray ↔
      scope.label? false (Namespace.elementName scope.bindings raw).space = none := by
  unfold Namespace.elementName
  cases hcut : Bytes.cutFirst Namespace.colon raw with
  | none =>
      rw [Scope.resolve_of_none hcut, Scope.default_bindings, decodeLossy_ofString]
      refine iff_of_false (not_stray_of_none (label?_of_cutFirst_none hcut)) fun hlost => ?_
      obtain ⟨⟨hempty, -⟩, -, hvisible⟩ := (Scope.label?_eq_none_iff ..).1 hlost
      cases huri : scope.uri? "" with
      | none =>
          rw [huri] at hempty
          exact hempty rfl
      | some uri =>
          rw [huri] at hvisible
          exact (Scope.visible?_eq_none_iff ..).1 hvisible ⟨"", huri, nofun⟩
  | some parts => exact stray_iff_of_cutFirst h rfl hcut (hutf8 _ (label?_of_cutFirst hcut)) nofun

/-- An attribute is `Stray` exactly if `label?` finds nothing for its `attributeName`. -/
theorem stray_attribute_iff (h : scope.Allowed) {key : Bytes}
    (hutf8 : ∀ label ∈ (⟨scope.bindings, true, key⟩ : WrittenName).label?,
      Bytes.ofString (decodeLossy label) = label) :
    (⟨scope.bindings, true, key⟩ : WrittenName).Stray ↔
      scope.label? true (Namespace.attributeName scope.bindings key).space = none := by
  unfold Namespace.attributeName
  by_cases hplain : (key == Namespace.xmlnsLabel) = true
  · have hnone : (⟨scope.bindings, true, key⟩ : WrittenName).label? = none := by
      rw [beq_iff_eq.1 hplain]
      rfl
    rw [if_pos hplain]
    exact iff_of_false (not_stray_of_none hnone) nofun
  rw [if_neg hplain]
  cases hdrop : Bytes.dropRun? (Namespace.xmlnsLabel ++ [Namespace.colon]) key with
  | some label =>
      have hkey := Bytes.dropRun?_eq hdrop
      have hlabel : (⟨scope.bindings, true, key⟩ : WrittenName).label? =
          some Namespace.xmlnsLabel := by
        rw [label?, hkey, List.append_assoc]
        show Option.map Prod.fst (Bytes.cutFirst Namespace.colon
          (Namespace.xmlnsLabel ++ Namespace.colon :: label)) = _
        rw [cutFirst_append (by decide)]
        rfl
      exact iff_of_false (not_stray_of_xmlns hlabel rfl) nofun
  | none =>
      cases hcut : Bytes.cutFirst Namespace.colon key with
      | none =>
          simp only
          have hnothing : decodeLossy [] = "" := decodeLossy_ofString ""
          rw [Scope.resolve_of_none hcut, hnothing]
          exact iff_of_false (not_stray_of_none (label?_of_cutFirst_none hcut)) nofun
      | some parts =>
          refine stray_iff_of_cutFirst h rfl hcut (hutf8 _ (label?_of_cutFirst hcut)) ?_
          rintro - hxmlns
          -- a declaration would have been named for its prefix
          have hrun := dropRun?_append (Namespace.xmlnsLabel ++ [Namespace.colon]) parts.2
          rw [List.append_assoc, ← hxmlns] at hrun
          have hkey : key = parts.1 ++ ([Namespace.colon] ++ parts.2) := Bytes.cutFirst_eq hcut
          rw [← hkey, hxmlns, hdrop] at hrun
          cases hrun

end WrittenName

end ResourceShards.Markup
