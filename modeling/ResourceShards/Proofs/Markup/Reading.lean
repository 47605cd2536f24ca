import Mathlib.Data.List.Chain
import ResourceShards.Markup.Decoder
import ResourceShards.Proofs.Markup.Lexing

/-!
# ResourceShards.Proofs.Markup.Reading

**Reading what was printed.** A decoder that meets printed tokens does two things as well: it finds
the spelled tokens in the bytes, and then it puts namespaces in the place of their prefixes. Only
the second depends on what is in scope. URIs are bound as they are written, that is with the
references that stand for some of their characters.

* `Reading.resolve?`: what a spelled token means where it is read
* `Decoder.Sees.step`: a decoder in front of a printed token gives its meaning
* `Document.decode_printAll`: so does reading a printed document
-/

namespace ResourceShards.Markup

open ResourceShards.Utf8

/-! ### Scopes of a decoder -/

namespace Scope

/-- The bindings of a decoder that has seen the declarations of a scope. The prefix `xml` may be
declared, but keeps its URI without that. -/
def bindings : Scope → List Binding
  | [] => Namespace.initial
  | (label, uri) :: rest =>
    if label = "xml" then bindings rest
    else ⟨Bytes.ofString label, Bytes.ofString uri⟩ :: bindings rest

/-- Declarations that a decoder takes: the default namespace may be anything, `xml` is bound to its
own URI only, `xmlns` is not declared, and no other prefix is bound to the URI of one of them. -/
def Allows (label uri : String) : Prop :=
  label = "" ∨ (label = "xml" ∧ uri = Name.xmlSpace) ∨
    (label ≠ "xml" ∧ label ≠ Name.xmlns ∧ uri ≠ Name.xmlSpace ∧ uri ≠ xmlnsUri)

instance (label uri : String) : Decidable (Allows label uri) :=
  inferInstanceAs (Decidable (_ ∨ _ ∨ _))

/-- No prefix of the scope is `xmlns`. -/
def Sound (scope : Scope) : Prop :=
  ∀ entry ∈ scope, entry.1 ≠ Name.xmlns

theorem Sound.append {inner outer : Scope} (hinner : ∀ entry ∈ inner, Allows entry.1 entry.2)
    (houter : outer.Sound) : Sound (inner ++ outer) := by
  intro entry hentry
  rcases List.mem_append.1 hentry with h | h
  · rcases hinner entry h with hempty | ⟨hxml, -⟩ | ⟨-, hne, -⟩
    · rw [hempty]
      decide
    · rw [hxml]
      decide
    · exact hne
  · exact houter entry h

/-- The declarations as they are written; references stand for some characters of the URIs. -/
def asWritten (scope : Scope) : Scope :=
  scope.map fun entry => (entry.1, escapeValue entry.2)

theorem default_bindings (scope : Scope) :
    Namespace.default scope.bindings = Bytes.ofString ((scope.uri? "").getD "") := by
  induction scope with
  | nil => decide
  | cons entry scope ih =>
      obtain ⟨label, uri⟩ := entry
      rw [bindings, uri?_cons]
      by_cases hxml : label = "xml"
      · rw [if_pos hxml, ih, if_neg (by rw [hxml]; decide)]
      rw [if_neg hxml]
      by_cases hempty : label = ""
      · have hbytes : Bytes.ofString label = [] := by rw [hempty]; rfl
        rw [if_pos hempty, Namespace.default, List.find?_cons, hbytes]
        rfl
      · have hbytes : (Bytes.ofString label == []) = false :=
          beq_eq_false_iff_ne.2 fun hnil => hempty (ofString_injective (hnil.trans rfl))
        rw [if_neg hempty, ← ih, Namespace.default, List.find?_cons, hbytes]
        rfl

/-- The namespace of a prefix depends on its URI only; `xml` does not even depend on that. -/
theorem space_eq_of_uri? {scope other : Scope} {label : String} (hlabel : label ≠ "")
    (h : label = "xml" ∨ scope.uri? label = other.uri? label) (forAttribute : Bool) :
    scope.space forAttribute label = other.space forAttribute label := by
  unfold space
  rw [if_neg hlabel, if_neg hlabel]
  rcases h with rfl | h
  · rfl
  · rw [h]

theorem ofLabel_initial {label : String} (hlabel : label ≠ "") :
    Namespace.ofLabel Namespace.initial (Bytes.ofString label) =
      Bytes.ofString (space [] false label) := by
  by_cases hxmlns : label = Name.xmlns
  · rw [hxmlns]
    decide
  by_cases hxml : label = "xml"
  · rw [hxml]
    decide
  have hnone : (Namespace.initial.find? fun b =>
      b.label != [] && b.label == Bytes.ofString label) = none := by
    rw [List.find?_eq_none]
    intro b hb hfound
    rw [Bool.and_eq_true, beq_iff_eq] at hfound
    simp only [Namespace.initial, List.mem_cons, List.not_mem_nil, or_false] at hb
    rcases hb with rfl | rfl
    · exact hxmlns (ofString_injective (t := Name.xmlns) hfound.2.symm)
    · exact hxml (ofString_injective (t := "xml") hfound.2.symm)
  rw [Namespace.ofLabel, hnone, space, if_neg hlabel, if_neg hxmlns, if_neg hxml]
  rfl

theorem ofLabel_cons_self {label : String} (hlabel : label ≠ "") (uri : String)
    (rest : List Binding) :
    Namespace.ofLabel (⟨Bytes.ofString label, Bytes.ofString uri⟩ :: rest) (Bytes.ofString label) =
      Bytes.ofString (if uri = "" then label else uri) := by
  have hne : Bytes.ofString label ≠ [] :=
    fun hnil => hlabel (ofString_injective (hnil.trans rfl))
  rw [Namespace.ofLabel, List.find?_cons_of_pos
    (by rw [beq_self_eq_true, Bool.and_true, bne_iff_ne]; exact hne)]
  by_cases hempty : uri = ""
  · rw [if_pos hempty, hempty]
    rfl
  · have hbytes : Bytes.ofString uri ≠ [] :=
      fun hnil => hempty (ofString_injective (hnil.trans rfl))
    simp only
    rw [if_neg hempty, if_neg (by rw [beq_iff_eq]; exact hbytes)]

theorem ofLabel_cons_of_ne {label other : String} (h : other ≠ label) (uri : Bytes)
    (rest : List Binding) :
    Namespace.ofLabel (⟨Bytes.ofString other, uri⟩ :: rest) (Bytes.ofString label) =
      Namespace.ofLabel rest (Bytes.ofString label) := by
  have hskip : (Bytes.ofString other == Bytes.ofString label) = false :=
    beq_eq_false_iff_ne.2 fun hbytes => h (ofString_injective hbytes)
  unfold Namespace.ofLabel
  rw [List.find?_cons_of_neg (by rw [hskip, Bool.and_false]; decide)]

/-- `Namespace.ofLabel` finds for a prefix what `Scope.space` says. -/
theorem ofLabel_bindings {scope : Scope} (h : scope.Sound) {label : String} (hlabel : label ≠ "") :
    Namespace.ofLabel scope.bindings (Bytes.ofString label) =
      Bytes.ofString (scope.space false label) := by
  induction scope with
  | nil => exact ofLabel_initial hlabel
  | cons entry scope ih =>
      obtain ⟨other, uri⟩ := entry
      have ih' := ih fun e he => h e (List.mem_cons_of_mem _ he)
      rw [bindings]
      by_cases hxml : other = "xml"
      · -- the declaration of `xml` is passed over on both sides
        rw [if_pos hxml, ih']
        refine congrArg Bytes.ofString (space_eq_of_uri? hlabel ?_ false)
        by_cases heq : other = label
        · exact .inl (heq.symm.trans hxml)
        · exact .inr (by rw [uri?_cons, if_neg heq])
      rw [if_neg hxml]
      by_cases heq : other = label
      · subst heq
        have hxmlns : other ≠ Name.xmlns := h _ List.mem_cons_self
        rw [ofLabel_cons_self hlabel, space, if_neg hlabel, if_neg hxmlns, if_neg hxml, uri?_cons,
          if_pos rfl]
      · rw [ofLabel_cons_of_ne heq, ih']
        exact congrArg Bytes.ofString
          (space_eq_of_uri? hlabel (.inr (by rw [uri?_cons, if_neg heq])) false)

end Scope

/-! ### Names -/

theorem dropRun?_append (run rest : Bytes) : Bytes.dropRun? run (run ++ rest) = some rest := by
  induction run with
  | nil => rfl
  | cons b run ih =>
      rw [List.cons_append, Bytes.dropRun?, if_pos (beq_self_eq_true b), ih]

theorem IsWord.colon_not_mem {s : String} (h : IsWord s) : Namespace.colon ∉ Bytes.ofString s := by
  intro hmem
  have := h.2 _ (mem_of_mem_ofString (by decide) hmem)
  exact absurd this (by decide)

namespace Name

theorem written_of_empty {n : Name} (h : n.space = "") : n.written = n.localPart := by
  rw [written, if_pos (beq_iff_eq.2 h)]

theorem ofString_written_of_ne {n : Name} (h : n.space ≠ "") :
    Bytes.ofString n.written =
      Bytes.ofString n.space ++ Namespace.colon :: Bytes.ofString n.localPart := by
  rw [written, if_neg (by rw [beq_iff_eq]; exact h), Bytes.ofString_append, Bytes.ofString_append,
    List.append_assoc]
  rfl

/-- The text of a `Legible` name is cut behind its prefix. -/
theorem Legible.cutFirst_written {n : Name} (h : n.Legible) :
    Bytes.cutFirst Namespace.colon (Bytes.ofString n.written) =
      if n.space = "" then none
      else some (Bytes.ofString n.space, Bytes.ofString n.localPart) := by
  by_cases hempty : n.space = ""
  · rw [if_pos hempty, written_of_empty hempty]
    exact cutFirst_of_not_mem h.2.colon_not_mem
  · rw [if_neg hempty, ofString_written_of_ne hempty]
    exact cutFirst_append (h.1.resolve_left hempty).colon_not_mem _

/-- A `Legible` name whose text begins like a declaration of a prefix is one. -/
theorem Legible.space_eq_xmlns {n : Name} (h : n.Legible) {rest : Bytes}
    (hwritten : Bytes.ofString n.written =
      Namespace.xmlnsLabel ++ Namespace.colon :: rest) : n.space = xmlns := by
  have hcut := h.cutFirst_written
  rw [hwritten, cutFirst_append (by decide)] at hcut
  by_cases hempty : n.space = ""
  · rw [if_pos hempty] at hcut
    exact absurd hcut (Option.some_ne_none _)
  · rw [if_neg hempty, Option.some.injEq, Prod.mk.injEq] at hcut
    exact (ofString_injective (s := xmlns) hcut.1).symm

/-- A `Legible` name that is written like the declaration of the default namespace is one. -/
theorem Legible.eq_plain_xmlns {n : Name} (h : n.Legible)
    (hwritten : Bytes.ofString n.written = Namespace.xmlnsLabel) : n = plain xmlns := by
  have hcut := h.cutFirst_written
  rw [hwritten, cutFirst_of_not_mem (by decide)] at hcut
  by_cases hempty : n.space = ""
  · rw [written_of_empty hempty] at hwritten
    have hlocal : n.localPart = xmlns := ofString_injective (t := xmlns) hwritten
    cases n
    simp only at hempty hlocal
    rw [hempty, hlocal]
    rfl
  · rw [if_neg hempty] at hcut
    exact absurd hcut.symm (Option.some_ne_none _)

/-- Only the plain name `xmlns` declares the empty prefix. -/
theorem Legible.ne_empty_of_declaredLabel? {n : Name} (h : n.Legible) {label : String}
    (hlabel : n.declaredLabel? = some label)
    (hplain : Bytes.ofString n.written ≠ Namespace.xmlnsLabel) : label ≠ "" := by
  intro hempty
  unfold declaredLabel? at hlabel
  by_cases hspace : n.space == xmlns
  · rw [if_pos hspace, Option.some.injEq] at hlabel
    exact h.2.1 (hlabel.trans hempty)
  rw [if_neg hspace] at hlabel
  by_cases hdefault : (n.space == "" && n.localPart == xmlns) = true
  · rw [Bool.and_eq_true, beq_iff_eq, beq_iff_eq] at hdefault
    refine hplain ?_
    rw [written_of_empty hdefault.1, hdefault.2]
    rfl
  · rw [if_neg hdefault] at hlabel
    exact Option.some_ne_none _ hlabel.symm

/-- `Namespace.declared?` finds in the text of a `Legible` name the prefix that `declaredLabel?`
tells. -/
theorem Legible.declared? {n : Name} (h : n.Legible) :
    Namespace.declared? (Bytes.ofString n.written) = n.declaredLabel?.map Bytes.ofString := by
  have hplain : declaredLabel? (plain xmlns) = some "" := by decide
  unfold Namespace.declared?
  cases hdrop : Bytes.dropRun? Namespace.xmlnsLabel (Bytes.ofString n.written) with
  | none =>
      have hno : ∀ rest, Bytes.ofString n.written ≠ Namespace.xmlnsLabel ++ rest := by
        intro rest heq
        rw [heq, dropRun?_append] at hdrop
        exact Option.some_ne_none _ hdrop
      have hspace : n.space ≠ xmlns := by
        intro heq
        refine hno (Namespace.colon :: Bytes.ofString n.localPart) ?_
        rw [ofString_written_of_ne (by rw [heq]; decide), heq]
        rfl
      have hlocal : ¬(n.space = "" ∧ n.localPart = xmlns) := by
        rintro ⟨hempty, heq⟩
        refine hno [] ?_
        rw [written_of_empty hempty, heq]
        rfl
      simp [declaredLabel?, hspace, hlocal]
  | some rest =>
      -- the name begins with `xmlns`; a colon behind it ends the prefix, anything else goes on
      have hwritten := Bytes.dropRun?_eq hdrop
      cases rest with
      | nil =>
          rw [List.append_nil] at hwritten
          rw [h.eq_plain_xmlns hwritten, hplain]
          rfl
      | cons b rest =>
          simp only
          by_cases hb : b = Namespace.colon
          · subst hb
            have hspace := h.space_eq_xmlns hwritten
            have hlocal : rest = Bytes.ofString n.localPart := by
              rw [ofString_written_of_ne (by rw [hspace]; decide), hspace] at hwritten
              exact (List.cons.inj (List.append_cancel_left hwritten)).2.symm
            rw [if_pos (beq_self_eq_true _), declaredLabel?, if_pos (beq_iff_eq.2 hspace),
              Option.map_some, hlocal]
          · rw [if_neg (by rw [beq_iff_eq]; exact hb)]
            have hspace : n.space ≠ xmlns := by
              intro heq
              rw [ofString_written_of_ne (by rw [heq]; decide), heq] at hwritten
              exact hb (List.cons.inj (List.append_cancel_left hwritten)).1.symm
            have hlocal : ¬(n.space = "" ∧ n.localPart = xmlns) := by
              rintro ⟨hempty, heq⟩
              rw [written_of_empty hempty, heq] at hwritten
              have hnil : Namespace.xmlnsLabel ++ [] = Namespace.xmlnsLabel ++ b :: rest := hwritten
              exact List.cons_ne_nil _ _ (List.append_cancel_left hnil).symm
            simp [declaredLabel?, hspace, hlocal]

end Name

namespace Scope

/-- `Namespace.elementName` names elements as `Scope.resolve` does. -/
theorem elementName_written {scope : Scope} (h : scope.Sound) {n : Name} (hn : n.Legible) :
    Namespace.elementName scope.bindings (Bytes.ofString n.written) = scope.resolve false n := by
  unfold Namespace.elementName Namespace.resolve
  rw [hn.cutFirst_written]
  by_cases hempty : n.space = ""
  · rw [if_pos hempty, default_bindings, decodeLossy_ofString, Name.written_of_empty hempty,
      decodeLossy_ofString, resolve, hempty]
    rfl
  · rw [if_neg hempty]
    simp only
    rw [ofLabel_bindings h hempty, decodeLossy_ofString, decodeLossy_ofString]
    rfl

/-- `Namespace.attributeName` names attributes as `Scope.resolve` does. -/
theorem attributeName_written {scope : Scope} (h : scope.Sound) {n : Name} (hn : n.Legible) :
    Namespace.attributeName scope.bindings (Bytes.ofString n.written) = scope.resolve true n := by
  unfold Namespace.attributeName
  by_cases hplain : Bytes.ofString n.written = Namespace.xmlnsLabel
  · rw [if_pos (beq_iff_eq.2 hplain), hn.eq_plain_xmlns hplain]
    rfl
  rw [if_neg (by rw [beq_iff_eq]; exact hplain)]
  cases hdrop : Bytes.dropRun? (Namespace.xmlnsLabel ++ [Namespace.colon])
      (Bytes.ofString n.written) with
  | some label =>
      have hwritten := Bytes.dropRun?_eq hdrop
      rw [List.append_assoc, List.singleton_append] at hwritten
      have hspace := hn.space_eq_xmlns hwritten
      rw [Name.ofString_written_of_ne (by rw [hspace]; decide), hspace] at hwritten
      have hlocal := (List.cons.inj (List.append_cancel_left hwritten)).2
      simp only
      rw [← hlocal, decodeLossy_ofString, resolve, hspace]
      rfl
  | none =>
      have hspace : n.space ≠ Name.xmlns := by
        intro heq
        have hrun := dropRun?_append (Namespace.xmlnsLabel ++ [Namespace.colon])
          (Bytes.ofString n.localPart)
        rw [Name.ofString_written_of_ne (by rw [heq]; decide), heq] at hdrop
        exact Option.some_ne_none _ (hrun.symm.trans hdrop)
      simp only [Namespace.resolve, hn.cutFirst_written]
      by_cases hempty : n.space = ""
      · have hnothing : decodeLossy [] = "" := decodeLossy_ofString ""
        rw [if_pos hempty, Name.written_of_empty hempty, decodeLossy_ofString, resolve, hempty]
        simp only
        rw [hnothing]
        rfl
      · rw [if_neg hempty]
        simp only
        rw [ofLabel_bindings h hempty, decodeLossy_ofString, decodeLossy_ofString, resolve, space,
          space, if_neg hempty, if_neg hempty, if_neg hspace, if_neg hspace]

end Scope

/-! ### Tags -/

namespace Scope

/-- `declareOne` takes the declaration of a written attribute that the scope `Allows`. -/
theorem declareOne_raw {a : Attribute} (hname : a.name.Legible)
    (hallows : ∀ entry ∈ a.declared?, Allows entry.1 (escapeValue entry.2)) (scope : Scope) :
    Namespace.declareOne scope.bindings a.raw =
      .ok (bindings (asWritten a.declared?.toList ++ scope)) := by
  unfold Namespace.declareOne
  rw [show a.raw.key = Bytes.ofString a.name.written from rfl, hname.declared?]
  cases hlabel : a.name.declaredLabel? with
  | none =>
      rw [show a.declared? = none by rw [Attribute.declared?, hlabel]; rfl]
      rfl
  | some label =>
      have hdeclared : a.declared? = some (label, a.value) := by
        rw [Attribute.declared?, hlabel]
        rfl
      have hallow : Allows label (escapeValue a.value) := hallows (label, a.value) hdeclared
      have hnew : bindings (asWritten a.declared?.toList ++ scope) =
          bindings ((label, escapeValue a.value) :: scope) := by
        rw [hdeclared]
        rfl
      rw [hnew, bindings]
      simp only [Option.map_some]
      by_cases hplain : Bytes.ofString a.name.written = Namespace.xmlnsLabel
      · have hempty : label = "" := by
          rw [hname.eq_plain_xmlns hplain] at hlabel
          exact (Option.some.inj hlabel).symm
        rw [if_pos (beq_iff_eq.2 hplain), hempty]
        rfl
      rw [if_neg (by rw [beq_iff_eq]; exact hplain)]
      rcases hallow with hempty | ⟨hxml, huri⟩ | ⟨hxml, hxmlns, hspace, hother⟩
      · exact absurd hempty (hname.ne_empty_of_declaredLabel? hlabel hplain)
      · have hvalue : a.raw.value = Namespace.xmlUri := congrArg Bytes.ofString huri
        rw [if_pos (by rw [hxml]; rfl), if_pos (beq_iff_eq.2 hvalue), if_pos hxml]
      · have h1 : ¬(Bytes.ofString label == Namespace.xmlLabel) = true := by
          rw [beq_iff_eq]
          exact fun heq => hxml (ofString_injective (t := "xml") heq)
        have h2 : ¬(Bytes.ofString label == Namespace.xmlnsLabel ||
            a.raw.value == Namespace.xmlUri || a.raw.value == Namespace.xmlnsUri) = true := by
          rw [Bool.or_eq_true, Bool.or_eq_true, beq_iff_eq, beq_iff_eq, beq_iff_eq]
          rintro ((heq | heq) | heq)
          · exact hxmlns (ofString_injective (t := Name.xmlns) heq)
          · exact hspace (ofString_injective heq)
          · exact hother (ofString_injective heq)
        rw [if_neg h1, if_neg h2, if_neg hxml]
        rfl

/-- `declare` takes the declarations of a written tag, one after the other. -/
theorem declare_raw {attributes : List Attribute} (hnames : ∀ a ∈ attributes, a.name.Legible)
    (hallows : ∀ entry ∈ ofAttributes attributes, Allows entry.1 (escapeValue entry.2))
    (scope : Scope) :
    Namespace.declare scope.bindings (attributes.map Attribute.raw) =
      .ok (bindings (asWritten (ofAttributes attributes) ++ scope)) := by
  unfold Namespace.declare
  induction attributes generalizing scope with
  | nil => rfl
  | cons a attributes ih =>
      rw [ofAttributes_cons] at hallows ⊢
      have hfirst := declareOne_raw (hnames a List.mem_cons_self)
        (fun entry he => hallows entry (List.mem_append_right _ (Option.mem_toList.2 he))) scope
      rw [List.map_cons, List.foldlM_cons, hfirst]
      show List.foldlM _ (bindings (asWritten a.declared?.toList ++ scope)) _ = _
      rw [ih (fun b hb => hnames b (List.mem_cons_of_mem a hb))
        (fun entry he => hallows entry (List.mem_append_left _ he))]
      simp [asWritten]

/-- The tag that one with spelled names stands for, in the scope inside it. -/
def resolveTag (scope : Scope) (tag : StartTag) : StartTag :=
  ⟨scope.resolve false tag.name,
    tag.attributes.map fun a => ⟨scope.resolve true a.name, a.value⟩⟩

theorem readAttributes_raw {scope : Scope} (h : scope.Sound) {attributes : List Attribute}
    (hnames : ∀ a ∈ attributes, a.name.Legible) :
    Decoder.readAttributes .strict scope.bindings (attributes.map Attribute.raw) =
      .ok (attributes.map fun a => ⟨scope.resolve true a.name, a.value⟩) := by
  induction attributes with
  | nil => rfl
  | cons a attributes ih =>
      have hvalue : Reference.readText .strict a.raw.value = .ok a.value :=
        Reference.readText_escapeValue .strict a.value
      have hname : Namespace.attributeName scope.bindings a.raw.key = scope.resolve true a.name :=
        attributeName_written h (hnames a List.mem_cons_self)
      rw [List.map_cons, Decoder.readAttributes, hvalue, hname,
        ih fun b hb => hnames b (List.mem_cons_of_mem a hb)]
      rfl

end Scope

/-- No byte of a `Legible` name is a blank. -/
theorem Name.Legible.not_blank {n : Name} (h : n.Legible) :
    ∀ b ∈ Bytes.ofString n.written, (!Bytes.isBlank b) = true := by
  intro b hb
  rw [isBlank_of_isNameByte (h.isNameByte b hb)]
  rfl

/-- What `printAll` puts after the name of a tag begins with a blank, if there is anything. -/
theorem Attribute.dropWhile_printAll (attributes : List Attribute) :
    (Bytes.ofString (printAll attributes)).dropWhile (fun b => !Bytes.isBlank b) =
        Bytes.ofString (printAll attributes) ∧
      (Bytes.ofString (printAll attributes)).takeWhile (fun b => !Bytes.isBlank b) = [] := by
  cases attributes with
  | nil => exact ⟨rfl, rfl⟩
  | cons a attributes =>
      rw [printAll, Bytes.ofString_append, a.ofString_print]
      exact ⟨rfl, rfl⟩

/-- `openElement` opens the element of a written tag in the scope that the tag makes. -/
theorem Decoder.openElement_tag {scope : Scope} (h : scope.Sound) {tag : StartTag}
    (hname : tag.name.Legible) (hnames : ∀ a ∈ tag.attributes, a.name.Legible)
    (hallows : ∀ entry ∈ tag.declared, Scope.Allows entry.1 (escapeValue entry.2)) :
    Decoder.openElement .strict scope.bindings (Bytes.ofString tag.name.written ++
        Bytes.ofString (Attribute.printAll tag.attributes)) =
      .ok (⟨Bytes.ofString tag.name.written,
          Scope.bindings (tag.declared.asWritten ++ scope)⟩,
        Scope.resolveTag (tag.declared.asWritten ++ scope) tag) := by
  obtain ⟨hdrop, htake⟩ := Attribute.dropWhile_printAll tag.attributes
  have hsound : Scope.Sound (tag.declared.asWritten ++ scope) := by
    refine Scope.Sound.append ?_ h
    intro entry he
    obtain ⟨entry', he', rfl⟩ := List.mem_map.1 he
    exact hallows entry' he'
  have htag : Decoder.tagName (Bytes.ofString tag.name.written ++
      Bytes.ofString (Attribute.printAll tag.attributes)) = Bytes.ofString tag.name.written := by
    rw [Decoder.tagName, List.takeWhile_append_of_pos hname.not_blank, htake, List.append_nil]
  have hdeclare : Namespace.declare scope.bindings (tag.attributes.map Attribute.raw) =
      .ok (Scope.bindings (tag.declared.asWritten ++ scope)) :=
    Scope.declare_raw hnames hallows scope
  unfold Decoder.openElement
  rw [List.dropWhile_append_of_pos hname.not_blank, hdrop, RawAttribute.readAll_printAll hnames,
    htag]
  simp only [OpenElement.name, hdeclare, Scope.readAttributes_raw hsound hnames,
    Scope.elementName_written hsound hname, bind, Except.bind]
  rfl

/-! ### Where reading stands -/

/-- An element whose end was not read yet: its name as it is spelled, and the scope inside it. -/
structure Unclosed where
  /-- The spelled name. -/
  spelled : Name
  /-- The scope. -/
  scope : Scope
  deriving DecidableEq, Repr

/-- The elements that reading is inside of, innermost first. -/
abbrev Reading := List Unclosed

namespace Reading

/-- The prefixes in scope. -/
def scope : Reading → Scope
  | [] => []
  | u :: _ => u.scope

/-- What a start tag opens. -/
def enter (r : Reading) (tag : StartTag) : Reading :=
  ⟨tag.name, tag.declared.asWritten ++ r.scope⟩ :: r

/-- The token that a spelled one stands for. An end tag must repeat the name of the innermost
element. -/
def resolve? (r : Reading) : Token → Option (Token × Reading)
  | .start tag => some (.start ((r.enter tag).scope.resolveTag tag), r.enter tag)
  | .finish name =>
    match r with
    | u :: outer =>
      if u.spelled = name then some (.finish (u.scope.resolve false name), outer) else none
    | [] => none
  | t => some (t, r)

/-- The tokens that spelled ones stand for, if every end tag fits. -/
def resolveAll? (r : Reading) : List Token → Option (List Token × Reading)
  | [] => some ([], r)
  | t :: rest =>
    match r.resolve? t with
    | some (meaning, next) =>
      match resolveAll? next rest with
      | some (more, last) => some (meaning :: more, last)
      | none => none
    | none => none

/-- `resolveAll?` resolves the first token by `resolve?`, and then the others. -/
theorem resolveAll?_cons {r last : Reading} {t : Token} {rest meanings : List Token}
    (h : r.resolveAll? (t :: rest) = some (meanings, last)) :
    ∃ meaning next more, r.resolve? t = some (meaning, next) ∧
      resolveAll? next rest = some (more, last) ∧ meanings = meaning :: more := by
  simp only [resolveAll?] at h
  cases hfirst : r.resolve? t with
  | none => rw [hfirst] at h; exact absurd h.symm (Option.some_ne_none _)
  | some step =>
      obtain ⟨meaning, next⟩ := step
      rw [hfirst] at h
      simp only at h
      cases hrest : resolveAll? next rest with
      | none => rw [hrest] at h; exact absurd h.symm (Option.some_ne_none _)
      | some done =>
          obtain ⟨more, last'⟩ := done
          rw [hrest] at h
          obtain ⟨rfl, rfl⟩ := Prod.mk.inj (Option.some.inj h)
          exact ⟨meaning, next, more, rfl, hrest, rfl⟩

/-- `resolveAll?` resolves one list after the other. -/
theorem resolveAll?_append (r : Reading) (a b : List Token) :
    r.resolveAll? (a ++ b) =
      match r.resolveAll? a with
      | some (first, middle) =>
        match resolveAll? middle b with
        | some (second, last) => some (first ++ second, last)
        | none => none
      | none => none := by
  induction a generalizing r with
  | nil =>
      simp only [List.nil_append, resolveAll?]
      cases r.resolveAll? b <;> rfl
  | cons t a ih =>
      simp only [List.cons_append, resolveAll?]
      cases r.resolve? t with
      | none => rfl
      | some step =>
          obtain ⟨meaning, next⟩ := step
          simp only [ih]
          cases resolveAll? next a with
          | none => rfl
          | some done =>
              obtain ⟨first, middle⟩ := done
              simp only
              cases resolveAll? middle b <;> rfl

end Reading

/-- A spelled token that is read as it is printed and declares nothing that is not allowed. -/
structure Token.Readable (spelled : Token) : Prop extends spelled.Legible where
  /-- Its declarations are taken. -/
  allowed : ∀ tag, spelled = .start tag →
    ∀ entry ∈ tag.declared, Scope.Allows entry.1 (escapeValue entry.2)

/-- No text stands next to another one. -/
def TextsApart (tokens : List Token) : Prop :=
  tokens.IsChain fun a b => a.isText = true → b.isText = false

/-! ### Decoders -/

namespace Decoder

theorem trimEnd_written {n : Name} (h : n.Legible) :
    trimEnd (Bytes.ofString n.written) = Bytes.ofString n.written := by
  unfold trimEnd
  cases hreverse : (Bytes.ofString n.written).reverse with
  | nil => rfl
  | cons b bytes =>
      have hb : Bytes.isBlank b = false := by
        refine isBlank_of_isNameByte (h.isNameByte b (List.mem_reverse.1 ?_))
        rw [hreverse]
        exact List.mem_cons_self
      rw [List.dropWhile_cons, if_neg (by rw [hb]; decide)]
      simp only
      rw [← hreverse, List.reverse_reverse]

/-- A decoder stands where reading stands. -/
structure Sees (d : Decoder) (r : Reading) : Prop where
  /-- It knows the open elements. -/
  opened : d.opened = r.map fun u => ⟨Bytes.ofString u.spelled.written, u.scope.bindings⟩
  /-- No end is due. -/
  due : d.due = none
  /-- The document is there as a whole. -/
  whole : d.block? = none
  /-- All scopes are sound. -/
  sound : ∀ u ∈ r, u.scope.Sound

theorem Sees.scope {d : Decoder} {r : Reading} (h : d.Sees r) :
    d.scope = r.scope.bindings ∧ r.scope.Sound := by
  cases r with
  | nil =>
      refine ⟨?_, fun entry he => absurd he List.not_mem_nil⟩
      rw [Decoder.scope, h.opened]
      rfl
  | cons u outer =>
      refine ⟨?_, h.sound u List.mem_cons_self⟩
      rw [Decoder.scope, h.opened]
      rfl

/-- `piece` gives the token that the lexeme of a printed token stands for, if the decoder `Sees` the
reading. -/
theorem Sees.piece {d : Decoder} {r r' : Reading} (h : d.Sees r) {spelled meaning : Token}
    (hreadable : spelled.Readable) (hmeaning : r.resolve? spelled = some (meaning, r'))
    (taken : Nat) (rest : Bytes) :
    ∃ offset d', d.piece .strict spelled.lexeme taken rest = .event ⟨offset, meaning⟩ d' ∧
      d'.rest = rest ∧ d'.Sees r' := by
  have hplain : ∀ d' : Decoder, d'.opened = d.opened → d'.due = d.due → d'.block? = d.block? →
      d'.Sees r := fun d' hopened hdue hblock =>
    ⟨hopened.trans h.opened, hdue.trans h.due, hblock.trans h.whole, h.sound⟩
  cases spelled with
  | start tag =>
      obtain ⟨hscope, hsound⟩ := h.scope
      have hopen := Decoder.openElement_tag hsound (hreadable.names _ List.mem_cons_self)
        (fun a ha => hreadable.names _ (List.mem_cons_of_mem _ (List.mem_map_of_mem ha)))
        (hreadable.allowed tag rfl)
      simp only [Reading.resolve?, Option.some.injEq, Prod.mk.injEq] at hmeaning
      obtain ⟨rfl, rfl⟩ := hmeaning
      simp only [Token.lexeme, Decoder.piece, hscope, hopen, Bool.false_eq_true, if_false]
      refine ⟨_, _, rfl, rfl, ⟨?_, h.due, h.whole, ?_⟩⟩
      · simp only [Reading.enter, List.map_cons, h.opened]
      · intro u hu
        rcases List.mem_cons.1 hu with rfl | hu
        · refine Scope.Sound.append (fun entry he => ?_) hsound
          obtain ⟨entry', he', rfl⟩ := List.mem_map.1 he
          exact hreadable.allowed tag rfl entry' he'
        · exact h.sound u hu
  | finish name =>
      cases r with
      | nil => exact absurd hmeaning.symm (Option.some_ne_none _)
      | cons u outer =>
          simp only [Reading.resolve?] at hmeaning
          by_cases heq : u.spelled = name
          · rw [if_pos heq, Option.some.injEq, Prod.mk.injEq] at hmeaning
            obtain ⟨rfl, rfl⟩ := hmeaning
            have hname : name.Legible := hreadable.names _ List.mem_cons_self
            have hclose : closeElement d.opened (Bytes.ofString name.written) =
                .ok (⟨Bytes.ofString name.written, u.scope.bindings⟩,
                  outer.map fun u => ⟨Bytes.ofString u.spelled.written, u.scope.bindings⟩) := by
              rw [h.opened, List.map_cons, closeElement, trimEnd_written hname, heq,
                if_pos (beq_self_eq_true _)]
            simp only [Token.lexeme, Decoder.piece, hclose, OpenElement.name,
              Scope.elementName_written (h.sound u List.mem_cons_self) hname]
            exact ⟨_, _, rfl, rfl, rfl, h.due, h.whole,
              fun v hv => h.sound v (List.mem_cons_of_mem u hv)⟩
          · rw [if_neg heq] at hmeaning
            exact absurd hmeaning.symm (Option.some_ne_none _)
  | text content =>
      obtain ⟨rfl, rfl⟩ : Token.text content = meaning ∧ r = r' := by
        simpa [Reading.resolve?] using hmeaning
      simp only [Token.lexeme, Decoder.piece, Reference.readText_escapeText]
      exact ⟨_, _, rfl, rfl, hplain _ rfl rfl rfl⟩
  | cdata content | comment content | instruction content | doctype content =>
      obtain ⟨rfl, rfl⟩ : _ = meaning ∧ r = r' := by
        simpa only [Reading.resolve?, Option.some.injEq, Prod.mk.injEq] using hmeaning
      simp only [Token.lexeme, Decoder.piece, decodeLossy_ofString]
      exact ⟨_, _, rfl, rfl, hplain _ rfl rfl rfl⟩

/-- `step` gives the token that a printed token in front of the decoder stands for. -/
theorem Sees.step {d : Decoder} {r r' : Reading} (h : d.Sees r) {spelled meaning : Token}
    (hreadable : spelled.Readable) (hmeaning : r.resolve? spelled = some (meaning, r'))
    {rest : Bytes} (hd : d.rest = Bytes.ofString spelled.print ++ rest)
    (hrest : spelled.isText = true → rest = [] ∨ ∃ more, rest = Lexeme.opening :: more) :
    ∃ offset d', d.step .strict = .event ⟨offset, meaning⟩ d' ∧ d'.rest = rest ∧ d'.Sees r' := by
  obtain ⟨n, hread⟩ := Lexeme.read_print hreadable.toLegible (d.skipped + d.taken) hrest
  unfold Decoder.step
  rw [h.due, h.whole, hd, hread]
  exact h.piece hreadable hmeaning (d.taken + n) rest

/-- `run` gives the tokens that printed tokens in front of the decoder stand for, and then the end
of the document. -/
theorem Sees.run {d : Decoder} {r : Reading} (h : d.Sees r) {spelled meanings : List Token}
    (hreadable : ∀ t ∈ spelled, t.Readable) (hapart : TextsApart spelled)
    (hmeanings : r.resolveAll? spelled = some (meanings, []))
    (hd : d.rest = Bytes.ofString (Token.printAll spelled)) (seen : List Event) :
    ∃ events, d.run .strict seen = (events ++ seen, none) ∧
      events.reverse.map Event.token = meanings := by
  induction spelled generalizing d r meanings seen with
  | nil =>
      simp only [Reading.resolveAll?, Option.some.injEq, Prod.mk.injEq] at hmeanings
      obtain ⟨rfl, rfl⟩ := hmeanings
      have hstep : d.step .strict = .finished := by
        unfold Decoder.step
        rw [h.due, hd]
        show d.atEnd (d.taken + 0) = .finished
        rw [atEnd, h.opened]
        rfl
      refine ⟨[], ?_, rfl⟩
      rw [Decoder.run]
      split <;> simp_all
  | cons t spelled ih =>
      obtain ⟨meaning, next, more, hmeaning, hall, rfl⟩ := Reading.resolveAll?_cons hmeanings
      rw [Token.printAll, Bytes.ofString_append] at hd
      -- text ends where the markup of the next token begins
      have hrest : t.isText = true → Bytes.ofString (Token.printAll spelled) = [] ∨
          ∃ more, Bytes.ofString (Token.printAll spelled) = Lexeme.opening :: more := by
        intro htext
        cases spelled with
        | nil => exact .inl rfl
        | cons next spelled =>
            have hnext : next.isText = false :=
              (List.isChain_cons_cons.1 hapart).1 htext
            obtain ⟨more, hmore⟩ := Token.ofString_print hnext
            refine .inr ⟨more ++ Bytes.ofString (Token.printAll spelled), ?_⟩
            rw [Token.printAll, Bytes.ofString_append, hmore]
            rfl
      obtain ⟨offset, d', hstep, hd', hsees⟩ :=
        h.step (hreadable t List.mem_cons_self) hmeaning hd hrest
      obtain ⟨events, hrun, hevents⟩ := ih hsees
        (fun u hu => hreadable u (List.mem_cons_of_mem t hu)) (List.IsChain.tail hapart)
        hall hd' (⟨offset, meaning⟩ :: seen)
      refine ⟨events ++ [⟨offset, meaning⟩], ?_, ?_⟩
      · rw [Decoder.run]
        split <;> simp_all
      · rw [List.reverse_append, List.map_append, hevents]
        rfl

end Decoder

/-- `Document.decode` gives the tokens that printed tokens stand for, unless the document begins
with something that is taken for a byte order mark. -/
theorem Document.decode_printAll {spelled meanings : List Token}
    (hreadable : ∀ t ∈ spelled, t.Readable) (hapart : TextsApart spelled)
    (hmeanings : Reading.resolveAll? [] spelled = some (meanings, []))
    (hmark : Bytes.dropRun? Decoder.mark (Bytes.ofString (Token.printAll spelled)) = none) :
    (Document.decode .strict (Bytes.ofString (Token.printAll spelled))).events.map Event.token =
        meanings ∧
      (Document.decode .strict (Bytes.ofString (Token.printAll spelled))).fault? = none := by
  have hsees : Decoder.Sees (Decoder.start none (Bytes.ofString (Token.printAll spelled))) [] := by
    unfold Decoder.start
    rw [hmark]
    exact ⟨rfl, rfl, rfl, fun u hu => absurd hu List.not_mem_nil⟩
  have hrest : (Decoder.start none (Bytes.ofString (Token.printAll spelled))).rest =
      Bytes.ofString (Token.printAll spelled) := by
    unfold Decoder.start
    rw [hmark]
  obtain ⟨events, hrun, hevents⟩ := hsees.run hreadable hapart hmeanings hrest []
  unfold Document.decode Document.ofDecoder
  rw [hrun]
  exact ⟨by rw [List.append_nil]; exact hevents, rfl⟩

end ResourceShards.Markup
