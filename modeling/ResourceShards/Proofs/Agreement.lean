import Mathlib.Algebra.Order.Group.Multiset
import ResourceShards.Proofs.Listing.Declared
import ResourceShards.Proofs.Markup.Strictness
import ResourceShards.Proofs.Payload.Extraction

/-!
# ResourceShards.Proofs.Agreement

**Listing and extraction find the same names.** A values file is read twice, by two walks that were
written apart: leniently for the names that it declares, and strictly for the declarations
themselves. What both accept they understand the same way, child by child, up to two things that are
meant to differ. Listing adds the ids of enum and flag elements, and extraction adds the platform's
attributes that a styleable holds. Left out are documents in which the walks look at different
elements: those with a `<resources>` element in a namespace, with items that declare styleables, or
with elements inside a styleable that are no `attr`.

* `Listing.enumIds`, `Payload.platformAttributes`: the names that only one of them has
* `Agrees`: two rows of names that share all others, closed under one row after the other
* `Markup.DocumentTree.Plain`: the documents that both look at in the same places
* `names_agree`: without the names of only one of them the rows are the same
-/

namespace ResourceShards

open Markup (Block Document DocumentTree Encoder Event Forest Name NoneWanted StartTag View Writing)
open Payload (Declared declarationName declaresStyleable)

/-! ### The names that only one of them has -/

namespace Listing

/-- The names of the ids that the enum and flag elements inside an element declare. -/
def idNames (inside : Forest) : List ResourceName :=
  (inside.tags.filter fun tag => Tag.isEnumOrFlag tag.name).filterMap fun tag =>
    (id? tag).map Resource.name

/-- The names of the ids inside an attribute that a styleable holds. The platform's own attributes
are not looked into. -/
def idNamesOfAttribute (inner : StartTag × Forest) : List ResourceName :=
  match declarationName inner.1 with
  | .ok name => if name.package == ResourceName.platformPackage then [] else idNames inner.2
  | .error _ => []

/-- The names of the ids that listing adds for a child of `<resources>`: those inside an attribute,
and those inside the attributes that a styleable holds. Items are not looked into. -/
def enumIds (child : StartTag × Forest) : List ResourceName :=
  if Tag.isItem child.1.name then []
  else
    match declarationName child.1 with
    | .ok name =>
      match name.type with
      | .attr => idNames child.2
      | .styleable => child.2.children.flatMap idNamesOfAttribute
      | _ => []
    | .error _ => []

end Listing

namespace Payload

/-- The name of an element that a styleable holds, if it is one of the platform's. -/
def platformAttribute (inner : StartTag × Forest) : List ResourceName :=
  match declarationName inner.1 with
  | .ok name => if name.package == ResourceName.platformPackage then [name] else []
  | .error _ => []

/-- The names of the platform's attributes that a child of `<resources>` holds as a styleable. -/
def platformAttributes (child : StartTag × Forest) : List ResourceName :=
  if declaresStyleable child.1 then child.2.children.flatMap platformAttribute else []

end Payload

/-- The name of the resource whose declaration is handed out. -/
def Collected.valueName? : Collected → Option ResourceName
  | .rootAttribute _ => none
  | .value name _ => some name

namespace Markup.DocumentTree

/-- The children of the first `<resources>` element, whatever its namespace. -/
def entries (t : DocumentTree) : List (StartTag × Forest) :=
  match (t.first? (·.localPart == Tag.resources.localPart) []).bind Block.content? with
  | some content => content.children
  | none => []

/-- The walks of a document look at the same elements: its first `<resources>` element has no
namespace, items declare no styleables, and elements of a styleable are `attr` elements. -/
structure Plain (t : DocumentTree) : Prop where
  /-- The first `<resources>` element has no namespace. -/
  unqualified : ∀ b, t.first? (·.localPart == Tag.resources.localPart) [] = some b →
    b.tag.name.space = ""
  /-- Items declare no styleables. -/
  items : ∀ child ∈ t.entries, Tag.isItem child.1.name = true → declaresStyleable child.1 = false
  /-- Elements of a styleable are `attr` elements. -/
  attributes : ∀ child ∈ t.entries, declaresStyleable child.1 = true →
    ∀ inner ∈ child.2.children, inner.1.name.localPart = "attr"

end Markup.DocumentTree

/-! ### Rows of names that agree -/

/-- All names that are listed or handed out are shared, in some order, apart from ids that are only
listed and attributes of the platform that are only handed out. -/
def Agrees (listed ids values platform : List ResourceName) : Prop :=
  ∃ shared : Multiset ResourceName,
    (listed : Multiset ResourceName) = ids + shared ∧
      (values : Multiset ResourceName) = platform + shared

namespace Agrees

variable {listed ids values platform listed' ids' values' platform' : List ResourceName}

theorem nil : Agrees [] [] [] [] := ⟨0, rfl, rfl⟩

/-- `Agrees` on ids, which are listed and not handed out. -/
theorem ids_only (ids : List ResourceName) : Agrees ids ids [] [] :=
  ⟨0, (add_zero _).symm, rfl⟩

/-- `Agrees` on an attribute of the platform, which is handed out and not listed. -/
theorem platform_only (name : ResourceName) : Agrees [] [] [name] [name] :=
  ⟨0, rfl, (add_zero _).symm⟩

/-- `Agrees` on a name of both, which is listed after the names inside its element and handed out
before. -/
theorem concat (h : Agrees listed ids values platform) (name : ResourceName) :
    Agrees (listed ++ [name]) ids (name :: values) platform := by
  obtain ⟨shared, hlisted, hvalues⟩ := h
  refine ⟨name ::ₘ shared, ?_, ?_⟩
  · rw [← Multiset.coe_add, hlisted, Multiset.coe_singleton, add_assoc, ← Multiset.singleton_add,
      add_comm shared]
  · rw [← Multiset.cons_coe, hvalues, Multiset.add_cons]

/-- `Agrees` on one row after the other. -/
theorem append (h : Agrees listed ids values platform)
    (h' : Agrees listed' ids' values' platform') :
    Agrees (listed ++ listed') (ids ++ ids') (values ++ values') (platform ++ platform') := by
  obtain ⟨shared, hlisted, hvalues⟩ := h
  obtain ⟨shared', hlisted', hvalues'⟩ := h'
  refine ⟨shared + shared', ?_, ?_⟩
  · rw [← Multiset.coe_add, ← Multiset.coe_add, hlisted, hlisted', add_add_add_comm]
  · rw [← Multiset.coe_add, ← Multiset.coe_add, hvalues, hvalues', add_add_add_comm]

/-- Rows of which it `Agrees` are the same as multisets without the names of only one of them. -/
theorem sub_eq_sub (h : Agrees listed ids values platform) :
    (ids : Multiset ResourceName) ≤ listed ∧ (platform : Multiset ResourceName) ≤ values ∧
      (listed : Multiset ResourceName) - ids = (values : Multiset ResourceName) - platform := by
  obtain ⟨shared, hlisted, hvalues⟩ := h
  rw [hlisted, hvalues]
  refine ⟨Multiset.le_add_right .., Multiset.le_add_right .., ?_⟩
  rw [add_tsub_cancel_left, add_tsub_cancel_left]

end Agrees

/-! ### Lists of options -/

section Options

variable {α β : Type} {f : α → Option β} {a : α} {first items : List α} {result : List β}

theorem exists_of_mapM_cons (h : (a :: items).mapM f = some result) :
    ∃ b rest, f a = some b ∧ items.mapM f = some rest ∧ result = b :: rest := by
  rw [List.mapM_cons] at h
  obtain ⟨b, hb, htail⟩ := Option.bind_eq_some_iff.1 h
  obtain ⟨rest, hrest, hlast⟩ := Option.bind_eq_some_iff.1 htail
  cases hlast
  exact ⟨b, rest, hb, hrest, rfl⟩

theorem exists_of_mapM_append (h : (first ++ items).mapM f = some result) :
    ∃ before after, first.mapM f = some before ∧ items.mapM f = some after ∧
      result = before ++ after := by
  rw [List.mapM_append] at h
  obtain ⟨before, hbefore, htail⟩ := Option.bind_eq_some_iff.1 h
  obtain ⟨after, hafter, hlast⟩ := Option.bind_eq_some_iff.1 htail
  cases hlast
  exact ⟨before, after, hbefore, hafter, rfl⟩

end Options

/-! ### One child -/

namespace Tag

/-- An element with a `declaredType?` is no item. -/
theorem isItem_eq_false {name : Name} {type : ResourceType}
    (h : declaredType? name.localPart = some type) : isItem name = false := by
  cases hitem : isItem name with
  | false => rfl
  | true =>
      obtain ⟨hlocal, -⟩ := Bool.and_eq_true_iff.1 hitem
      rw [beq_iff_eq.1 hlocal] at h
      cases h

/-- An element that `isSkipped` declares nothing. -/
theorem declaredType?_of_isSkipped {name : Name} (h : isSkipped name = true) :
    declaredType? name.localPart = none ∧ isItem name = false := by
  obtain ⟨-, hlocal⟩ := Bool.and_eq_true_iff.1 h
  have hnames : name.localPart = "skip" ∨ name.localPart = "eat-comment" ∨
      name.localPart = "public" := by simpa using hlocal
  rcases hnames with hname | hname | hname
  · exact ⟨by rw [hname]; rfl, by rw [isItem, Name.looselyMatches, hname]; rfl⟩
  · exact ⟨by rw [hname]; rfl, by rw [isItem, Name.looselyMatches, hname]; rfl⟩
  · exact ⟨by rw [hname]; rfl, by rw [isItem, Name.looselyMatches, hname]; rfl⟩

end Tag

namespace Listing

/-- `ids?` lists the ids with the names of `idNames`. -/
theorem names_of_ids {inside : Forest} {ids : List Resource} (h : ids? inside.tags = some ids) :
    ids.map Resource.name = idNames inside := by
  unfold ids? at h
  unfold idNames
  generalize inside.tags.filter (fun tag => Tag.isEnumOrFlag tag.name) = marked at h ⊢
  induction marked generalizing ids with
  | nil =>
      cases h
      rfl
  | cons tag marked ih =>
      obtain ⟨id, rest, hid, hrest, rfl⟩ := exists_of_mapM_cons h
      rw [List.filterMap_cons_some (by rw [hid]; rfl), ← ih hrest]
      rfl

/-- An item is listed with `itemName`, which is the `declarationName` that its declaration is handed
out with. -/
theorem itemName_toOption {tag : StartTag} (h : Tag.isItem tag.name = true) :
    (itemName tag).toOption = (declarationName tag).toOption := by
  unfold itemName declarationName
  simp only [h, if_true]
  cases Tag.required tag Tag.nameAttribute with
  | error e => rfl
  | ok key =>
      cases Tag.required tag Tag.typeAttribute with
      | error e => rfl
      | ok typeName =>
          show (ResourceName.readType typeName.toList >>= _).toOption =
            (ResourceName.readType typeName.toList >>= _).toOption
          cases ResourceName.readType typeName.toList with
          | error e => rfl
          | ok type =>
              show (Error.labelling _ (ResourceName.read key type)).toOption =
                (ResourceName.read key type).toOption
              cases ResourceName.read key type with
              | error e => rfl
              | ok name => rfl

/-- An element whose tag tells the type is listed by `declared?` with the `declarationName` that its
declaration is handed out with. -/
theorem declared?_eq {tag : StartTag} {type : ResourceType} {inside : Forest} {name : ResourceName}
    (htype : Tag.declaredType? tag.name.localPart = some type)
    (hname : declarationName tag = .ok name) :
    declared? tag type inside = ofNamed? name inside := by
  unfold declarationName at hname
  rw [Tag.isItem_eq_false htype, htype] at hname
  unfold declared?
  cases hkey : Tag.required tag Tag.nameAttribute with
  | error e =>
      rw [hkey] at hname
      cases hname
  | ok key =>
      rw [hkey] at hname
      have hread : ResourceName.read key type = .ok name := hname
      show (ResourceName.read key type).toOption.bind _ = _
      rw [hread]
      rfl

end Listing

namespace Payload

/-- The names of declarations, if all have one. -/
def names? (declared : List Declared) : Option (List ResourceName) :=
  declared.mapM fun d => (declarationName d.tag).toOption

/-- Declarations that `collected?` hands out have the names of their elements. -/
theorem names_of_collected {declared : List Declared} {values : List Collected}
    (h : declared.mapM Declared.collected? = some values) :
    names? declared = some (values.filterMap Collected.valueName?) := by
  unfold names?
  induction declared generalizing values with
  | nil =>
      cases h
      rfl
  | cons d declared ih =>
      obtain ⟨value, rest, hvalue, hrest, rfl⟩ := exists_of_mapM_cons h
      obtain ⟨name, hname, hpayload⟩ := Option.bind_eq_some_iff.1 hvalue
      obtain ⟨payload, -, hlast⟩ := Option.bind_eq_some_iff.1 hpayload
      cases hlast
      rw [List.mapM_cons, hname, ih hrest]
      rfl

/-- An `attr` element has the name that its attribute gives it. -/
theorem declarationName_attr {tag : StartTag} {name : ResourceName}
    (htag : tag.name.localPart = "attr") (h : declarationName tag = .ok name) :
    ∃ key, Tag.required tag Tag.nameAttribute = .ok key ∧
      ResourceName.read key .attr = .ok name := by
  have htype : Tag.declaredType? tag.name.localPart = some .attr := by
    rw [htag]
    rfl
  unfold declarationName at h
  rw [Tag.isItem_eq_false htype, htype] at h
  cases hkey : Tag.required tag Tag.nameAttribute with
  | error e =>
      rw [hkey] at h
      cases h
  | ok key =>
      rw [hkey] at h
      exact ⟨key, rfl, h⟩

/-- An element with a `declarationName` is handed out under it. -/
theorem eq_ok_of_toOption {tag : StartTag} {name : ResourceName}
    (h : (declarationName tag).toOption = some name) : declarationName tag = .ok name := by
  cases hname : declarationName tag with
  | error e =>
      rw [hname] at h
      cases h
  | ok found =>
      rw [hname] at h
      cases h
      rfl

/-- An element whose tag tells no type and that is no item has no `declarationName`. -/
theorem declarationName_of_undeclared {tag : StartTag}
    (htype : Tag.declaredType? tag.name.localPart = none) (hitem : Tag.isItem tag.name = false) :
    ∃ e, declarationName tag = .error e := by
  unfold declarationName
  rw [htype, hitem]
  cases Tag.required tag Tag.nameAttribute with
  | error e => exact ⟨e, rfl⟩
  | ok key => exact ⟨_, rfl⟩

theorem declaresStyleable_of_ok {tag : StartTag} {name : ResourceName}
    (h : declarationName tag = .ok name) :
    declaresStyleable tag = (name.type == .styleable) := by
  rw [declaresStyleable, h]

end Payload

namespace Listing

/-- `attributeName` takes a name that its context makes an attribute's. -/
theorem attributeName_of_read {key : String} {name : ResourceName}
    (hread : ResourceName.read key .attr = .ok name) :
    attributeName key =
      if name.type == .attr then .ok name else .error (.wrongType .attr name.text) := by
  unfold attributeName
  rw [hread]
  rfl

/-- What `attribute?` lists for an element inside a styleable: nothing for an attribute of the
platform, else the ids inside and the attribute. -/
theorem attribute?_of_read {key : String} {inside : Forest} {name : ResourceName}
    {entry : String × List Resource} (hread : ResourceName.read key .attr = .ok name)
    (h : attribute? (key, inside) = some entry) :
    name.type = .attr ∧
      if name.package == ResourceName.platformPackage then entry.2 = []
      else entry.2.map Resource.name = idNames inside ++ [name] := by
  unfold attribute? at h
  rw [attributeName_of_read hread] at h
  by_cases htype : (name.type == .attr) = true
  · rw [if_pos htype] at h
    refine ⟨beq_iff_eq.1 htype, ?_⟩
    by_cases hplatform : (name.package == ResourceName.platformPackage) = true
    · rw [if_pos hplatform]
      obtain rfl := Option.some.inj ((if_pos hplatform).symm.trans h)
      rfl
    · rw [if_neg hplatform]
      obtain ⟨ids, hids, rfl⟩ := Option.map_eq_some_iff.1 ((if_neg hplatform).symm.trans h)
      rw [List.map_append, names_of_ids hids]
      rfl
  · rw [if_neg htype] at h
    cases h

end Listing

/-! ### Whole blocks -/

/-- The attributes of a styleable are listed and handed out under the same names: `Agrees` holds of
both rows. -/
theorem attributes_agree {f : Forest} {ancestors : List StartTag} {values : List ResourceName}
    {attributes : List (String × List Resource)}
    (hattr : ∀ inner ∈ f.children, inner.1.name.localPart = "attr")
    (hvalues : Payload.names? (f.declarations ancestors) = some values)
    (hlisted : f.named.mapM Listing.attribute? = some attributes) :
    Agrees ((attributes.flatMap Prod.snd).map Resource.name)
      (f.children.flatMap Listing.idNamesOfAttribute) values
      (f.children.flatMap Payload.platformAttribute) := by
  unfold Payload.names? at hvalues
  induction f generalizing values attributes with
  | nil =>
      cases hvalues
      cases hlisted
      exact .nil
  | content e plain rest ih => exact ih hattr hvalues hlisted
  | element opening tag inside closing rest _ ih =>
      have htag : tag.name.localPart = "attr" := hattr (tag, inside) List.mem_cons_self
      have hskip : ¬Tag.isSkipped tag.name = true := by
        intro hskip
        have hnone := (Tag.declaredType?_of_isSkipped hskip).1
        rw [htag] at hnone
        cases hnone
      rw [Forest.declarations, if_neg hskip] at hvalues
      obtain ⟨name, others, hname, hothers, rfl⟩ := exists_of_mapM_cons hvalues
      replace hname := Payload.eq_ok_of_toOption hname
      obtain ⟨key, hkey, hread⟩ := Payload.declarationName_attr htag hname
      rw [Forest.named, hkey] at hlisted
      obtain ⟨entry, entries, hentry, hentries, rfl⟩ := exists_of_mapM_cons hlisted
      obtain ⟨htype, hnames⟩ := Listing.attribute?_of_read hread hentry
      -- an attribute is no styleable, and is not looked into
      have hplain : declaresStyleable tag = false := by
        rw [Payload.declaresStyleable_of_ok hname, htype]
        rfl
      rw [hplain] at hothers
      have hrest := ih (fun inner hinner => hattr inner (List.mem_cons_of_mem _ hinner)) hothers
        hentries
      rw [List.flatMap_cons, List.map_append]
      show Agrees _ _ ([name] ++ others) _
      refine Agrees.append ?_ hrest
      unfold Listing.idNamesOfAttribute Payload.platformAttribute
      simp only [hname]
      by_cases hplatform : (name.package == ResourceName.platformPackage) = true
      · rw [if_pos hplatform] at hnames ⊢
        rw [if_pos hplatform, hnames]
        exact .platform_only name
      · rw [if_neg hplatform] at hnames ⊢
        rw [if_neg hplatform, hnames]
        exact (Agrees.ids_only _).concat name

/-- What a child of `<resources>` declares is listed and handed out under the same names: `Agrees`
holds of both rows. -/
theorem child_agrees {tag : StartTag} {inside : Forest} {ancestors : List StartTag}
    {name : ResourceName} {values : List ResourceName} {items : List Resource}
    (hitem : Tag.isItem tag.name = true → declaresStyleable tag = false)
    (hattr : declaresStyleable tag = true →
      ∀ inner ∈ inside.children, inner.1.name.localPart = "attr")
    (hname : declarationName tag = .ok name)
    (hvalues : Payload.names?
      (if declaresStyleable tag then inside.declarations ancestors else []) = some values)
    (hlisted : Listing.child? (tag, inside) = some items) :
    Agrees (items.map Resource.name) (Listing.enumIds (tag, inside)) (name :: values)
      (Payload.platformAttributes (tag, inside)) := by
  have hstyleable := Payload.declaresStyleable_of_ok hname
  unfold Listing.child? at hlisted
  unfold Listing.enumIds Payload.platformAttributes
  cases htag : Tag.declaredType? tag.name.localPart with
  | none =>
      -- only an item has a name without a type in its tag
      have his : Tag.isItem tag.name = true := by
        by_contra hno
        obtain ⟨e, he⟩ :=
          Payload.declarationName_of_undeclared htag (Bool.eq_false_iff.2 hno)
        rw [hname] at he
        cases he
      simp only [htag, his, if_true, Listing.itemName_toOption his, hname] at hlisted
      cases hlisted
      rw [hitem his] at hvalues
      cases hvalues
      simp only [his, hitem his, if_true]
      exact Agrees.nil.concat name
  | some type =>
      simp only [htag, Listing.declared?_eq htag hname] at hlisted
      simp only [Tag.isItem_eq_false htag, hname]
      unfold Listing.ofNamed? at hlisted
      cases htype : name.type with
      | styleable =>
          have hyes : declaresStyleable tag = true := by
            rw [hstyleable, htype]
            rfl
          simp only [htype] at hlisted
          rw [hyes] at hvalues ⊢
          obtain ⟨attributes, hattributes, hitems⟩ := Option.bind_eq_some_iff.1 hlisted
          cases hitems
          rw [List.map_append]
          exact (attributes_agree (hattr hyes) hvalues hattributes).concat name
      | attr =>
          simp only [htype] at hlisted
          rw [hstyleable, htype] at hvalues ⊢
          cases hvalues
          obtain ⟨ids, hids, hitems⟩ := Option.bind_eq_some_iff.1 hlisted
          cases hitems
          rw [List.map_append, Listing.names_of_ids hids]
          exact (Agrees.ids_only _).concat name
      | _ =>
          simp only [htype] at hlisted
          rw [hstyleable, htype] at hvalues ⊢
          cases hvalues
          cases hlisted
          exact Agrees.nil.concat name

/-- The children of a `<resources>` element are listed and handed out under the same names. -/
theorem children_agree {f : Forest} {ancestors : List StartTag} {values : List ResourceName}
    {lists : List (List Resource)}
    (hitems : ∀ child ∈ f.children,
      Tag.isItem child.1.name = true → declaresStyleable child.1 = false)
    (hattr : ∀ child ∈ f.children, declaresStyleable child.1 = true →
      ∀ inner ∈ child.2.children, inner.1.name.localPart = "attr")
    (hvalues : Payload.names? (f.declarations ancestors) = some values)
    (hlisted : f.children.mapM Listing.child? = some lists) :
    Agrees (lists.flatten.map Resource.name) (f.children.flatMap Listing.enumIds) values
      (f.children.flatMap Payload.platformAttributes) := by
  unfold Payload.names? at hvalues
  induction f generalizing values lists with
  | nil =>
      cases hvalues
      cases hlisted
      exact .nil
  | content e plain rest ih => exact ih hitems hattr hvalues hlisted
  | element opening tag inside closing rest _ ih =>
      have hmem : (tag, inside) ∈ (Forest.element opening tag inside closing rest).children :=
        List.mem_cons_self
      replace ih := fun {values lists} => @ih values lists
        (fun child hchild => hitems child (List.mem_cons_of_mem _ hchild))
        (fun child hchild => hattr child (List.mem_cons_of_mem _ hchild))
      obtain ⟨items, others, hchild, hothers, rfl⟩ := exists_of_mapM_cons hlisted
      rw [List.flatten_cons, List.map_append]
      rw [Forest.declarations] at hvalues
      by_cases hskip : Tag.isSkipped tag.name = true
      · rw [if_pos hskip] at hvalues
        obtain ⟨htag, hitem⟩ := Tag.declaredType?_of_isSkipped hskip
        obtain ⟨e, he⟩ := Payload.declarationName_of_undeclared htag hitem
        have hnothing : items = [] := by
          simpa [Listing.child?, htag, hitem] using hchild.symm
        have hids : Listing.enumIds (tag, inside) = [] := by
          simp [Listing.enumIds, hitem, he]
        have hplatform : Payload.platformAttributes (tag, inside) = [] := by
          simp [Payload.platformAttributes, declaresStyleable, he]
        rw [Forest.children, List.flatMap_cons, List.flatMap_cons, hnothing, hids, hplatform]
        exact ih hvalues hothers
      · rw [if_neg hskip] at hvalues
        obtain ⟨name, more, hname, hmore, rfl⟩ := exists_of_mapM_cons hvalues
        obtain ⟨inner, outer, hinner, houter, rfl⟩ := exists_of_mapM_append hmore
        have hfirst := child_agrees (hitems _ hmem) (hattr _ hmem)
          (Payload.eq_ok_of_toOption hname) hinner hchild
        exact hfirst.append (ih houter hothers)

/-! ### The same block -/

namespace Tag

theorem localPart_of_isResources {name : Name} (h : isResources name = true) :
    (name.localPart == resources.localPart) = true := by
  rw [beq_iff_eq.1 h]
  rfl

theorem isResources_of_space {name : Name}
    (hlocal : (name.localPart == resources.localPart) = true) (hspace : name.space = "") :
    isResources name = true := by
  obtain ⟨space, localPart⟩ := name
  obtain rfl : space = "" := hspace
  obtain rfl : localPart = resources.localPart := beq_iff_eq.1 hlocal
  rfl

end Tag

/-- The walk of a document without a `<resources>` element runs out of events. -/
theorem Payload.ranOut_of_collectFrom {label : String} {shadow : Encoder} {w : Writing} {v : View}
    {events : List Event} {p q : Progress (List Collected)} {u : Unit} (hat : shadow.At w)
    (hnone : NoneWanted Tag.isResources events) (hfinal : v.final = true)
    (h : collectFrom label Listener.collecting shadow v events p = .ok u q) :
    q.ranOut = true := by
  induction events generalizing shadow w with
  | nil => exact Reading.ranOut_of_exhaust h hfinal
  | cons e rest ih =>
      have hrest : NoneWanted Tag.isResources rest :=
        fun e' he' => hnone e' (List.mem_cons_of_mem e he')
      obtain ⟨shadow', spelled, -, hat', h⟩ := collectFrom_cons hat h
      cases hstart : e.start? with
      | none =>
          simp only [hstart] at h
          exact ih hat' hrest h
      | some tag =>
          simp only [hstart, hnone e List.mem_cons_self tag hstart] at h
          exact ih hat' hrest h

/-- A document without a `<resources>` element is only accepted if nothing is wrong with it. -/
theorem Payload.sound_of_none {label : String} {doc : Document} {items : List Collected}
    (hnone : NoneWanted Tag.isResources doc.events)
    (hok : Listening.trace (ofDocument label doc) = (items, .ok ())) : doc.fault? = none := by
  obtain ⟨u, hrun⟩ := trace_ok hok
  obtain ⟨u', p, hwalk, -, hfault⟩ := Reading.document_ok hrun
  exact hfault (ranOut_of_collectFrom Encoder.at_start hnone rfl hwalk)

namespace Markup

/-- Where the first `<resources>` element has no namespace, it is the first one for either walk. -/
theorem Block.First.isResources {b : Block} {events : List Event}
    (h : b.First (·.localPart == Tag.resources.localPart) events) (hspace : b.tag.name.space = "") :
    b.First Tag.isResources events := by
  obtain ⟨hname, before, offset, following, hbefore, hevents, hheads⟩ := h
  exact ⟨Tag.isResources_of_space hname hspace, before, offset, following,
    hbefore.mono fun _ => Tag.localPart_of_isResources, hevents, hheads⟩

theorem Block.First.not_noneWanted {b : Block} {wanted : Name → Bool} {events : List Event}
    (h : b.First wanted events) : ¬NoneWanted wanted events := by
  intro hnone
  obtain ⟨hname, before, offset, following, -, rfl, -⟩ := h
  have hfalse := hnone ⟨offset, .start b.tag⟩
    (List.mem_append_right _ List.mem_cons_self) b.tag rfl
  rw [hname] at hfalse
  cases hfalse

/-- Either walk finds the same `<resources>` element: where the strict one finds a whole one among
the first events of a document, the lenient one finds it in the document. -/
theorem DocumentTree.Plain.block {t first : DocumentTree} (hplain : t.Plain)
    (hfront : first.events <+: t.events) {b : Block}
    (hb : first.first? Tag.isResources [] = some b) (hclosed : b.content? ≠ none) :
    ∃ b', t.first? (·.localPart == Tag.resources.localPart) [] = some b' ∧
      b'.content? = b.content? := by
  obtain ⟨more, hmore⟩ := hfront
  have hstrict := first.first?_spec Tag.isResources []
  rw [hb] at hstrict
  have hlenient := t.first?_spec (·.localPart == Tag.resources.localPart) []
  cases hfirst : t.first? (·.localPart == Tag.resources.localPart) [] with
  | none =>
      rw [hfirst] at hlenient
      have hwhole := hstrict.append_right hclosed more
      rw [hmore] at hwhole
      exact absurd (hlenient.mono fun _ => Tag.localPart_of_isResources) hwhole.not_noneWanted
  | some b' =>
      rw [hfirst] at hlenient
      have hsame := hlenient.isResources (hplain.unqualified b' hfirst)
      rw [← hmore] at hsame
      exact ⟨b', rfl, hstrict.content?_of_append hclosed hsame⟩

/-- A document without a `<resources>` element is without one for either walk. -/
theorem DocumentTree.Plain.no_block {t : DocumentTree} (hplain : t.Plain)
    (hnone : NoneWanted Tag.isResources t.events) :
    t.first? (·.localPart == Tag.resources.localPart) [] = none := by
  have hspec := t.first?_spec (·.localPart == Tag.resources.localPart) []
  cases hfirst : t.first? (·.localPart == Tag.resources.localPart) [] with
  | none => rfl
  | some b =>
      rw [hfirst] at hspec
      exact absurd hnone (hspec.isResources (hplain.unqualified b hfirst)).not_noneWanted

end Markup

/-! ### Whole documents -/

/-- `listedOf?` is what `child?` lists for each child, one after the other. -/
theorem Listing.lists_of_listedOf? {block : Block} {content : Forest} {listed : List Resource}
    (hcontent : block.content? = some content) (h : listedOf? (some block) = some listed) :
    ∃ lists, content.children.mapM child? = some lists ∧ lists.flatten = listed := by
  rw [listedOf?, hcontent] at h
  obtain ⟨inside, hinside, hrest⟩ := Option.bind_eq_some_iff.1 h
  cases hinside
  obtain ⟨lists, hlists, hflat⟩ := Option.bind_eq_some_iff.1 hrest
  exact ⟨lists, hlists, Option.some.inj hflat⟩

/-- What a document hands out is the attributes of its `<resources>` tag and then the declarations
inside. -/
theorem Markup.values_of_collectedOf? {block : Block} {collected : List Collected}
    (h : Markup.collectedOf? (some block) = some collected) :
    ∃ content values, block.content? = some content ∧
      (content.declarations (block.ancestors ++ [block.tag])).mapM Declared.collected? =
        some values ∧
      collected = block.tag.attributes.map Collected.rootAttribute ++ values := by
  obtain ⟨content, hcontent, hitems⟩ := Option.bind_eq_some_iff.1 h
  obtain ⟨values, hvalues, hall⟩ := Option.bind_eq_some_iff.1 hitems
  exact ⟨content, values, hcontent, hvalues, (Option.some.inj hall).symm⟩

/-- Attributes of the `<resources>` tag are no values. -/
theorem Collected.valueNames_rootAttribute (attributes : List Markup.Attribute) :
    (attributes.map Collected.rootAttribute).filterMap Collected.valueName? = [] := by
  rw [List.filterMap_map]
  exact List.filterMap_eq_nil_iff.2 fun _ _ => rfl

/-- Where `Listing.declared` and `Payload.ofDocument` both accept the document of a `Plain` tree,
they find the same names in it: what is listed without the `Listing.enumIds` is what is handed out
without the `Payload.platformAttributes` inside styleables. -/
theorem names_agree {label place : String} {onFault : Error → Error} {block? : Option Nat}
    {bytes : Bytes} {listed : List Resource} {collected : List Collected} {t : DocumentTree}
    (hlisted : Listening.trace (fun emit =>
      Reading.document (.ofDecoder .lenient (.start block? bytes)) onFault
        (Listing.declared label emit)) = (listed, .ok ()))
    (hcollected : Listening.trace
      (Payload.ofDocument place (.ofDecoder .strict (.start block? bytes))) = (collected, .ok ()))
    (ht : t.events = (Document.ofDecoder .lenient (.start block? bytes)).events)
    (hplain : t.Plain) :
    let names : Multiset ResourceName := listed.map Resource.name
    let valueNames : Multiset ResourceName := collected.filterMap Collected.valueName?
    let ids : Multiset ResourceName := t.entries.flatMap Listing.enumIds
    let platform : Multiset ResourceName := t.entries.flatMap Payload.platformAttributes
    ids ≤ names ∧ platform ≤ valueNames ∧ names - ids = valueNames - platform := by
  suffices hagrees : Agrees (listed.map Resource.name) (t.entries.flatMap Listing.enumIds)
      (collected.filterMap Collected.valueName?)
      (t.entries.flatMap Payload.platformAttributes) from hagrees.sub_eq_sub
  obtain ⟨u, hrun⟩ := trace_ok hlisted
  obtain ⟨t', hevents', hclosed⟩ := Document.exists_tree .lenient block? bytes
  have hopened := DocumentTree.opened_congr (ht.trans hevents'.symm)
  have htree := Listing.listed_of_document ht (fun hnone => hopened.trans (hclosed hnone)) hrun
  rw [DocumentTree.listed?, Tag.looselyMatches_resources] at htree
  obtain ⟨⟨strict, hstrict⟩, hextracts⟩ := Payload.ofDocument_extracts hcollected
  have hvalues := hextracts strict hstrict
  rw [DocumentTree.collected?] at hvalues
  have hfront : strict.events <+: t.events := by
    rw [hstrict, ht]
    exact Document.strict_prefix _
  unfold DocumentTree.entries
  cases hfirst : strict.first? Tag.isResources [] with
  | none =>
      rw [hfirst] at hvalues
      cases hvalues
      -- a document without a block is read to its end, so that nothing follows the first events
      have hnone := strict.first?_spec Tag.isResources []
      rw [hfirst, hstrict] at hnone
      have hsame : t.events = (Document.ofDecoder .strict (.start block? bytes)).events := by
        rw [ht, Document.lenient_of_sound (Payload.sound_of_none hnone hcollected)]
      rw [← hsame] at hnone
      rw [hplain.no_block hnone] at htree ⊢
      cases htree
      exact .nil
  | some b =>
      rw [hfirst] at hvalues
      obtain ⟨content, values, hcontent, hpaid, rfl⟩ := Markup.values_of_collectedOf? hvalues
      have hwhole : b.content? ≠ none := by
        rw [hcontent]
        exact Option.some_ne_none content
      obtain ⟨b', hb', hsame⟩ := hplain.block hfront hfirst hwhole
      rw [hcontent] at hsame
      have hentries : t.entries = content.children := by
        rw [DocumentTree.entries, hb', Option.bind_some, hsame]
      rw [hb'] at htree ⊢
      obtain ⟨lists, hlists, rfl⟩ := Listing.lists_of_listedOf? hsame htree
      rw [Option.bind_some, hsame, List.filterMap_append, Collected.valueNames_rootAttribute,
        List.nil_append]
      refine children_agree ?_ ?_ (Payload.names_of_collected hpaid) hlists
      · rw [← hentries]
        exact hplain.items
      · rw [← hentries]
        exact hplain.attributes

/-! ### A document with both kinds of names -/

/-- A styleable around an attribute with an id and an attribute of the platform, and an item. -/
def sharedDocument : Bytes :=
  Bytes.ofString <|
    "<resources><declare-styleable name=\"s\"><attr name=\"a\"><enum name=\"x\"/></attr>" ++
      "<attr name=\"android:b\"/></declare-styleable><item name=\"i\" type=\"string\"/></resources>"

/-- A tag without namespaces. -/
def plainTag (localPart : String) (attributes : List (String × String)) : StartTag :=
  ⟨.plain localPart, attributes.map fun a => ⟨.plain a.1, a.2⟩⟩

/-- What the styleable holds. -/
def sharedAttributes : Forest :=
  .element 54 (plainTag "attr" [("name", "a")])
      (.element 70 (plainTag "enum" [("name", "x")]) .nil 70 .nil) 77 <|
    .element 101 (plainTag "attr" [("name", "android:b")]) .nil 101 .nil

/-- The document as a tree. -/
def sharedTree : DocumentTree :=
  .whole <| .element 11 (plainTag "resources" [])
    (.element 39 (plainTag "declare-styleable" [("name", "s")]) sharedAttributes 121 <|
      .element 151 (plainTag "item" [("name", "i"), ("type", "string")]) .nil 151 .nil)
    163 .nil

/-- What is listed. -/
def sharedListing : List Resource :=
  [⟨⟨ResourceName.defaultPackage, .id, "x"⟩, none⟩,
    ⟨⟨ResourceName.defaultPackage, .attr, "a"⟩, none⟩,
    ⟨⟨ResourceName.defaultPackage, .styleable, "s"⟩, some ["res-auto:attr/a", "android:attr/b"]⟩,
    ⟨⟨ResourceName.defaultPackage, .string, "i"⟩, none⟩]

/-- What is handed out. -/
def sharedValues : List Collected :=
  [.value ⟨ResourceName.defaultPackage, .styleable, "s"⟩ (Bytes.ofString <|
      "<declare-styleable name=\"s\"><attr name=\"a\"><enum name=\"x\"></enum></attr>" ++
        "<attr name=\"android:b\"></attr></declare-styleable>"),
    .value ⟨ResourceName.defaultPackage, .attr, "a"⟩
      (Bytes.ofString "<attr name=\"a\"><enum name=\"x\"></enum></attr>"),
    .value ⟨ResourceName.platformPackage, .attr, "b"⟩
      (Bytes.ofString "<attr name=\"android:b\"></attr>"),
    .value ⟨ResourceName.defaultPackage, .string, "i"⟩
      (Bytes.ofString "<item name=\"i\" type=\"string\"></item>")]

theorem names_agree_shared :
    sharedTree.Plain ∧
      sharedTree.entries.flatMap Listing.enumIds = [⟨ResourceName.defaultPackage, .id, "x"⟩] ∧
      sharedTree.entries.flatMap Payload.platformAttributes =
        [⟨ResourceName.platformPackage, .attr, "b"⟩] ∧
      (sharedListing.map Resource.name : Multiset ResourceName) -
          sharedTree.entries.flatMap Listing.enumIds =
        (sharedValues.filterMap Collected.valueName? : Multiset ResourceName) -
          sharedTree.entries.flatMap Payload.platformAttributes := by
  have hlisted : Listening.trace (fun emit =>
      Reading.document (.ofDecoder .lenient (.start none sharedDocument)) id
        (Listing.declared "" emit)) = (sharedListing, .ok ()) := by decide +kernel
  have hcollected : Listening.trace
      (Payload.ofDocument "" (.ofDecoder .strict (.start none sharedDocument))) =
        (sharedValues, .ok ()) := by decide +kernel
  have htree : sharedTree.events =
      (Document.ofDecoder .lenient (.start none sharedDocument)).events := by decide +kernel
  have hplain : sharedTree.Plain := by
    constructor
    · rintro b ⟨⟩
      rfl
    · intro child hchild hitem
      have hnone : sharedTree.entries.all fun child =>
          !Tag.isItem child.1.name || !declaresStyleable child.1 := by decide +kernel
      simpa [hitem] using List.all_eq_true.1 hnone child hchild
    · intro child hchild hstyleable inner hinner
      have hall : sharedTree.entries.all fun child => !declaresStyleable child.1 ||
          child.2.children.all fun inner => inner.1.name.localPart == "attr" := by decide +kernel
      have hthis := List.all_eq_true.1 hall child hchild
      rw [hstyleable] at hthis
      exact beq_iff_eq.1 (List.all_eq_true.1 hthis inner hinner)
  refine ⟨hplain, by decide +kernel, by decide +kernel, ?_⟩
  exact (names_agree hlisted hcollected htree hplain).2.2

end ResourceShards
