import ResourceShards.Listing.File
import ResourceShards.Proofs.Markup.Tree
import ResourceShards.Proofs.Runs

/-!
# ResourceShards.Proofs.Listing.Declared

**What listing makes of a tree.** The walk of a values document reads views inside views, some to
their end and some only in part. Seen as a tree, the children of the first `<resources>` element are
taken one after the other. Ids come before the attribute that lists them and attributes before their
styleable; elements of a styleable that have no name stand for what they hold.

* `Listing.declared?`, `Listing.child?`: what one child declares
* `Markup.DocumentTree.listed?`: what a document declares
* `Listing.ofFile_lists`: the walk hands out exactly that
-/

namespace ResourceShards

open Markup (Block Document DocumentTree Event Forest Name StartTag View)

/-- `Tag.resources` has no namespace, so `looselyMatches` compares the local part only. -/
theorem Tag.looselyMatches_resources :
    (·.looselyMatches Tag.resources : Name → Bool) = (·.localPart == Tag.resources.localPart) := by
  funext name
  simp [Name.looselyMatches, Tag.resources, Name.plain]

/-! ### The definition on trees -/

namespace Markup.Forest

/-- The named elements at the top of a forest, with what they hold. An element without a name stands
for what it holds. -/
def named : Forest → List (String × Forest)
  | nil => []
  | content _ _ rest => rest.named
  | element _ tag inside _ rest =>
    match Tag.required tag Tag.nameAttribute with
    | .ok key => (key, inside) :: rest.named
    | .error _ => inside.named ++ rest.named

end Markup.Forest

namespace Listing

/-- The id that an enum or flag element declares. -/
def id? (tag : StartTag) : Option Resource := do
  let key ← (Tag.required tag Tag.nameAttribute).toOption
  let name ← (ResourceName.read key .id).toOption
  return { name := name }

/-- The ids of all enum and flag elements, in document order. -/
def ids? (tags : List StartTag) : Option (List Resource) :=
  (tags.filter fun tag => Tag.isEnumOrFlag tag.name).mapM id?

/-- What a named element of a styleable adds to its list, and what it declares: nothing if the
attribute is the platform's own. -/
def attribute? (entry : String × Forest) : Option (String × List Resource) := do
  let name ← (attributeName entry.1).toOption
  if name.package == ResourceName.platformPackage then some (name.text, [])
  else (ids? entry.2.tags).map fun ids => (name.text, ids ++ [{ name := name }])

/-- What an element declares that has a name. -/
def ofNamed? (name : ResourceName) (inside : Forest) : Option (List Resource) :=
  match name.type with
  | .styleable => do
    let attributes ← inside.named.mapM attribute?
    return attributes.flatMap Prod.snd ++
      [{ name := name, styleableAttributes? := some (attributes.map Prod.fst) }]
  | .attr => do return (← ids? inside.tags) ++ [{ name := name }]
  | _ => some [{ name := name }]

/-- What an element declares whose tag tells its type. -/
def declared? (tag : StartTag) (type : ResourceType) (inside : Forest) :
    Option (List Resource) := do
  let key ← (Tag.required tag Tag.nameAttribute).toOption
  let name ← (ResourceName.read key type).toOption
  ofNamed? name inside

/-- What a child of a `<resources>` element declares. -/
def child? (child : StartTag × Forest) : Option (List Resource) :=
  match Tag.declaredType? child.1.name.localPart with
  | some type => declared? child.1 type child.2
  | none =>
    if Tag.isItem child.1.name then (itemName child.1).toOption.map fun name => [{ name := name }]
    else some []

/-- What a document declares whose first `<resources>` element is given: nothing without one. -/
def listedOf? : Option Block → Option (List Resource)
  | none => some []
  | some block => do
    let inside ← block.content?
    return (← inside.children.mapM child?).flatten

end Listing

/-- What a document declares. -/
def Markup.DocumentTree.listed? (t : DocumentTree) : Option (List Resource) :=
  Listing.listedOf? (t.first? (·.looselyMatches Tag.resources) [])

/-! ### The walk -/

namespace Listing

/-- A walk of `enumsAndFlags` that succeeds lists `ids?`. -/
theorem enumsAndFlags_ok {label : String} {v : View} {events : List Event}
    {p q : Progress (List Resource)} {u : Unit}
    (h : enumsAndFlags label Listener.collecting v events p = .ok u q) :
    ∃ ids, ids? (events.filterMap Event.start?) = some ids ∧
      q.listener = ids.reverse ++ p.listener := by
  induction events generalizing p with
  | nil =>
      exact ⟨[], rfl, Reading.exhaust_ok h⟩
  | cons e rest ih =>
      rw [enumsAndFlags] at h
      cases hstart : e.start? with
      | none =>
          simp only [hstart] at h
          rw [List.filterMap_cons_none hstart]
          exact ih h
      | some tag =>
          simp only [hstart] at h
          rw [List.filterMap_cons_some hstart, ids?, List.filter_cons]
          by_cases hmarked : Tag.isEnumOrFlag tag.name = true
          · rw [if_pos hmarked] at h ⊢
            obtain ⟨key, p₁, hkeyed, hrest⟩ := exists_of_bind_ok h
            obtain ⟨hkey, rfl⟩ := Reading.ofExcept_ok hkeyed
            obtain ⟨name, p₂, hnamed, htold⟩ := exists_of_bind_ok hrest
            obtain ⟨hname, rfl⟩ := Reading.ofExcept_ok hnamed
            obtain ⟨u₁, p₃, htell, hwalk⟩ := exists_of_bind_ok htold
            obtain ⟨ids, hids, hout⟩ := ih hwalk
            rw [ids?] at hids
            refine ⟨{ name := name } :: ids, ?_, ?_⟩
            · simp [id?, hkey, hname, hids, Except.toOption]
            · rw [hout, Reading.tell_collecting htell]
              simp
          · rw [if_neg hmarked] at h ⊢
            exact ih h

/-- `enumsAndFlags_ok` over what an element holds: the ids of its own tags, in their order. -/
theorem enumsAndFlags_forest {f : Forest} {label : String} {v : View}
    {p q : Progress (List Resource)} {u : Unit}
    (h : enumsAndFlags label Listener.collecting v f.events p = .ok u q) :
    ∃ ids, ids? f.tags = some ids ∧ q.listener = ids.reverse ++ p.listener := by
  rw [← Forest.filterMap_start?]
  exact enumsAndFlags_ok h

/-- A named element of a styleable is listed as `attribute?` says, and `after` goes on from there.
-/
theorem attribute_ok {β : Type} {place key : String} {inside : Forest} {name : ResourceName}
    {after : Reading (List Resource) β} {p q : Progress (List Resource)} {b : β}
    (hname : attributeName key = .ok name)
    (h : (if name.package == ResourceName.platformPackage then do
        Reading.exhaust ⟨inside.events, true, false⟩
        after
      else do
        enumsAndFlags place Listener.collecting ⟨inside.events, true, false⟩ inside.events
        Reading.tell (Listener.collecting { name := name })
        after) p = .ok b q) :
    ∃ items r, attribute? (key, inside) = some (name.text, items) ∧
      r.listener = items.reverse ++ p.listener ∧ after r = .ok b q := by
  have hentry : attribute? (key, inside) =
      if name.package == ResourceName.platformPackage then some (name.text, [])
      else (ids? inside.tags).map fun ids => (name.text, ids ++ [{ name := name }]) := by
    rw [attribute?, hname]
    rfl
  by_cases hplatform : (name.package == ResourceName.platformPackage) = true
  · rw [if_pos hplatform] at h hentry
    obtain ⟨u, r, hexhaust, hafter⟩ := exists_of_bind_ok h
    exact ⟨[], r, hentry, Reading.exhaust_ok hexhaust, hafter⟩
  · rw [if_neg hplatform] at h hentry
    obtain ⟨u, r, hwalk, hwalked⟩ := exists_of_bind_ok h
    obtain ⟨ids, hids, hout⟩ := enumsAndFlags_forest hwalk
    obtain ⟨u', r', htell, hafter⟩ := exists_of_bind_ok hwalked
    rw [hids, Option.map_some] at hentry
    refine ⟨ids ++ [{ name := name }], r', hentry, ?_, hafter⟩
    rw [Reading.tell_collecting htell, hout]
    simp

/-- `styleableAttributes` lists the named elements of a forest, and goes on with what follows the
forest. -/
theorem styleableAttributes_forest {f : Forest} {more : List Event} {label : String} {v : View}
    {listed result : List String} {p q : Progress (List Resource)}
    (h : styleableAttributes label Listener.collecting v listed (f.events ++ more) p =
      .ok result q) :
    ∃ attributes r, f.named.mapM attribute? = some attributes ∧
      r.listener = (attributes.flatMap Prod.snd).reverse ++ p.listener ∧
      styleableAttributes label Listener.collecting v
        ((attributes.map Prod.fst).reverse ++ listed) more r = .ok result q := by
  induction f generalizing more listed p with
  | nil => exact ⟨[], p, rfl, rfl, h⟩
  | content e plain rest ih =>
      rw [Forest.events, List.cons_append, styleableAttributes] at h
      simp only [attributeKey?, Event.start?_of_names_eq_nil plain] at h
      exact ih h
  | element opening tag inside closing rest ihInside ih =>
      rw [Forest.events, List.cons_append, List.append_assoc, List.cons_append,
        styleableAttributes] at h
      rw [Forest.named]
      cases hkey : Tag.required tag Tag.nameAttribute with
      | error e =>
          -- the element is looked through, and its end tag is passed
          simp only [attributeKey?, Event.start?, hkey] at h ⊢
          obtain ⟨attributes, r, hattributes, hout, h⟩ := ihInside h
          rw [styleableAttributes] at h
          simp only [attributeKey?, Event.start?] at h
          obtain ⟨others, r', hothers, hout', h⟩ := ih h
          refine ⟨attributes ++ others, r', ?_, ?_, ?_⟩
          · simp [hattributes, hothers]
          · rw [hout', hout]
            simp
          · simpa using h
      | ok key =>
          simp only [attributeKey?, Event.start?, hkey, View.enter_element,
            View.leave_element] at h ⊢
          obtain ⟨name, p₁, hnamed, hrest⟩ := exists_of_bind_ok h
          obtain ⟨hname, rfl⟩ := Reading.ofExcept_ok hnamed
          obtain ⟨items, r, hitems, hout, hwalk⟩ := attribute_ok hname hrest
          obtain ⟨attributes, r', hattributes, hout', hend⟩ := ih hwalk
          refine ⟨(name.text, items) :: attributes, r', ?_, ?_, ?_⟩
          · simp [hitems, hattributes]
          · rw [hout', hout]
            simp
          · simpa using hend

/-- A walk of `styleableAttributes` that succeeds lists the named elements of a styleable. -/
theorem styleableAttributes_ok {f : Forest} {label : String} {v : View} {result : List String}
    {p q : Progress (List Resource)}
    (h : styleableAttributes label Listener.collecting v [] f.events p = .ok result q) :
    ∃ attributes, f.named.mapM attribute? = some attributes ∧
      q.listener = (attributes.flatMap Prod.snd).reverse ++ p.listener ∧
      result = attributes.map Prod.fst := by
  rw [← List.append_nil f.events] at h
  obtain ⟨attributes, r, hattributes, hout, hend⟩ := styleableAttributes_forest h
  rw [styleableAttributes] at hend
  obtain ⟨u, r', hexhaust, hlast⟩ := exists_of_bind_ok hend
  cases hlast
  refine ⟨attributes, hattributes, ?_, by simp⟩
  rw [Reading.exhaust_ok hexhaust, hout]

/-- A walk of `declaration` that succeeds lists `declared?`. -/
theorem declaration_ok {label : String} {tag : StartTag} {type : ResourceType} {inside : Forest}
    {v : View} (hv : v.events = inside.events) {p q : Progress (List Resource)} {u : Unit}
    (h : declaration label Listener.collecting tag type v p = .ok u q) :
    ∃ items, declared? tag type inside = some items ∧
      q.listener = items.reverse ++ p.listener := by
  rw [declaration, hv] at h
  obtain ⟨key, p₁, hkeyed, hrest⟩ := exists_of_bind_ok h
  obtain ⟨hkey, rfl⟩ := Reading.ofExcept_ok hkeyed
  obtain ⟨name, p₂, hnamed, hdeclared⟩ := exists_of_bind_ok hrest
  obtain ⟨hname, rfl⟩ := Reading.ofExcept_ok hnamed
  replace hname := Error.eq_ok_of_labelling hname
  have htree : declared? tag type inside = ofNamed? name inside := by
    rw [declared?, hkey]
    show (ResourceName.read key type).toOption.bind _ = _
    rw [hname]
    rfl
  rw [htree, ofNamed?]
  cases htype : name.type with
  | styleable =>
      rw [htype] at hdeclared
      obtain ⟨listed, r, hwalk, htell⟩ := exists_of_bind_ok hdeclared
      obtain ⟨attributes, hattributes, hout, rfl⟩ := styleableAttributes_ok hwalk
      refine ⟨_, by rw [hattributes]; rfl, ?_⟩
      rw [Reading.tell_collecting htell, hout]
      simp
  | attr =>
      rw [htype] at hdeclared
      obtain ⟨u', r, hwalk, htell⟩ := exists_of_bind_ok hdeclared
      obtain ⟨ids, hids, hout⟩ := enumsAndFlags_forest hwalk
      refine ⟨_, by rw [hids]; rfl, ?_⟩
      rw [Reading.tell_collecting htell, hout]
      simp
  | _ =>
      rw [htype] at hdeclared
      exact ⟨_, rfl, by rw [Reading.tell_collecting hdeclared]; rfl⟩

/-- The walk over the children of a `<resources>` element hands out what the first one declares, and
goes on behind it. -/
theorem children_cons {label : String} {v : View} {e : Event} {tag : StartTag} {rest : List Event}
    {p q : Progress (List Resource)} {u : Unit} (hstart : e.start? = some tag)
    (h : children label Listener.collecting v (e :: rest) p = .ok u q) :
    ∃ r, children label Listener.collecting v (View.leave tag.name rest) r = .ok u q ∧
      ∀ inside : Forest, (v.enter tag.name rest).events = inside.events →
        ∃ items, child? (tag, inside) = some items ∧
          r.listener = items.reverse ++ p.listener := by
  rw [children] at h
  unfold child?
  cases htype : Tag.declaredType? tag.name.localPart with
  | some type =>
      simp only [hstart, htype] at h ⊢
      obtain ⟨u₁, p₁, hdeclaration, hafter⟩ := exists_of_bind_ok h
      obtain ⟨u₂, p₂, hexhaust, hrest⟩ := exists_of_bind_ok hafter
      refine ⟨p₂, hrest, fun inside hview => ?_⟩
      obtain ⟨items, hitems, hout⟩ := declaration_ok hview hdeclaration
      exact ⟨items, hitems, by rw [Reading.exhaust_ok hexhaust, hout]⟩
  | none =>
      simp only [hstart, htype] at h ⊢
      by_cases hitem : Tag.isItem tag.name = true
      · rw [if_pos hitem] at h ⊢
        obtain ⟨name, p₁, hnamed, hdeclared⟩ := exists_of_bind_ok h
        obtain ⟨hname, rfl⟩ := Reading.ofExcept_ok hnamed
        obtain ⟨u₁, p₂, htell, hafter⟩ := exists_of_bind_ok hdeclared
        obtain ⟨u₂, p₃, hexhaust, hrest⟩ := exists_of_bind_ok hafter
        refine ⟨p₃, hrest, fun inside _ => ⟨[{ name := name }], by rw [hname]; rfl, ?_⟩⟩
        rw [Reading.exhaust_ok hexhaust, Reading.tell_collecting htell]
        rfl
      · rw [if_neg hitem] at h ⊢
        obtain ⟨u₁, p₁, hexhaust, hrest⟩ := exists_of_bind_ok h
        exact ⟨p₁, hrest, fun inside _ => ⟨[], rfl, Reading.exhaust_ok hexhaust⟩⟩

/-- A walk of `children` that succeeds lists `child?` of each child. -/
theorem children_ok {f : Forest} {label : String} {v : View} {p q : Progress (List Resource)}
    {u : Unit} (h : children label Listener.collecting v f.events p = .ok u q) :
    ∃ lists, f.children.mapM child? = some lists ∧
      q.listener = lists.flatten.reverse ++ p.listener := by
  induction f generalizing p with
  | nil =>
      rw [Forest.events, children] at h
      exact ⟨[], rfl, Reading.exhaust_ok h⟩
  | content e plain rest ih =>
      rw [Forest.events, children] at h
      simp only [Event.start?_of_names_eq_nil plain] at h
      exact ih h
  | element opening tag inside closing rest _ ih =>
      obtain ⟨r, hrest, hchild⟩ := children_cons rfl h
      rw [View.leave_element] at hrest
      obtain ⟨items, hitems, hout⟩ := hchild inside (by rw [View.enter_element])
      obtain ⟨lists, hlists, hout'⟩ := ih hrest
      refine ⟨items :: lists, ?_, ?_⟩
      · simp [Forest.children, hitems, hlists]
      · rw [hout', hout]
        simp

/-- Whoever listens, `children` goes on behind each child. -/
theorem children_rest {σ : Type} {emit : Listener Resource σ} {label : String} {v : View}
    {e : Event} {tag : StartTag} {rest : List Event} {p q : Progress σ} {u : Unit}
    (hstart : e.start? = some tag) (h : children label emit v (e :: rest) p = .ok u q) :
    ∃ r, children label emit v (View.leave tag.name rest) r = .ok u q := by
  rw [children] at h
  cases htype : Tag.declaredType? tag.name.localPart with
  | some type =>
      simp only [hstart, htype] at h
      obtain ⟨u₁, p₁, -, hafter⟩ := exists_of_bind_ok h
      obtain ⟨u₂, p₂, -, hrest⟩ := exists_of_bind_ok hafter
      exact ⟨p₂, hrest⟩
  | none =>
      simp only [hstart, htype] at h
      by_cases hitem : Tag.isItem tag.name = true
      · rw [if_pos hitem] at h
        obtain ⟨name, p₁, -, hdeclared⟩ := exists_of_bind_ok h
        obtain ⟨u₁, p₂, -, hafter⟩ := exists_of_bind_ok hdeclared
        obtain ⟨u₂, p₃, -, hrest⟩ := exists_of_bind_ok hafter
        exact ⟨p₃, hrest⟩
      · rw [if_neg hitem] at h
        obtain ⟨u₁, p₁, -, hrest⟩ := exists_of_bind_ok h
        exact ⟨p₁, hrest⟩

/-- `children` reads its view to the end. -/
theorem ranOut_of_children {σ : Type} {emit : Listener Resource σ} {label : String} {v : View}
    {events : List Event} {p q : Progress σ} {u : Unit} (hfinal : v.final = true)
    (h : children label emit v events p = .ok u q) : q.ranOut = true := by
  induction hn : events.length using Nat.strongRecOn generalizing events p with
  | ind n ih =>
  cases events with
  | nil =>
      rw [children] at h
      exact Reading.ranOut_of_exhaust h hfinal
  | cons e rest =>
      have hlength : rest.length < n := by
        rw [← hn, List.length_cons]
        exact Nat.lt_succ_self _
      cases hstart : e.start? with
      | none =>
          rw [children] at h
          simp only [hstart] at h
          exact ih rest.length hlength h rfl
      | some tag =>
          obtain ⟨r, hrest⟩ := children_rest hstart h
          exact ih _ (Nat.lt_of_le_of_lt (View.length_leave_le tag.name rest) hlength) hrest rfl

/-- The walk of a document hands out what its tree declares. If its `<resources>` element is never
closed, the walk runs out of events. -/
theorem declared_ok {t : DocumentTree} {label : String} {p q : Progress (List Resource)} {u : Unit}
    (h : declared label Listener.collecting (.whole t.events) p = .ok u q) :
    (q.ranOut = true ∧ t.opened ≠ []) ∨
      ∃ items, t.listed? = some items ∧ q.listener = items.reverse ++ p.listener := by
  have hskipped := View.skipTo_tree t Tag.resources []
  unfold declared at h
  rw [DocumentTree.listed?]
  cases hfirst : t.first? (·.looselyMatches Tag.resources) [] with
  | none =>
      rw [hfirst] at hskipped
      simp only [View.whole, hskipped] at h
      exact .inr ⟨[], rfl, Reading.exhaust_ok h⟩
  | some block =>
      rw [hfirst] at hskipped
      obtain ⟨e, following, hskip, hopened, hheads⟩ := hskipped
      simp only [View.whole, hskip] at h
      rw [Block.Heads] at hheads
      cases hcontent : block.content? with
      | none =>
          rw [hcontent] at hheads
          obtain ⟨inner, rfl⟩ := hheads
          rw [View.enter_open] at h
          exact .inl ⟨ranOut_of_children rfl h, hopened hcontent⟩
      | some inside =>
          rw [hcontent] at hheads
          obtain ⟨closing, more, rfl⟩ := hheads
          rw [View.enter_element] at h
          obtain ⟨lists, hlists, hout⟩ := children_ok h
          refine .inr ⟨lists.flatten, ?_, hout⟩
          simp [listedOf?, hcontent, hlists]

/-- A document that `declared` reads without a failure has lists `listed?` of its tree. -/
theorem listed_of_document {doc : Document} {t : DocumentTree} {label : String}
    {onFault : Error → Error} {items : List Resource} {u : Unit} (hevents : t.events = doc.events)
    (hclosed : doc.fault? = none → t.opened = [])
    (h : Reading.document doc onFault (declared label Listener.collecting) [] =
      .ok u items.reverse) : t.listed? = some items := by
  obtain ⟨u', p, hwalk, hlast, hfault⟩ := Reading.document_ok h
  rw [← hevents] at hwalk
  rcases declared_ok hwalk with ⟨hran, hopened⟩ | ⟨items', hitems, hout⟩
  · exact absurd (hclosed (hfault hran)) hopened
  · rw [hitems, ← List.reverse_reverse items, ← hlast, hout]
    simp

/-- The events that `document` reads from a file are those of a `DocumentTree`, which is closed if
there is no fault. -/
theorem exists_tree_of_document {file : ResourceFile} {opened : Opened} {doc : Document}
    (h : document file opened = .ok doc) :
    ∃ t : DocumentTree, t.events = doc.events ∧ (doc.fault? = none → t.opened = []) := by
  unfold document at h
  split at h
  · cases h
    exact Document.exists_tree .lenient none _
  · cases h
  · rename_i found
    cases h
    unfold Document.read
    split
    · exact Document.exists_tree .lenient (some Document.fileBlock) _
    · exact ⟨.whole .nil, rfl, fun _ => rfl⟩

/-- **What a values file lists.** A values file that `ofFile` lists without a failure holds the
document of a tree, and the resources are those that `DocumentTree.listed?` reads off the tree. -/
theorem ofFile_lists {label : String} {file : ResourceFile} {opened : Opened}
    {items : List Resource} (hvalues : file.isValues = true)
    (hread : needsReading file opened = .ok true)
    (hok : ofFile label file opened = (items, .ok ())) :
    ∃ doc, document file opened = .ok doc ∧ (∃ t : DocumentTree, t.events = doc.events) ∧
      ∀ t : DocumentTree, t.events = doc.events → t.listed? = some items := by
  have hself : file.resource? = .ok none := by
    rw [ResourceFile.resource?, if_pos hvalues]
  obtain ⟨u, hrun⟩ := trace_ok hok
  rw [Listing.file, hself, hread] at hrun
  cases hdoc : document file opened with
  | error e =>
      simp only [hdoc] at hrun
      cases hrun
  | ok doc =>
      simp only [hdoc, hvalues, if_true] at hrun
      obtain ⟨t, hevents, hclosed⟩ := exists_tree_of_document hdoc
      refine ⟨doc, rfl, ⟨t, hevents⟩, fun t' hevents' => ?_⟩
      have hopened := DocumentTree.opened_congr (hevents'.trans hevents.symm)
      exact listed_of_document hevents' (fun hnone => hopened.trans (hclosed hnone)) hrun

/-- A values file with ids before their attribute, an element without a name inside a styleable,
attributes of a styleable before it, and an item. -/
def mixedFile : ResourceFile where
  path := Path.ofString "res/values/mixed.xml"
  resDir := Path.ofString "res"
  typeDir := "values"
  type := .values
  qualifier := ""
  density := {}

/-- Its contents. -/
def mixedContents : Bytes :=
  Bytes.ofString <|
    "<resources><attr name=\"a\"><enum name=\"x\"/><flag name=\"y\"/></attr>" ++
      "<declare-styleable name=\"s\"><group><attr name=\"b\"><enum name=\"z\"/></attr></group>" ++
      "<attr name=\"android:c\"/></declare-styleable><item name=\"i\" type=\"string\"/></resources>"

/-- What it declares. -/
def mixedResources : List Resource :=
  [⟨⟨ResourceName.defaultPackage, .id, "x"⟩, none⟩,
    ⟨⟨ResourceName.defaultPackage, .id, "y"⟩, none⟩,
    ⟨⟨ResourceName.defaultPackage, .attr, "a"⟩, none⟩,
    ⟨⟨ResourceName.defaultPackage, .id, "z"⟩, none⟩,
    ⟨⟨ResourceName.defaultPackage, .attr, "b"⟩, none⟩,
    ⟨⟨ResourceName.defaultPackage, .styleable, "s"⟩,
      some ["res-auto:attr/b", "android:attr/c"]⟩,
    ⟨⟨ResourceName.defaultPackage, .string, "i"⟩, none⟩]

theorem ofFile_lists_mixed :
    ofFile "" mixedFile (.given mixedContents) = (mixedResources, .ok ()) ∧
      ∃ t : DocumentTree, t.events = (Document.decode .lenient mixedContents).events ∧
        t.listed? = some mixedResources := by
  have hok : ofFile "" mixedFile (.given mixedContents) = (mixedResources, .ok ()) := by
    decide +kernel
  obtain ⟨doc, hdoc, ⟨t, hevents⟩, hlisted⟩ :=
    ofFile_lists (by decide +kernel) (by decide +kernel) hok
  cases hdoc
  exact ⟨hok, t, hevents, hlisted t hevents⟩

end Listing

end ResourceShards
