import ResourceShards.Listing.File
import ResourceShards.Proofs.Resource.FullForm
import ResourceShards.Proofs.Runs

/-!
# ResourceShards.Proofs.Listing.MadeIds

**Which ids a document makes.** An attribute makes a resource if its value begins with `@+id`. Where
a `/` follows, the rest of the value names an id, in a package of its own if it carries one. Where
something else follows, the value is read as any other reference: `@+idle` makes an id called
`idle`, and `@+id:string/ok` no id at all, but a string.

* `Listing.newId?`, `Listing.idNamed`: the form `@+id/...`, and the id that it names
* `Listing.Makes`: what an attribute with the marker makes
* `Listing.inlineIds_ok`: what the walk of a document makes
* `Listing.ofFile_newIds_iff`: which documents make the ids of that form and nothing else
-/

namespace ResourceShards

open Markup (Attribute Document Event View)

namespace Listing

/-! ### The form of a new id -/

/-- What stands behind the marker in a value of the form `@+id/...`. -/
def newId? (value : String) : Option (List Char) :=
  match value.toList with
  | '@' :: '+' :: 'i' :: 'd' :: '/' :: text => some text
  | _ => none

/-- The id that such a text names: in the package before its first `:`, if it carries one. -/
def idNamed (text : List Char) : ResourceName :=
  match ResourceName.cut ':' text with
  | some (package, name) => ⟨ResourceName.packageOf package, .id, String.ofList name⟩
  | none => ⟨ResourceName.defaultPackage, .id, String.ofList text⟩

/-- Whether a value begins with the marker, whatever follows. -/
def isMarked (value : String) : Bool :=
  "@+id".toList.isPrefixOf value.toList

/-- A value that begins with the marker and is not of the form. -/
def StrayMarker (value : String) : Prop :=
  isMarked value = true ∧ newId? value = none

/-- A marked value makes what it says without the `+`, as a reference to an id; of the form, it
makes the id that is named. -/
structure Makes (value : String) (made : ResourceName) : Prop where
  /-- It is read as a reference. -/
  read : ∃ rest, value.toList = '@' :: '+' :: 'i' :: 'd' :: rest ∧
    ResourceName.read (String.ofList ('@' :: 'i' :: 'd' :: rest)) .id = .ok made
  /-- If it is of the form, the reference means what it names. -/
  named : ∀ text, newId? value = some text → made = idNamed text

/-- `dropSigil` leaves the `id` of a reference to an id. -/
theorem dropSigil_id (text : List Char) :
    ResourceName.dropSigil (String.ofList ('@' :: 'i' :: 'd' :: '/' :: text)) =
      ['i', 'd'] ++ '/' :: text := by
  have hsize : 2 < (String.ofList ('@' :: 'i' :: 'd' :: '/' :: text)).utf8ByteSize := by
    have hfront : "@id/".utf8ByteSize = 4 := by decide
    have happend : String.ofList ('@' :: 'i' :: 'd' :: '/' :: text) =
        "@id/" ++ String.ofList text := by
      rw [← String.toList_inj]
      simp
    rw [happend, String.utf8ByteSize_append]
    omega
  rw [ResourceName.dropSigil, String.toList_ofList]
  exact if_pos (by rw [decide_eq_true hsize]; rfl)

/-- The parts of a reference to an id. A package may not hold a `/`. -/
theorem parts_id (text : List Char) :
    ResourceName.parts (String.ofList ('@' :: 'i' :: 'd' :: '/' :: text)) .id =
      match ResourceName.cut ':' text with
      | none => .ok ([], .id, text)
      | some (package, name) =>
        if package.contains '/' then
          .error (.malformedName (String.ofList ('@' :: 'i' :: 'd' :: '/' :: text)))
        else .ok (package, .id, name) := by
  have hslash : ResourceName.cut '/' (['i', 'd'] ++ '/' :: text) = some (['i', 'd'], text) :=
    ResourceName.cut_append text (by decide)
  have htype : ResourceName.readType ['i', 'd'] = .ok .id :=
    ResourceName.readType_name (show ResourceType.id ≠ .values by decide)
  unfold ResourceName.parts
  simp only [dropSigil_id, hslash]
  cases hcut : ResourceName.cut ':' text with
  | none =>
      have hcolon : ResourceName.cut ':' (['i', 'd'] ++ '/' :: text) = none := by
        refine ResourceName.cut_of_not_mem ?_
        simp [ResourceName.cut_eq_none hcut]
      simp only [hcolon, htype]
      rfl
  | some found =>
      obtain ⟨package, name⟩ := found
      obtain ⟨rfl, hpackage⟩ := ResourceName.cut_eq_some hcut
      have hcolon : ResourceName.cut ':' (['i', 'd'] ++ '/' :: (package ++ ':' :: name)) =
          some (['i', 'd'] ++ '/' :: package, name) := by
        have hfront : ':' ∉ ['i', 'd'] ++ '/' :: package := by simp [hpackage]
        rw [← ResourceName.cut_append name hfront]
        simp
      have htake := ResourceName.takeWhile_of_not_mem name hpackage
      have hlater : ¬('i' :: 'd' :: '/' :: package).length < ['i', 'd'].length := by simp
      rw [hcolon]
      simp only [List.cons_append, List.nil_append]
      rw [if_neg hlater, htype]
      simp only [bind, Except.bind, htake]
      split <;> rfl

/-- A reference to an id is read as `idNamed` says. -/
theorem read_id {text : List Char} {made : ResourceName}
    (h : ResourceName.read (String.ofList ('@' :: 'i' :: 'd' :: '/' :: text)) .id = .ok made) :
    made = idNamed text := by
  rw [ResourceName.read_eq, parts_id] at h
  unfold idNamed
  cases hcut : ResourceName.cut ':' text with
  | none =>
      simp only [hcut] at h
      split at h
      · cases h
      · split at h
        · cases h
        · cases h
          rfl
  | some found =>
      obtain ⟨package, name⟩ := found
      simp only [hcut] at h
      split at h
      · cases h
      · rename_i hparts
        split at hparts
        · cases hparts
        · cases hparts
          split at h
          · cases h
          · split at h
            · cases h
            · cases h
              rfl

/-- An attribute whose value is not marked has no `madeId?`. -/
theorem madeId?_of_not_marked {a : Attribute} (h : isMarked a.value = false) :
    madeId? a = none := by
  unfold madeId?
  split
  · rename_i rest hvalue
    rw [isMarked, hvalue] at h
    simp at h
  · rfl

/-- A marked value is refused, or its `madeId?` is what it `Makes`. -/
theorem madeId?_of_marked {a : Attribute} (h : isMarked a.value = true) :
    ∃ outcome, madeId? a = some outcome ∧ ∀ made, outcome = .ok made → Makes a.value made := by
  obtain ⟨rest, hrest⟩ := List.isPrefixOf_iff_prefix.1 h
  have hvalue : a.value.toList = '@' :: '+' :: 'i' :: 'd' :: rest := hrest.symm
  refine ⟨_, by simp only [madeId?, hvalue]; rfl, fun made hmade => ?_⟩
  have hread := Error.eq_ok_of_labelling hmade
  refine ⟨⟨rest, hvalue, hread⟩, fun text htext => ?_⟩
  unfold newId? at htext
  split at htext
  · rename_i text' hform
    obtain rfl := Option.some.inj htext
    obtain rfl : rest = '/' :: text' := by
      rw [hvalue] at hform
      simpa using hform
    exact read_id hread
  · cases htext

/-! ### The walk -/

/-- What some values make, one after the other. -/
inductive MakeAll : List String → List ResourceName → Prop
  /-- No value is left. -/
  | nil : MakeAll [] []
  /-- A value that is not marked makes nothing. -/
  | skip {value : String} {rest : List String} {made : List ResourceName}
      (hvalue : isMarked value = false) (hrest : MakeAll rest made) : MakeAll (value :: rest) made
  /-- A value that is marked makes a resource. -/
  | make {value : String} {name : ResourceName} {rest : List String} {made : List ResourceName}
      (hvalue : isMarked value = true) (hname : Makes value name) (hrest : MakeAll rest made) :
      MakeAll (value :: rest) (name :: made)

theorem MakeAll.append {values values' : List String} {made made' : List ResourceName}
    (h : MakeAll values made) (h' : MakeAll values' made') :
    MakeAll (values ++ values') (made ++ made') := by
  induction h with
  | nil => exact h'
  | skip hvalue _ ih => exact .skip hvalue ih
  | make hvalue hname _ ih => exact .make hvalue hname ih

/-- A walk of `attributeIds` that succeeds lists what the values of the attributes make. -/
theorem attributeIds_ok {label : String} {attributes : List Attribute}
    {p q : Progress (List Resource)} {u : Unit}
    (h : attributeIds label Listener.collecting attributes p = .ok u q) :
    ∃ made, MakeAll (attributes.map Attribute.value) made ∧
      q.listener = (made.map fun name => { name := name }).reverse ++ p.listener := by
  induction attributes generalizing p with
  | nil =>
      cases h
      exact ⟨[], .nil, rfl⟩
  | cons a rest ih =>
      rw [attributeIds] at h
      cases hmarked : isMarked a.value with
      | false =>
          simp only [madeId?_of_not_marked hmarked] at h
          obtain ⟨made, hmade, hlistener⟩ := ih h
          exact ⟨made, .skip hmarked hmade, hlistener⟩
      | true =>
          obtain ⟨outcome, houtcome, hmakes⟩ := madeId?_of_marked hmarked
          simp only [houtcome] at h
          obtain ⟨name, p₁, hname, htold⟩ := exists_of_bind_ok h
          obtain ⟨rfl, rfl⟩ := Reading.ofExcept_ok hname
          obtain ⟨u₂, p₂, htell, hrest⟩ := exists_of_bind_ok htold
          obtain ⟨made, hmade, hlistener⟩ := ih hrest
          refine ⟨name :: made, .make hmarked (hmakes name rfl) hmade, ?_⟩
          rw [hlistener, Reading.tell_collecting htell]
          simp

/-- The values of the attributes in a document, in document order. -/
def attributeValues (events : List Event) : List String :=
  events.flatMap fun e => e.attributes.map Attribute.value

/-- A walk of `inlineIds` that succeeds lists what all attributes of the document make, and comes to
its end. -/
theorem inlineIds_ok {label : String} {v : View} {events : List Event}
    {p q : Progress (List Resource)} {u : Unit} (hfinal : v.final = true)
    (h : inlineIds label Listener.collecting v events p = .ok u q) :
    q.ranOut = true ∧ ∃ made, MakeAll (attributeValues events) made ∧
      q.listener = (made.map fun name => { name := name }).reverse ++ p.listener := by
  induction events generalizing p with
  | nil => exact ⟨Reading.ranOut_of_exhaust h hfinal, [], .nil, Reading.exhaust_ok h⟩
  | cons e rest ih =>
      rw [inlineIds] at h
      obtain ⟨u₁, p₁, hfirst, hrest⟩ := exists_of_bind_ok h
      obtain ⟨made, hmade, hlistener⟩ := attributeIds_ok hfirst
      obtain ⟨hran, more, hmore, hlistener'⟩ := ih hrest
      refine ⟨hran, made ++ more, hmade.append hmore, ?_⟩
      rw [hlistener', hlistener]
      simp

/-! ### What is made and what is named -/

theorem newId?_of_not_marked {value : String} (h : isMarked value = false) :
    newId? value = none := by
  unfold newId?
  split
  · rename_i text hvalue
    rw [isMarked, hvalue] at h
    simp at h
  · rfl

/-- Values that name a `newId?` are marked, so there are no more of them than are made. -/
theorem MakeAll.length_named_le {values : List String} {made : List ResourceName}
    (h : MakeAll values made) : (values.filterMap newId?).length ≤ made.length := by
  induction h with
  | nil => exact Nat.le_refl 0
  | skip hvalue _ ih =>
      rw [List.filterMap_cons_none (newId?_of_not_marked hvalue)]
      exact ih
  | @make value name rest made hvalue hname _ ih =>
      cases hform : newId? value with
      | none =>
          rw [List.filterMap_cons_none hform]
          exact Nat.le_succ_of_le ih
      | some text =>
          rw [List.filterMap_cons_some hform]
          exact Nat.succ_le_succ ih

/-- What is made is what the values with a `newId?` name, exactly if there is no `StrayMarker`. -/
theorem MakeAll.eq_named_iff {values : List String} {made : List ResourceName}
    (h : MakeAll values made) :
    made = (values.filterMap newId?).map idNamed ↔ ∀ value ∈ values, ¬StrayMarker value := by
  induction h with
  | nil => simp
  | skip hvalue _ ih =>
      rw [List.filterMap_cons_none (newId?_of_not_marked hvalue), ih, List.forall_mem_cons]
      simp [StrayMarker, hvalue]
  | @make value name rest made hvalue hname hrest ih =>
      cases hform : newId? value with
      | none =>
          -- one resource too many is made
          have hfew := hrest.length_named_le
          rw [List.filterMap_cons_none hform]
          constructor
          · intro heq
            have hlength := congrArg List.length heq
            simp only [List.length_cons, List.length_map] at hlength
            omega
          · intro hnone
            exact absurd ⟨hvalue, hform⟩ (hnone value List.mem_cons_self)
      | some text =>
          rw [List.filterMap_cons_some hform, List.map_cons, hname.named text hform,
            List.cons.injEq, List.forall_mem_cons, ih]
          simp [StrayMarker, hform]

/-! ### Files -/

/-- **Which ids a document makes.** A file that is read as a document and is a resource itself, and
that `ofFile` lists without a failure, gives that resource and then one for each attribute whose
value begins with `@+id`, in document order: the `newId?` that the value names if it has the form
`@+id/...`, and otherwise what it means as a reference. These are the ids of that form and nothing
else exactly if no value has a `StrayMarker`, the marker in front of anything else than a `/`. -/
theorem ofFile_newIds_iff {label : String} {f : ResourceFile} {opened : Opened}
    {items : List Resource} (hvalues : f.isValues = false)
    (hread : needsReading f opened = .ok true)
    (hok : ofFile label f opened = (items, .ok ())) :
    ∃ doc self made, document f opened = .ok doc ∧ doc.fault? = none ∧
      f.resource? = .ok (some self) ∧
      items = ⟨self, none⟩ :: made.map (⟨·, none⟩) ∧
      MakeAll (attributeValues doc.events) made ∧
      (made = ((attributeValues doc.events).filterMap newId?).map idNamed ↔
        ∀ value ∈ attributeValues doc.events, ¬StrayMarker value) := by
  obtain ⟨u, hrun⟩ := trace_ok hok
  unfold file at hrun
  cases hself : f.resource? with
  | error e =>
      rw [hself] at hrun
      cases hrun
  | ok self? =>
      have hsome : ∃ self, self? = some self := by
        rw [ResourceFile.resource?, if_neg (by simp [hvalues])] at hself
        split at hself
        · cases hself
          exact ⟨_, rfl⟩
        · cases hself
      obtain ⟨self, rfl⟩ := hsome
      rw [hself, hread] at hrun
      obtain ⟨u₁, before, hfirst, hdocument⟩ := exists_of_bind_ok hrun
      cases hfirst
      cases hdoc : document f opened with
      | error e =>
          simp only [hdoc] at hdocument
          cases hdocument
      | ok doc =>
          simp only [hdoc, hvalues] at hdocument
          obtain ⟨u₂, p, hwalk, hlast, hfault⟩ := Reading.document_ok hdocument
          obtain ⟨hran, made, hmade, hlistener⟩ := inlineIds_ok rfl hwalk
          refine ⟨doc, self, made, rfl, hfault hran, rfl, ?_, hmade, hmade.eq_named_iff⟩
          rw [← List.reverse_reverse items, ← hlast, hlistener]
          simp

/-- A layout. -/
def layoutFile : ResourceFile where
  path := Path.ofString "res/layout/a.xml"
  resDir := Path.ofString "res"
  typeDir := "layout"
  type := .layout
  qualifier := ""
  density := {}

/-- A document whose first marker is not followed by a `/`: it makes a string. -/
def strayContents : Bytes :=
  Bytes.ofString "<a x=\"@+id:string/ok\"><b y=\"@+id/p:one\" z=\"@id/two\"/></a>"

/-- What such a layout gives. -/
def strayResources : List Resource :=
  [⟨⟨ResourceName.defaultPackage, .layout, "a"⟩, none⟩, ⟨⟨"id", .string, "ok"⟩, none⟩,
    ⟨⟨"p", .id, "one"⟩, none⟩]

/-- A marker without a `/` is not left alone: what the attributes make is not what those of the form
`@+id/...` name. -/
theorem ofFile_newIds_iff_stray :
    ResourceFile.ofPath (Path.ofString "res/layout/a.xml") = .ok layoutFile ∧
      ofFile "" layoutFile (.given strayContents) = (strayResources, .ok ()) ∧
      ∃ doc made, document layoutFile (.given strayContents) = .ok doc ∧
        MakeAll (attributeValues doc.events) made ∧
        made ≠ ((attributeValues doc.events).filterMap newId?).map idNamed := by
  have hok : ofFile "" layoutFile (.given strayContents) = (strayResources, .ok ()) := by
    decide +kernel
  refine ⟨by decide +kernel, hok, ?_⟩
  obtain ⟨doc, self, made, hdoc, -, -, -, hmade, hiff⟩ :=
    ofFile_newIds_iff (by decide +kernel) (by decide +kernel) hok
  refine ⟨doc, made, hdoc, hmade, fun heq => ?_⟩
  obtain rfl := Except.ok.inj hdoc
  have hmem : "@+id:string/ok" ∈
      attributeValues (Document.decode .lenient strayContents).events := by
    decide +kernel
  exact hiff.1 heq _ hmem ⟨by decide, by decide⟩

end Listing

end ResourceShards
