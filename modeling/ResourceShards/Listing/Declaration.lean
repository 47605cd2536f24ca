import ResourceShards.Reading
import ResourceShards.Resource.Name
import ResourceShards.Resource.Tag

/-!
# ResourceShards.Listing.Declaration

**The names that a values file declares.** The first `<resources>` element of a document declares
resources; later ones are ignored. Its children are read by their tags. An attribute also declares
an id for each of its enum and flag elements, before itself. A styleable lists attributes and
declares those that are not the platform's own, before itself.

* `Listing.declared`: the walk of a values document
-/

namespace ResourceShards

open Markup (Event StartTag View)

/-- A resource with a name and, for a styleable, the attributes it lists. -/
structure Resource where
  /-- The name. -/
  name : ResourceName
  /-- The full names of the attributes that a styleable lists, in document order. -/
  styleableAttributes? : Option (List String) := none
  deriving DecidableEq, Repr

namespace Listing

variable {σ : Type}

/-- The enum and flag elements of a view, at any depth: each declares an id. -/
def enumsAndFlags (label : String) (emit : Listener Resource σ) (v : View) :
    List Event → Reading σ Unit
  | [] => Reading.exhaust v
  | e :: rest => do
    if let some start := e.start? then
      if Tag.isEnumOrFlag start.name then
        let key ← Reading.ofExcept label (Tag.required start Tag.nameAttribute)
        let name ← Reading.ofExcept label (ResourceName.read key .id)
        Reading.tell (emit { name })
    enumsAndFlags label emit v rest

/-- The name that a child of a styleable gives an attribute, if it gives one. -/
def attributeKey? (e : Event) : Option (StartTag × String) :=
  match e.start? with
  | none => none
  | some start =>
    match Tag.required start Tag.nameAttribute with
    | .ok key => some (start, key)
    | .error _ => none

/-- The attribute that a child of a styleable names. -/
def attributeName (key : String) : Except Error ResourceName := do
  let name ← Error.labelling (Text.quote key ++ ": could not parse name to fqn: ")
    (ResourceName.read key .attr)
  if name.type == .attr then return name
  else throw (.wrongType .attr name.text)

/-- The attributes that a styleable lists: an element with a name stands for one, and an element
without is looked through. `listed` holds those before, last one first. -/
def styleableAttributes (label : String) (emit : Listener Resource σ) (v : View)
    (listed : List String) (events : List Event) : Reading σ (List String) :=
  match events with
  | [] => do
    Reading.exhaust v
    return listed.reverse
  | e :: rest =>
    match attributeKey? e with
    | none => styleableAttributes label emit v listed rest
    | some (start, key) => do
      let name ← Reading.ofExcept label (attributeName key)
      let element := v.enter start.name rest
      if name.package == ResourceName.platformPackage then
        Reading.exhaust element
      else
        enumsAndFlags (label ++ Text.quote key ++ ": <attr> child: ") emit element element.events
        Reading.tell (emit { name })
      styleableAttributes label emit v (name.text :: listed) (View.leave start.name rest)
termination_by events.length
decreasing_by
  · simp
  · exact Nat.lt_succ_of_le (View.length_leave_le start.name rest)

/-- An element whose tag tells the type it declares; `v` is what it holds. -/
def declaration (label : String) (emit : Listener Resource σ) (start : StartTag)
    (type : ResourceType) (v : View) : Reading σ Unit := do
  let key ← Reading.ofExcept label (Tag.required start Tag.nameAttribute)
  let name ← Reading.ofExcept label
    (Error.labelling (key ++ ": invalid name: ") (ResourceName.read key type))
  match name.type with
  | .styleable =>
    let listed ← styleableAttributes label emit v [] v.events
    Reading.tell (emit { name, styleableAttributes? := some listed })
  | .attr =>
    enumsAndFlags label emit v v.events
    Reading.tell (emit { name })
  | _ => Reading.tell (emit { name })

/-- The resource that an item declares: its type stands in an attribute. -/
def itemName (start : StartTag) : Except Error ResourceName := do
  let key ← Tag.required start Tag.nameAttribute
  let typeName ← Tag.required start Tag.typeAttribute
  let type ← ResourceName.readType typeName.toList
  Error.labelling (Text.quote key ++ " / type: " ++ type.name ++ ": ")
    (ResourceName.read key type)

/-- The children of a `<resources>` element. What a child does not use of its own content is
skipped. -/
def children (label : String) (emit : Listener Resource σ) (v : View) (events : List Event) :
    Reading σ Unit :=
  match events with
  | [] => Reading.exhaust v
  | e :: rest =>
    match e.start? with
    | none => children label emit v rest
    | some start => do
      let place :=
        label ++ "tag-name: " ++ start.name.display ++ " at: " ++ toString e.offset ++ ": "
      let element := v.enter start.name rest
      match Tag.declaredType? start.name.localPart with
      | some type => declaration place emit start type element
      | none =>
        if Tag.isItem start.name then
          let name ← Reading.ofExcept place (itemName start)
          Reading.tell (emit { name })
      Reading.exhaust element
      children label emit v (View.leave start.name rest)
termination_by events.length
decreasing_by
  · simp
  · exact Nat.lt_succ_of_le (View.length_leave_le start.name rest)

/-- The resources that a values document declares. -/
def declared (label : String) (emit : Listener Resource σ) (v : View) : Reading σ Unit :=
  match View.skipTo Tag.resources v.events with
  | none => Reading.exhaust v
  | some (_, start, rest) =>
    let block := v.enter start.name rest
    children label emit block block.events

end Listing

end ResourceShards
