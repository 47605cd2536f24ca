import ResourceShards.Listing.Declaration

/-!
# ResourceShards.Listing.Inline

**Ids made in passing.** Layouts, menus and other documents make an id wherever an attribute has a
value that begins with `@+id`. Without the plus sign the value is a reference to the id.
-/

namespace ResourceShards.Listing

open Markup (Attribute Event View)

variable {σ : Type}

/-- The id that an attribute makes, if it makes one. -/
def madeId? (a : Attribute) : Option (Except Error ResourceName) :=
  match a.value.toList with
  | '@' :: '+' :: 'i' :: 'd' :: rest =>
    some (Error.labelling (a.value ++ ": unparsable id attribute: ")
      (ResourceName.read (String.ofList ('@' :: 'i' :: 'd' :: rest)) .id))
  | _ => none

/-- The ids that attributes make. -/
def attributeIds (label : String) (emit : Listener Resource σ) : List Attribute → Reading σ Unit
  | [] => pure ()
  | a :: rest => do
    if let some made := madeId? a then
      let name ← Reading.ofExcept label made
      Reading.tell (emit { name })
    attributeIds label emit rest

/-- The ids that the events of a view make. -/
def inlineIds (label : String) (emit : Listener Resource σ) (v : View) : List Event → Reading σ Unit
  | [] => Reading.exhaust v
  | e :: rest => do
    attributeIds label emit e.attributes
    inlineIds label emit v rest

/-- The ids that a document makes. -/
def madeIds (label : String) (emit : Listener Resource σ) (v : View) : Reading σ Unit :=
  inlineIds label emit v v.events

end ResourceShards.Listing
