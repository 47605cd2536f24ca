import ResourceShards.Error
import ResourceShards.Markup.Token

/-!
# ResourceShards.Resource.Tag

**Tags that declare resources.** Inside `<resources>` the tag of an element tells the type it
declares, apart from `item`, which has it in an attribute, and from a few tags that declare nothing.
Attributes are found by their local part, whatever their namespace.
-/

namespace ResourceShards.Tag

open Markup (Name StartTag)

/-- The namespace of the platform's attributes. -/
def androidSpace : String := "http://schemas.android.com/apk/res/android"

/-- The name of the element that holds declarations. -/
def resources : Name := .plain "resources"

/-- The attribute that names a resource. -/
def nameAttribute : String := "name"

/-- The attribute that gives the type of an item. -/
def typeAttribute : String := "type"

/-- The type that an element of this local name declares. -/
def declaredType? : String → Option ResourceType
  | "array" | "integer-array" | "string-array" => some .array
  | "attr" => some .attr
  | "^attr-private" => some .attrPrivate
  | "bool" => some .bool
  | "color" => some .color
  | "configVarying" => some .configVarying
  | "dimen" => some .dimen
  | "drawable" => some .drawable
  | "fraction" => some .fraction
  | "id" => some .id
  | "integer" => some .integer
  | "layout" => some .layout
  | "plurals" => some .plurals
  | "string" => some .string
  | "style" => some .style
  | "declare-styleable" => some .styleable
  | _ => none

/-- Elements among declarations that declare nothing. -/
def isSkipped (name : Name) : Bool :=
  name.space == "" && ["skip", "eat-comment", "public"].contains name.localPart

/-- The element that holds declarations. -/
def isResources (name : Name) : Bool :=
  name == resources

/-- Elements that give the type they declare in an attribute. -/
def isItem (name : Name) : Bool :=
  name.looselyMatches (.plain "item")

/-- Elements below an attribute's declaration that declare ids. -/
def isEnumOrFlag (name : Name) : Bool :=
  name.looselyMatches (.plain "enum") || name.looselyMatches (.plain "flag")

/-- The value of an attribute that must be there and not be empty. -/
def required (start : StartTag) (key : String) : Except Error String :=
  match start.attribute? (.plain key) with
  | some value =>
    if value == "" then .error (.missingAttribute start.name.display key) else .ok value
  | none => .error (.missingAttribute start.name.display key)

end ResourceShards.Tag
