import ResourceShards.Listing.Set
import ResourceShards.Text.Json

/-!
# ResourceShards.Listing.Json

**Resource sets in JSON.**
-/

namespace ResourceShards

/-- A resource in JSON. The attributes of a styleable come last. -/
def Resource.toJson (r : Resource) : Json :=
  .object ([("package", .string r.name.package), ("type", .string r.name.type.name),
    ("name", .string r.name.name)] ++
    match r.styleableAttributes? with
    | some listed => [("styleable_attrs", .list (listed.map .string))]
    | none => [])

/-- A resource set in JSON. -/
def ResourceSet.toJson (s : ResourceSet) : Json :=
  .object [("package", .string s.package), ("resources", .list (s.resources.map Resource.toJson))]

end ResourceShards
