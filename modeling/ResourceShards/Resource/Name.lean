import ResourceShards.Error

/-!
# ResourceShards.Resource.Name

**Resource names.** A resource is identified by a package, a type and a name, written
`package:type/name`. References and declarations may leave out the package, the type or both, put
the type before the package, and carry a `@` or `?` in front.

* `ResourceName.text`: the full form
* `ResourceName.read`: what a reference means where `context` is the type that goes without saying
-/

namespace ResourceShards

/-- The identity of a resource. -/
structure ResourceName where
  /-- The package that declares it. -/
  package : String
  /-- Its type. -/
  type : ResourceType
  /-- Its name among those of the type. -/
  name : String
  deriving DecidableEq, Repr

namespace ResourceName

/-- The package of names that give none. -/
def defaultPackage : String := "res-auto"

/-- The package of the platform's own resources. -/
def platformPackage : String := "android"

/-- The full form of a name. -/
def text (n : ResourceName) : String :=
  n.package ++ ":" ++ n.type.name ++ "/" ++ n.name

/-- A reference without the `@` or `?` in front. One of at most two bytes keeps it. -/
def dropSigil (raw : String) : List Char :=
  match raw.toList with
  | c :: rest => if (c == '@' || c == '?') && 2 < raw.utf8ByteSize then rest else c :: rest
  | [] => []

/-- What stands before and after the first `sep`, if there is one. -/
def cut (sep : Char) (chars : List Char) : Option (List Char × List Char) :=
  match chars.dropWhile (· != sep) with
  | [] => none
  | _ :: after => some (chars.takeWhile (· != sep), after)

/-- The type that a text names, `values` left out. -/
def readType (chars : List Char) : Except Error ResourceType :=
  match ResourceType.ofName? (String.ofList chars) with
  | some t => .ok t
  | none => .error (.unknownType (String.ofList chars))

/-- The parts of a reference: its package, empty where it gives none, its type and its name. -/
def parts (raw : String) (context : ResourceType) :
    Except Error (List Char × ResourceType × List Char) :=
  let chars := dropSigil raw
  match cut ':' chars, cut '/' chars with
  | some ([], _), _ => .error (.malformedName raw)
  | _, some ([], _) => .error (.malformedName raw)
  | none, none => .ok ([], context, chars)
  | some (package, name), none => .ok (package, context, name)
  | none, some (type, name) => do return ([], ← readType type, name)
  | some (beforeColon, afterColon), some (beforeSlash, afterSlash) =>
    if beforeColon.length < beforeSlash.length then do
      let type ← readType (afterColon.takeWhile (· != '/'))
      return (beforeColon, type, afterSlash)
    else do
      let type ← readType beforeSlash
      let package := afterSlash.takeWhile (· != ':')
      if package.contains '/' then throw (.malformedName raw)
      return (package, type, afterColon)

/-- The resource that a reference means; `values` as context tells that no type goes without
saying. -/
def read (raw : String) (context : ResourceType) : Except Error ResourceName := do
  let (package, type, name) ← parts raw context
  if type == .values then throw (.undeterminedType raw context)
  if name == [] then throw (.undeterminedName raw context)
  return {
    package := if package == [] then defaultPackage else String.ofList package
    type
    name := String.ofList name
  }

end ResourceName

end ResourceShards
