import ResourceShards.Archive.Archiver

/-!
# ResourceShards.Archive.Offer

**Collecting as calls on one session.** What is delivered changes the session in place. A
declaration is taken in steps: what its file holds of its type is begun if there is nothing yet, and
then the declaration is compared with the one that is stored in its slot. Whatever a call did until
it is refused is done.

* `Session.offer`: one declaration
* `Session.call`: whatever is delivered
-/

namespace ResourceShards

/-- What a declaration is stored under: its file, its type and its full name. The file is told by
the components of its path: all its other parts follow from these for every file that
`ResourceFile.ofPath` makes, so that no two of them share a slot. -/
structure Slot where
  /-- The components of the path. -/
  parts : List Path.Component
  /-- The type. -/
  type : ResourceType
  /-- The full name. -/
  name : String
  deriving DecidableEq, Repr

namespace Slot

/-- The slot of a declaration in a file. -/
def ofDeclaration (source : ResourceFile) (name : ResourceName) : Slot :=
  ⟨source.path.components, name.type, name.text⟩

end Slot

namespace Session

/-- The payload in a slot. -/
def stored? (s : Session) (slot : Slot) : Option Bytes :=
  (s.values.get? (slot.parts, slot.type)).bind fun held => held.payloads.get? slot.name

/-- Begins what a file holds of a type, unless it is there. -/
def ready (source : ResourceFile) (type : ResourceType) (s : Session) : Session :=
  { s with values := s.values.alter (source.path.components, type) (·.getD { source }) }

/-- Puts a payload into the slot of a declaration. -/
def put (source : ResourceFile) (name : ResourceName) (payload : Bytes) (s : Session) : Session :=
  { s with
    values := s.values.alter (source.path.components, name.type) fun held? =>
      let held := held?.getD { source }
      { held with payloads := held.payloads.insert name.text payload } }

/-- Collects a declaration, step by step. -/
def offer (source : ResourceFile) (name : ResourceName) (payload : Bytes) : Filing Unit := do
  if (← get).drops name then
    pure ()
  else
    modify (ready source name.type)
    match (← get).stored? (.ofDeclaration source name) with
    | none => modify (put source name payload)
    | some kept =>
      if payload.length < kept.length then pure ()
      else if payload.length = kept.length then
        if kept = payload then pure () else throw (.valueConflict name.text)
      else modify (put source name payload)

/-- Collects what is delivered. -/
def call : Delivery → Filing Unit
  | .file file => modify (collectFile file)
  | .collected source (.rootAttribute attr) => modify (collectRootAttribute source attr)
  | .collected source (.value name payload) => offer source name payload

end Session

end ResourceShards
