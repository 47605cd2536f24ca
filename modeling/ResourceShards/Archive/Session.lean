import ResourceShards.Archive.Entry
import ResourceShards.Files.Order
import ResourceShards.Markup.Token
import ResourceShards.Resource.File
import ResourceShards.Sharding.Sharder
import ResourceShards.Table

/-!
# ResourceShards.Archive.Session

**Collecting what goes into archives.** A session has some archives for each of several types; as
many as a type has, into so many shards its resources are spread. Resources of other types are
dropped as they come. Nothing is written before the session is closed, so the order in which files
are collected leaves no trace.

* `Session.collectFile`: a file that is a resource
* `Session.collectValue`: a declaration out of a values file
* `Session.collectRootAttribute`: an attribute of the `<resources>` tag of a values file
-/

namespace ResourceShards

open Markup (Attribute)

/-- The archives of each type. -/
abbrev Outputs := Table ResourceType (List Archive)

/-- The declarations of one type in one values file. -/
structure Holding where
  /-- The file. -/
  source : ResourceFile
  /-- The declarations under the full names of what they declare. -/
  payloads : Table String Bytes := []
  deriving Repr

/-- What is collected, and the archives it goes into. -/
structure Session where
  /-- The archives that are open. -/
  outputs : Outputs
  /-- How resources are spread over archives. -/
  sharder : Sharder
  /-- The order in which source files were declared. -/
  order : DeclarationOrder := {}
  /-- The files that are resources, by path. -/
  files : Table (List Path.Component) ResourceFile := []
  /-- The declarations, by source file and type. The components of the path stand for the file:
  `ResourceFile.ofPath` makes files with the same components the same in all other parts too. -/
  values : Table (List Path.Component × ResourceType) Holding := []
  /-- The attributes of `<resources>` tags, by source file. -/
  rootAttributes : Table (List Path.Component) (List Attribute) := []
  /-- The entry names in use, by type. -/
  taken : Table ResourceType (List String) := []
  /-- The archives once they are finished. -/
  finished? : Option Outputs := none

namespace Session

/-- Whether there are archives for a type. -/
def accepts (s : Session) (type : ResourceType) : Bool :=
  s.outputs.contains type

/-- Collects a file that is a resource. A path that was collected before is replaced. -/
def collectFile (file : ResourceFile) (s : Session) : Session :=
  if s.accepts file.type then { s with files := s.files.insert file.path.components file } else s

/-- The declaration to keep of one that is there and one that is offered: the longer one. Two of one
length must be the same. -/
def longer (key : String) (kept? : Option Bytes) (offered : Bytes) : Except Error Bytes :=
  match kept? with
  | none => .ok offered
  | some kept =>
    if offered.length < kept.length then .ok kept
    else if kept.length < offered.length then .ok offered
    else if kept = offered then .ok kept
    else .error (.valueConflict key)

/-- Whether a declaration is dropped: there are no archives for its type, or it is an attribute of
another package, which a file refers to but does not declare. -/
def drops (s : Session) (name : ResourceName) : Bool :=
  !s.accepts name.type || (name.type == .attr && name.package != ResourceName.defaultPackage)

/-- Collects a declaration. -/
def collectValue (source : ResourceFile) (name : ResourceName) (payload : Bytes) (s : Session) :
    Except Error Session :=
  if s.drops name then .ok s
  else
    let key := (source.path.components, name.type)
    let held := (s.values.get? key).getD { source }
    match longer name.text (held.payloads.get? name.text) payload with
    | .error e => .error e
    | .ok kept =>
      let payloads := held.payloads.insert name.text kept
      .ok { s with values := s.values.insert key { held with payloads } }

/-- Collects an attribute of the `<resources>` tag of a file. -/
def collectRootAttribute (source : ResourceFile) (attr : Attribute) (s : Session) : Session :=
  { s with
    rootAttributes := s.rootAttributes.alter source.path.components fun before? =>
      before?.getD [] ++ [attr] }

end Session

end ResourceShards
