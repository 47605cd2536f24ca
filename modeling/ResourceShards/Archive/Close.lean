import ResourceShards.Archive.FreshName
import ResourceShards.Archive.Session
import ResourceShards.Files.Walk
import ResourceShards.Markup.Encoder
import ResourceShards.Resource.Tag

/-!
# ResourceShards.Archive.Close

**Writing archives.** Closing a session writes what it collected, in the order in which the source
files were declared: first the files that are resources, then one document per values file and type,
into every archive of the type. A document is the XML header, the `<resources>` tag of its source
file, the declarations that belong to the shard and the end tag.

A failure stops the writing where it is. What was collected is gone by then; what was written stays.

Archives are held in memory: nothing that is written into one fails to get there, no archive fails
to be finished, and an entry is refused only where the archive holds one of its name. All other
failures come before: from the file, its name, the `<resources>` tag, the sharder or the search for
an entry name that is free.

* `Session.store`: one file that is a resource
* `Session.close`: everything that was collected
* `Session.release`: the archives of a session that is closed
-/

namespace ResourceShards

open Markup (Attribute Encoder)

/-- Something done to a session that may stop on the way. -/
abbrev Filing := EStateM Error Session

/-- Does something, and labels its failure. -/
def Filing.labelled {α : Type} (label : String) (act : Filing α) : Filing α :=
  fun s =>
    match act s with
    | .ok a s => .ok a s
    | .error e s => .error (e.withLabel label) s

/-! ### The order of entries -/

/-- Where an entry belongs: by the declared position of its source file, then by the path of that
file, then by type. -/
structure Place where
  /-- The position of the source file. -/
  position : Nat
  /-- Its path. -/
  path : List Bytes
  /-- The rank of the type. -/
  rank : Nat
  deriving DecidableEq, Repr

namespace Place

/-- The order of places. -/
def le (a b : Place) : Bool :=
  if a.position ≠ b.position then decide (a.position < b.position)
  else if a.path ≠ b.path then decide (a.path ≤ b.path)
  else decide (a.rank ≤ b.rank)

/-- Items by their places. -/
def sort {α : Type} (place : α → Place) (items : List α) : List α :=
  ((items.map fun a => (place a, a)).mergeSort fun x y => le x.1 y.1).map Prod.snd

end Place

namespace Session

/-- The place of what comes from a path and has some type. -/
def place (s : Session) (path : Path) (type : ResourceType) : Place :=
  ⟨s.order.position path, path.key, type.rank⟩

/-! ### Files that are resources -/

/-- Items with those left out whose key comes again later. -/
def dropOverridden {κ α : Type} [BEq κ] : List (κ × α) → List α
  | [] => []
  | (key, a) :: rest =>
    if rest.any (·.1 == key) then dropOverridden rest else a :: dropOverridden rest

/-- The collected files that are written, in order: of those with one type and entry name the last
one overrides the others. -/
def survivors (s : Session) : List ResourceFile :=
  let sorted := Place.sort (fun file => s.place file.path file.type) (s.files.map Prod.snd)
  dropOverridden (sorted.map fun file => ((file.type, file.entryName), file))

/-- The name of a file up to its first dot. -/
def stem (file : ResourceFile) : String :=
  String.ofList ((Utf8.decodeLossy (file.path.fileName?.getD [])).toList.takeWhile (· != '.'))

/-- Whether a file is hidden. -/
def isHidden (file : ResourceFile) : Bool :=
  (file.path.fileName?.getD []).head? == some 0x2e

/-- The resource that a file is. -/
def storedName (file : ResourceFile) : Except Error ResourceName :=
  Error.labelling
    (file.path.display ++ ": " ++ Text.quote (stem file) ++
      " could not be parsed into a res name: ")
    (ResourceName.read (stem file) file.type)

/-- Notes that an entry name is in use. -/
def take (type : ResourceType) (entry : String) (s : Session) : Session :=
  { s with taken := s.taken.alter type fun names? => entry :: names?.getD [] }

/-- Gives one archive of a type another value. -/
def setArchive (type : ResourceType) (archives : List Archive) (index : Nat) (a : Archive)
    (s : Session) : Session :=
  { s with outputs := s.outputs.insert type (archives.set index a) }

/-- Writes a file that is a resource into the archive that its name belongs to. Hidden files are
left out. A file that can not be read leaves an empty entry. -/
def store (file : ResourceFile) (contents : Except OsError Bytes) : Filing Unit := do
  if isHidden file then return
  let name ← match storedName file with
    | .ok name => pure name
    | .error e => throw e
  let s ← get
  let some archives := s.outputs.get? name.type
    | throw ((Error.noOutput name.type).withLabel (file.path.display ++ ": "))
  let index ← match s.sharder.shard name.text archives.length with
    | .ok index => pure index
    | .error e => throw e
  let entry := file.entryName
  modify (take name.type entry)
  let body := match contents with
    | .ok body => body
    | .error _ => []
  match Archive.add .createWriter { name := entry, body } (archives[index]?.getD []) with
  | .error e => throw e
  | .ok a => modify (setArchive name.type archives index a)
  if let .error reason := contents then
    throw (.io .copyIntoArchive file.path reason.message)

/-- Opens a collected file and writes it. -/
def storeFrom (look : Look Bytes) (file : ResourceFile) : Filing Unit :=
  match look file.path with
  | .error reason => throw (.io .openForReading file.path reason.message)
  | .ok found => store file found.contents

/-- Writes the collected files. -/
def flushFiles (look : Look Bytes) : Filing Unit := do
  let s ← get
  set { s with files := [] }
  s.survivors.forM (storeFrom look)

/-! ### Declarations -/

/-- What every document begins with. -/
def header : Bytes :=
  Bytes.ofString "<?xml version='1.0' encoding='utf-8'?>"

/-- What every document ends with. -/
def footer : Bytes :=
  Bytes.ofString "</resources>"

/-- The `<resources>` tag with the attributes of the source file. -/
def resourcesTag (attributes : List Attribute) : Except Error Bytes :=
  let written := ({} : Encoder).encode (.start ⟨Tag.resources, attributes⟩)
  match written.outcome with
  | .ok () => .ok (Bytes.ofString written.text)
  | .error e => .error e

/-- The declarations with the shards they belong to, up to the first that has none. -/
def distribute (sharder : Sharder) (shards : Nat) :
    List (String × Bytes) → List (Nat × Bytes) × Except Error Unit
  | [] => ([], .ok ())
  | (key, payload) :: rest =>
    match sharder.shard key shards with
    | .error e => ([], .error e)
    | .ok index =>
      let (placed, outcome) := distribute sharder shards rest
      ((index, payload) :: placed, outcome)

/-- The declarations of one shard, one after the other. -/
def shardBody (index : Nat) (placed : List (Nat × Bytes)) : Bytes :=
  ((placed.filter (·.1 == index)).map Prod.snd).flatten

/-- Starts an entry in each archive, up to the first that refuses. -/
def addToAll (e : Entry) : List Archive → List Archive × Except Error Unit
  | [] => ([], .ok ())
  | a :: rest =>
    match a.add .createEntry e with
    | .error err => (a :: rest, .error err)
    | .ok started =>
      let (others, outcome) := addToAll e rest
      (started :: others, outcome)

/-- Writes on in the entry that was started last. -/
def writeOn (bytes : Bytes) (a : Archive) : Archive :=
  match a.getLast? with
  | some e => a.dropLast ++ [{ e with body := e.body ++ bytes }]
  | none => a

/-- Declarations in the order of the full names. -/
def sortedPayloads (payloads : Table String Bytes) : List (String × Bytes) :=
  payloads.mergeSort fun a b => decide (a.1 ≤ b.1)

/-- Writes the declarations of one type from one file: every archive of the type gets a document,
and each declaration goes into one of them. No document is begun where `FreshName.choose` finds no
name for it. -/
def storeValues (type : ResourceType) (held : Holding) : Filing Unit := do
  let s ← get
  let path := held.source.path
  let attributes := (s.rootAttributes.get? path.components).getD []
  let tag ← match resourcesTag attributes with
    | .ok tag => pure tag
    | .error e => throw (e.withLabel (path.display ++ ": could not write resources tag: "))
  let name := held.source.entryName
  let entry ← match FreshName.choose ((s.taken.get? type).getD []) name with
    | some entry => pure entry
    | none => throw (.archive .createEntry name (.endless name))
  modify (take type entry)
  let some archives := s.outputs.get? type | throw (.noOutput type)
  let (started, outcome) := addToAll { name := entry, body := header ++ tag } archives
  modify fun s => { s with outputs := s.outputs.insert type started }
  if let .error e := outcome then throw e
  let (placed, outcome) := distribute s.sharder archives.length (sortedPayloads held.payloads)
  let ending := match outcome with
    | .ok () => footer
    | .error _ => []
  let written := started.mapIdx fun index a => writeOn (shardBody index placed ++ ending) a
  modify fun s => { s with outputs := s.outputs.insert type written }
  if let .error e := outcome then throw e

/-- Writes the collected declarations. -/
def flushValues : Filing Unit := do
  let s ← get
  let sorted := Place.sort (fun (key, held) => s.place held.source.path key.2) s.values
  set { s with values := [] }
  sorted.forM fun (key, held) => storeValues key.2 held

/-! ### Closing -/

/-- Writes everything that was collected and finishes the archives. A session that is closed stays
so. -/
def close (look : Look Bytes) : Filing Unit := do
  if (← get).finished?.isSome then return
  Filing.labelled "got error flushing collected paths: " (flushFiles look)
  Filing.labelled "got error flushing collected values: " flushValues
  modify fun s => { s with outputs := [], finished? := some s.outputs }

/-- Closes the session and hands out its archives. -/
def release (look : Look Bytes) : Filing Outputs := do
  close look
  return (← get).finished?.getD []

end Session

end ResourceShards
