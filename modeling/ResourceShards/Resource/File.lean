import ResourceShards.Resource.Density
import ResourceShards.Resource.Name

/-!
# ResourceShards.Resource.File

**Files of a resource directory.** The directory that holds a file tells its type and qualifiers:
`drawable-fr-hdpi/icon.png` is a `drawable` for one language and one density. Files in `values`
directories declare resources inside; all others are resources themselves.

* `ResourceFile.ofPath`: what the path of a file tells
* `ResourceFile.ofPaths`: the same for many, hidden files left out
* `ResourceFile.entryName`: the name of its entry in an archive
* `ResourceFile.resource?`: the resource that the file itself is
-/

namespace ResourceShards

/-- A file in a type directory. -/
structure ResourceFile where
  /-- The path of the file. -/
  path : Path
  /-- The directory that holds the type directory. -/
  resDir : Path
  /-- The name of the type directory. -/
  typeDir : String
  /-- The type that the directory names. -/
  type : ResourceType
  /-- What follows the first `-` of the directory's name. -/
  qualifier : String
  /-- The first density among the qualifiers. -/
  density : Density
  deriving DecidableEq, Repr

namespace ResourceFile

/-- Files of which all parts are the same, paths by their components. -/
def Same (a b : ResourceFile) : Prop :=
  a.path.Same b.path ∧ a.resDir.Same b.resDir ∧ a.typeDir = b.typeDir ∧ a.type = b.type ∧
    a.qualifier = b.qualifier ∧ a.density = b.density

instance (a b : ResourceFile) : Decidable (Same a b) :=
  inferInstanceAs (Decidable (_ ∧ _ ∧ _ ∧ _ ∧ _ ∧ _))

/-! ### Reading a path -/

/-- The segments between the `-` of a text: one more than there are of them. -/
def segments (text : List Char) : List String :=
  match _h : ResourceName.cut '-' text with
  | none => [String.ofList text]
  | some (segment, rest) => String.ofList segment :: segments rest
termination_by text.length
decreasing_by
  unfold ResourceName.cut at _h
  split at _h
  · simp at _h
  · rename_i c after hd
    simp only [Option.some.injEq, Prod.mk.injEq] at _h
    have hle := (List.dropWhile_sublist (· != '-') (l := text)).length_le
    rw [hd, _h.2] at hle
    simp only [List.length_cons] at hle
    omega

/-- The type that a directory's name begins with, and the qualifiers after it. -/
def splitTypeDir (typeDir : String) : String × String :=
  match ResourceName.cut '-' typeDir.toList with
  | none => (typeDir, "")
  | some (head, rest) => (String.ofList head, String.ofList rest)

/-- The type of that name, `values` included. -/
def typeOfHead? (head : String) : Option ResourceType :=
  if head == ResourceType.values.name then some .values else ResourceType.ofName? head

/-- What the path of a file tells. -/
def ofPath (path : Path) : Except Error ResourceFile := do
  if (path.fileName?.getD []).head? == some 0x2e then throw .hiddenFile
  let some parent := path.parent? | throw .notResourcePath
  let some typeDirBytes := parent.fileName? | throw .notResourcePath
  let some typeDir := Bytes.toString? typeDirBytes | throw .notResourcePath
  let (head, qualifier) := splitTypeDir typeDir
  let some type := typeOfHead? head | throw .notResourcePath
  let density ← Density.ofSegments (segments qualifier.toList)
  return { path, resDir := parent.parent?.getD ⟨[]⟩, typeDir, type, qualifier, density }

/-- What the paths tell, hidden files left out. -/
def ofPaths : List Path → Except Error (List ResourceFile)
  | [] => .ok []
  | path :: rest =>
    match ofPath path with
    | .ok file => do return file :: (← ofPaths rest)
    | .error .hiddenFile => ofPaths rest
    | .error e => .error (e.withLabel ("failed to parse " ++ Text.quote path.display ++ ": "))

/-! ### What a file is -/

/-- Whether the file declares resources inside. -/
def isValues (file : ResourceFile) : Bool :=
  match file.type.home with
  | .declaration => true
  | .either => ResourceType.values.name.isPrefixOf file.typeDir
  | .file => false

/-- The name of the file's entry in an archive: its last three components. -/
def entryName (file : ResourceFile) : String :=
  let parts := file.path.components.reverse.take 3
  String.intercalate "/" (parts.reverse.map fun c => Utf8.decodeLossy c.bytes)

/-- The name of the file without its extensions: raw files lose the last one only. -/
def resourceName? (file : ResourceFile) : Option String := do
  let name ← file.path.fileName?
  let name ← Bytes.toString? name
  let chars := name.toList
  if file.type == .raw then
    match ResourceName.cut '.' chars.reverse with
    | none => return name
    | some (_, before) => return String.ofList before.reverse
  else
    return String.ofList (chars.takeWhile (· != '.'))

/-- The resource that the file itself is. Files that declare resources are none. -/
def resource? (file : ResourceFile) : Except Error (Option ResourceName) :=
  if file.isValues then .ok none
  else
    match ResourceName.read (file.resourceName?.getD "") file.type with
    | .ok name => .ok (some name)
    | .error e => .error (e.withLabel (file.path.display ++ ": name parse failed: "))

/-! ### Counting files -/

/-- How many files are read in which way. -/
structure Census where
  /-- Files that declare resources inside. -/
  values : Nat := 0
  /-- Files that are resources. -/
  paths : Nat := 0
  /-- Files that are neither. -/
  skipped : Nat := 0
  deriving DecidableEq, Repr

/-- All files of a census. -/
def Census.total (c : Census) : Nat :=
  c.values + c.paths + c.skipped

/-- Counts one more file. -/
def Census.count (c : Census) (path : Path) : Census :=
  match ofPath path with
  | .ok file =>
    if file.isValues then { c with values := c.values + 1 } else { c with paths := c.paths + 1 }
  | .error _ => { c with skipped := c.skipped + 1 }

/-- Counts files. -/
def census (paths : List Path) : Census :=
  paths.foldl Census.count {}

end ResourceFile

end ResourceShards
