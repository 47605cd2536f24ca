import ResourceShards.Files.Walk
import ResourceShards.Listing.File
import ResourceShards.Pipeline.Network

/-!
# ResourceShards.Listing.Set

**Everything that a package declares.** Files are listed by workers, so their resources arrive in
any order; a set sorts them by their full names. The first failure of any file is the outcome.

* `ResourceSet.ofResources`: the sorted set
* `ResourceSet.ofFiles`: the resources of some files
* `ResourceSet.ofPaths`, `ResourceSet.ofRoots`: the resources of files on a disk
* `ResourceSet.ofContents`: the resources of files whose contents are given
-/

namespace ResourceShards

/-- The resources of a package, sorted. -/
structure ResourceSet where
  /-- The package. -/
  package : String
  /-- The resources. -/
  resources : List Resource
  deriving DecidableEq, Repr

namespace ResourceSet

/-- The order of resources: by full name. -/
def nameLe (a b : Resource) : Bool :=
  decide (a.name.text ≤ b.name.text)

/-- The set of some resources. Those of one name stay in their order. -/
def ofResources (package : String) (resources : List Resource) : ResourceSet :=
  ⟨package, resources.mergeSort nameLe⟩

/-- A file to be listed and what is known of its contents. -/
abbrev Source := ResourceFile × Opened

/-- The work that a file is. -/
def job (label : String) (source : Source) : Job Resource :=
  Job.ofTrace (Listing.ofFile label source.1 source.2)

/-- The resources of some files. -/
def ofFiles (label package : String) (workers : Nat) (sources : List Source) :
    Except Error ResourceSet :=
  (Network.gather workers (sources.map (job label))).map (ofResources package)

/-- The resources of files at some paths, hidden files left out. -/
def ofPaths (label package : String) (workers : Nat) (look : Look Bytes) (paths : List Path) :
    Except Error ResourceSet := do
  let files ← ResourceFile.ofPaths paths
  ofFiles label package workers (files.map fun file => (file, .looked (look file.path)))

/-- The resources of all files beneath some roots. -/
def ofRoots (label package : String) (workers : Nat) (look : Look Bytes) (roots : List Path) :
    Except Error ResourceSet :=
  match walkFiles look roots with
  | .ok paths => ofPaths label package workers look paths
  | .error fault => .error fault.toError

/-- Files with their contents; hidden files are left out. -/
def sourcesOf : List (Path × Bytes) → Except Error (List Source)
  | [] => .ok []
  | (path, contents) :: rest =>
    match ResourceFile.ofPath path with
    | .ok file => do return (file, .given contents) :: (← sourcesOf rest)
    | .error .hiddenFile => sourcesOf rest
    | .error e => .error (e.withLabel ("failed to parse " ++ Text.quote path.display ++ ": "))

/-- The resources of files whose contents are given one by one. -/
def ofContents (label package : String) (workers : Nat) (paths : List Path)
    (contents : List Bytes) : Except Error ResourceSet :=
  if paths.length ≠ contents.length then
    .error (.contentsMismatch paths.length contents.length)
  else do
    ofFiles label package workers (← sourcesOf (paths.zip contents))

end ResourceSet

end ResourceShards
