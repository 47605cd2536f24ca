import ResourceShards.Files.OsError
import ResourceShards.Files.Path

/-!
# ResourceShards.Files.Tree

**Directory trees.** A tree is a file with its contents or a directory of named trees. Paths are
looked up from a directory, segment by segment: `.` and empty segments stay where they are but ask
for a directory, `..` goes back to the directory one came from. A path that leaves the tree, and so
every absolute path, names nothing.

* `Tree.find`: look-up
* `Tree.makeDirectories`, `Tree.create`: the two ways in which the tools change a tree
-/

namespace ResourceShards

/-- A file or a directory; `α` is what files hold. -/
inductive Tree (α : Type) where
  /-- A file with its contents. -/
  | file (contents : α)
  /-- A directory with its entries. -/
  | directory (entries : List (Bytes × Tree α))
  deriving Inhabited

namespace Tree

variable {α β : Type}

/-- The tree without entries. -/
def empty : Tree α :=
  .directory []

/-- Whether the tree is a directory. -/
def isDirectory : Tree α → Bool
  | .directory _ => true
  | .file _ => false

/-- The contents of a file. A directory can be opened, but reading it is refused. -/
def contents : Tree α → Except OsError α
  | .file contents => .ok contents
  | .directory _ => .error .isDirectory

/-- The entry of that name in a directory. -/
def entry (name : Bytes) : Tree α → Except OsError (Tree α)
  | .file _ => .error .notDirectory
  | .directory entries =>
    match entries.lookup name with
    | some found => .ok found
    | none => .error .notFound

/-! ### Look-up -/

/-- A tree inside a tree: the directories that lead to it with the names taken in them, innermost
first, and the tree itself. -/
structure Spot (α : Type) where
  /-- The names taken and the directories they were taken in. -/
  trail : List (Bytes × Tree α)
  /-- What stands there. -/
  here : Tree α

/-- The names that lead to a spot from the outside. -/
def Spot.names (s : Spot α) : List Bytes :=
  (s.trail.map Prod.fst).reverse

/-- Goes one segment on. -/
def Spot.step (s : Spot α) (segment : Bytes) : Except OsError (Spot α) :=
  if !s.here.isDirectory then .error .notDirectory
  else if segment == [] || segment == Path.dot then .ok s
  else if segment == Path.dotDot then
    match s.trail with
    | [] => .error .notFound
    | (_, outer) :: trail => .ok ⟨trail, outer⟩
  else do
    let found ← s.here.entry segment
    return ⟨(segment, s.here) :: s.trail, found⟩

/-- Follows segments from a directory. -/
def follow (tree : Tree α) (segments : List Bytes) : Except OsError (Spot α) :=
  segments.foldlM Spot.step ⟨[], tree⟩

/-- The spot a path names. -/
def spot (tree : Tree α) (p : Path) : Except OsError (Spot α) :=
  if p.bytes == [] || p.isAbsolute then .error .notFound
  else tree.follow (Bytes.splitAll Path.separator p.bytes)

/-- What a path names. -/
def find (tree : Tree α) (p : Path) : Except OsError (Tree α) :=
  (tree.spot p).map Spot.here

/-- The contents of the file a path names. -/
def read (tree : Tree α) (p : Path) : Except OsError α := do
  (← tree.find p).contents

/-! ### Changes -/

/-- The entries with `name` standing for `tree`, at its old place if there is one. -/
def setEntry (name : Bytes) (tree : Tree α) : List (Bytes × Tree α) → List (Bytes × Tree α)
  | [] => [(name, tree)]
  | (other, old) :: rest =>
    if other == name then (name, tree) :: rest else (other, old) :: setEntry name tree rest

/-- Puts `tree` at the end of a chain of names; directories on the way that are missing are made. -/
def put (tree : Tree α) : (names : List Bytes) → Tree α → Tree α
  | [], _ => tree
  | name :: names, old =>
    let entries := match old with
      | .directory entries => entries
      | .file _ => []
    let inner := (entries.lookup name).getD empty
    .directory (setEntry name (put tree names inner) entries)

/-- The last segment of a path that asks for an entry to be made: the segments before it, the
segment, and whether separators follow it. -/
def lastSegment (p : Path) : List Bytes × Bytes × Bool :=
  let segments := (Bytes.splitAll Path.separator p.bytes).reverse
  match segments.dropWhile (· == []) with
  | [] => ([], [], true)
  | last :: before => (before.reverse, last, segments.head? == some [])

/-- Makes one directory. -/
def makeDirectory (tree : Tree α) (p : Path) : Except OsError (Tree α) := do
  if p.bytes == [] || p.isAbsolute then throw .notFound
  let (before, last, _) := lastSegment p
  let outer ← tree.follow before
  if !outer.here.isDirectory then throw .notDirectory
  if last == [] || last == Path.dot || last == Path.dotDot then throw .occupied
  match outer.here.entry last with
  | .ok _ => throw .occupied
  | .error _ => return put empty (outer.names ++ [last]) tree

/-- Whether a path names a directory. -/
def hasDirectory (tree : Tree α) (p : Path) : Bool :=
  match tree.find p with
  | .ok found => found.isDirectory
  | .error _ => false

/-- Makes a directory and those above it that are missing; `depth` bounds how many. -/
def makeDirectoriesWithin (tree : Tree α) (p : Path) : (depth : Nat) → Except OsError (Tree α)
  | 0 => .ok tree
  | depth + 1 =>
    if p.bytes == [] then .ok tree
    else
      match tree.makeDirectory p with
      | .ok made => .ok made
      | .error .notFound => do
        let made ← match p.parent? with
          | some parent => tree.makeDirectoriesWithin parent depth
          | none => .error .notFound
        match made.makeDirectory p with
        | .ok made => return made
        | .error e => if made.hasDirectory p then return made else throw e
      | .error e => if tree.hasDirectory p then .ok tree else .error e

/-- Makes a directory and those above it that are missing. -/
def makeDirectories (tree : Tree α) (p : Path) : Except OsError (Tree α) :=
  tree.makeDirectoriesWithin p (p.bytes.length + 1)

/-- Opens a file for writing: it holds `contents` afterwards, whatever it held before. -/
def create (tree : Tree α) (p : Path) (contents : α) : Except OsError (Tree α) := do
  if p.bytes == [] || p.isAbsolute then throw .notFound
  let (before, last, trailing) := lastSegment p
  let outer ← tree.follow before
  if !outer.here.isDirectory then throw .notDirectory
  if trailing || last == Path.dot || last == Path.dotDot then throw .isDirectory
  match outer.here.entry last with
  | .ok (.directory _) => throw .isDirectory
  | _ => return put (.file contents) (outer.names ++ [last]) tree

end Tree

end ResourceShards
