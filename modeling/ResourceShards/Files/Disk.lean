import ResourceShards.Error
import ResourceShards.Files.Walk
import Std.Data.HashMap

/-!
# ResourceShards.Files.Disk

**What the tools do to a file system.** They look at files and directories, make directories and
write files. A disk is anything that can do these in some monad: a directory tree as state, or the
disk of the machine.
-/

namespace ResourceShards

/-- A file system in a monad `m`. -/
structure Disk (m : Type → Type) where
  /-- What a path names. -/
  look : Path → m (Except OsError (Tree Bytes))
  /-- Makes a directory and those above it. -/
  makeDirectories : Path → m (Except OsError Unit)
  /-- Writes a file anew. -/
  create : Path → Bytes → m (Except OsError Unit)

namespace Disk

/-- What a change of a tree answers, and the tree after it. -/
def change (result : Except OsError (Tree Bytes)) : StateM (Tree Bytes) (Except OsError Unit) :=
  fun tree =>
    match result with
    | .ok changed => (.ok (), changed)
    | .error reason => (.error reason, tree)

/-- A directory tree as a file system. -/
def ofTree : Disk (StateM (Tree Bytes)) where
  look p := fun tree => (tree.find p, tree)
  makeDirectories p := do change ((← get).makeDirectories p)
  create p contents := do change ((← get).create p contents)

variable {m : Type → Type} [Monad m]

/-- What some paths name at the time. -/
def snapshot (disk : Disk m) (paths : List Path) : m (Look Bytes) := do
  let mut found : Std.HashMap Bytes (Except OsError (Tree Bytes)) := {}
  for p in paths do
    found := found.insert p.bytes (← disk.look p)
  let table := found
  return fun p => (table[p.bytes]?).getD (.error .notFound)

/-- Makes the directory that is to hold a file. -/
def makeParent (disk : Disk m) (p : Path) : m (Except (Path × OsError) Unit) := do
  match p.parent? with
  | none => return .ok ()
  | some parent =>
    if parent.bytes == [] then return .ok ()
    else
      match ← disk.makeDirectories parent with
      | .ok () => return .ok ()
      | .error reason => return .error (parent, reason)

end Disk

end ResourceShards
