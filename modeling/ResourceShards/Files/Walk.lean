import ResourceShards.Error
import ResourceShards.Files.Tree

/-!
# ResourceShards.Files.Walk

**Walking directories.** A walk lists the files beneath a root, depth first, the entries of each
directory in the order of their names. A root that is a file is listed as it is. Walks of several
roots are joined in the order of the roots, and a path that was listed before is not listed again.
-/

namespace ResourceShards

namespace Tree

variable {α : Type}

/-- The order of names in a directory: byte by byte. -/
def nameLe (a b : Bytes) : Bool :=
  decide (a ≤ b)

mutual

/-- The paths of the files in a tree that stands at `place`. -/
def filesAt (place : Path) : Tree α → List Path
  | .file _ => [place]
  | .directory entries =>
    ((entryFilesAt place entries).mergeSort fun a b => nameLe a.1 b.1).flatMap Prod.snd

/-- The paths of the files behind each entry of a directory, with the name of the entry. -/
def entryFilesAt (place : Path) : List (Bytes × Tree α) → List (Bytes × List Path)
  | [] => []
  | (name, tree) :: rest => (name, filesAt (place.join name) tree) :: entryFilesAt place rest

end

end Tree

/-- A root that could not be walked. -/
structure WalkFault where
  /-- The root. -/
  root : Path
  /-- Why. -/
  reason : OsError
  deriving DecidableEq, Repr

/-- The fault as an error. -/
def WalkFault.toError (f : WalkFault) : Error :=
  .io .walk f.root ("IO error for operation on " ++ f.root.display ++ ": " ++ f.reason.message)

/-- Paths with later spellings of an earlier path left out; `seen` holds those before. -/
def dropRepeated (seen : List (List Path.Component)) : List Path → List Path
  | [] => []
  | p :: rest =>
    if seen.contains p.components then dropRepeated seen rest
    else p :: dropRepeated (p.components :: seen) rest

/-- What paths name, or why they name nothing. -/
abbrev Look (α : Type) := Path → Except OsError (Tree α)

/-- The files beneath one root. -/
def walkRoot {α : Type} (look : Look α) (root : Path) : Except WalkFault (List Path) :=
  match look root with
  | .ok found => .ok (found.filesAt root)
  | .error reason => .error ⟨root, reason⟩

/-- The files beneath the roots, in root order, each path once. -/
def walkFiles {α : Type} (look : Look α) (roots : List Path) : Except WalkFault (List Path) := do
  let found ← roots.mapM (walkRoot look)
  return dropRepeated [] found.flatten

end ResourceShards
