import ResourceShards.Files.Disk
import ResourceShards.Resource.Name
import ResourceShards.Table

/-!
# ResourceShards.Archive.OutputSpec

**Where archives are to be written.** An output is given as `type:file`. The files of one type are
its shards, in the order in which they are given.
-/

namespace ResourceShards

/-- A file that is to hold an archive of some type. -/
structure OutputSpec where
  /-- The type. -/
  type : ResourceType
  /-- The file. -/
  file : Path
  deriving DecidableEq, Repr

namespace OutputSpec

/-- Reads a type and a file with a colon between them. -/
def read (spec : String) : Except Error OutputSpec :=
  match ResourceName.cut ':' spec.toList with
  | none => .error (.outputSpec spec)
  | some (typeName, file) => do
    let type ← Error.labelling (Text.quote spec ++ ": ") (ResourceName.readType typeName)
    return { type, file := .ofString (String.ofList file) }

/-- Makes the directory of an output, and the file, which is empty then. -/
def prepare {m : Type → Type} [Monad m] (disk : Disk m) (output : OutputSpec) :
    ExceptT Error m Unit := do
  match ← disk.makeParent output.file with
  | .ok () => pure ()
  | .error (parent, reason) => throw (.io .makeDirectory parent reason.message)
  match ← disk.create output.file [] with
  | .ok () => pure ()
  | .error reason => throw (.io .createOutput output.file reason.message)

/-- Reads and prepares outputs one by one. -/
def prepareAll {m : Type → Type} [Monad m] (disk : Disk m) :
    List String → ExceptT Error m (List OutputSpec)
  | [] => pure []
  | spec :: rest => do
    let output ← ExceptT.mk (pure (read spec))
    prepare disk output
    return output :: (← prepareAll disk rest)

/-- The outputs in order of type, each with its files. -/
def group (outputs : List OutputSpec) : Table ResourceType (List Path) :=
  let byType := ResourceType.all.map fun type =>
    (type, (outputs.filter (·.type == type)).map OutputSpec.file)
  byType.filter fun entry => !entry.2.isEmpty

end OutputSpec

end ResourceShards
