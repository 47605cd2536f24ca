import ResourceShards.Archive.Close
import ResourceShards.Payload.Collect
import ResourceShards.Pipeline.Network

/-!
# ResourceShards.Archive.Archiver

**From files to archives.** Workers cut the values files into declarations; a session collects them,
together with the files that are resources themselves, and is closed when all have come. The first
failure ends the run, and then the session is not closed.
-/

namespace ResourceShards

/-- What a session is handed by a run. -/
inductive Delivery where
  /-- A file that is a resource. -/
  | file (file : ResourceFile)
  /-- What a values file yields. -/
  | collected (source : ResourceFile) (item : Collected)

namespace Session

/-- Collects what is delivered. -/
def accept : Consumer Delivery Session
  | .file file, s => .ok (s.collectFile file)
  | .collected source (.rootAttribute attr), s => .ok (s.collectRootAttribute source attr)
  | .collected source (.value name payload), s =>
    Error.labelling "got error collecting values: " (s.collectValue source name payload)

end Session

namespace Archiver

/-- What labels the failures of a run. -/
def label : String := "archive: "

/-- The work that a values file is. -/
def job (look : Look Bytes) (file : ResourceFile) : Job Delivery :=
  let (items, outcome) :=
    Listening.trace fun emit => Payload.ofFile label file (look file.path) emit
  Job.ofTrace (items.map (.collected file), outcome)

/-- The run over some files, as it begins. -/
def network (look : Look Bytes) (workers : Nat) (files : List ResourceFile) (s : Session) :
    Network Delivery Session :=
  let (values, others) := files.partition ResourceFile.isValues
  Network.fanOut workers (values.map (job look)) (others.map .file) s

/-- Writes the resources of some files into the archives of a session, and closes it. -/
def archive (look : Look Bytes) (workers : Nat) (files : List ResourceFile) : Filing Unit :=
  fun s =>
    let ended := (network look workers files s).run Session.accept
    match ended.result with
    | .error e => .error e ended.state
    | .ok collected =>
      Filing.labelled "got error closing partitioner: " (Session.close look) collected

/-- `archive` for paths, of which those of hidden files are left out. -/
def archivePaths (look : Look Bytes) (workers : Nat) (paths : List Path) : Filing Unit :=
  match Error.labelling "converting res path failed: " (ResourceFile.ofPaths paths) with
  | .ok files => archive look workers files
  | .error e => throw e

end Archiver

end ResourceShards
