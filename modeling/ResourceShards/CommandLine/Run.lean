import ResourceShards.Archive.Archiver
import ResourceShards.Archive.OutputSpec
import ResourceShards.Archive.Reshard
import ResourceShards.CommandLine.Arguments
import ResourceShards.Config.Settings
import ResourceShards.Listing.Json
import ResourceShards.Zip.File

/-!
# ResourceShards.CommandLine.Run

**Runs of the tool.** A run reads its command line and its settings, does what the command asks for
on a disk, and ends with an exit code, what it prints and what it reports on failure. Archives that
a failing run has begun are left with what was written to them.

* `CommandLine.run`: a whole run
-/

namespace ResourceShards.CommandLine

/-- What a run leaves for whoever started it. -/
structure Outcome where
  /-- The exit code: 0 for success, 1 for a failure, 2 for a line that can not be read. -/
  code : Nat
  /-- What is printed. -/
  output : String := ""
  /-- What is reported on failure. -/
  report : String := ""
  deriving DecidableEq, Repr

/-- Why a run fails. -/
inductive RunFault where
  /-- There are no settings that can be followed. -/
  | settings (fault : SettingsFault)
  /-- A part of the run failed. -/
  | failed (part : String) (e : Error)
  /-- A file can not be opened or written. -/
  | file (part : String) (path : Path) (reason : OsError)
  /-- A file holds no archive, or its contents changed meanwhile. -/
  | noArchive (path : Path)

/-- The fault in words. -/
def RunFault.message : RunFault → String
  | settings fault => fault.message
  | failed part e => part ++ " failed: " ++ e.message
  | file part path reason => "Failed to " ++ part ++ " " ++ path.display ++ ": " ++ reason.message
  | noArchive path => "Failed to read " ++ path.display

variable {m : Type → Type} [Monad m]

/-- A part of a run. -/
abbrev Running (m : Type → Type) := ExceptT RunFault m

/-- Writes a file. -/
def write (disk : Disk m) (part : String) (path : Path) (contents : Bytes) : Running m Unit := do
  match ← disk.create path contents with
  | .ok () => return
  | .error reason => throw (.file part path reason)

/-- The outcome of a part of the run. -/
def ended {α : Type} (part : String) : Except Error α → Running m α
  | .ok a => return a
  | .error e => throw (.failed part e)

/-! ### Settings -/

/-- The settings of a run. -/
def settings (disk : Disk m) (i : Invocation) : Running m Settings := do
  let read : m (Except SettingsFault Settings) := match i.settings? with
    | some path => Settings.ofFile disk path
    | none => Settings.ofDirectory disk (.ofString ".")
  match ← read with
  | .error fault => throw (.settings fault)
  | .ok s =>
    let s := { s with workers := i.workers?.getD s.workers }
    match s.validate with
    | .ok () => return s
    | .error fault => throw (.settings fault)

/-- The sharder of a run. -/
def sharder (s : Settings) : Running m Sharder :=
  match s.sharding.sharder with
  | .ok sharder => return sharder
  | .error fault => throw (.settings fault)

/-! ### Commands -/

/-- The files beneath some roots. -/
def walk (disk : Disk m) (part : String) (roots : List Path) : Running m (List Path) := do
  match walkFiles (← disk.snapshot roots) roots with
  | .ok paths => return paths
  | .error fault => throw (.failed part fault.toError)

/-- Writes the resources beneath some roots into archives. -/
def bucketize (disk : Disk m) (elapsed : m String) (s : Settings) (roots : List Path)
    (specs : List String) : Running m String := do
  let paths ← walk disk "walking resource paths" roots
  let prepared ← (OutputSpec.prepareAll disk specs).run
  let outputs := OutputSpec.group (← ended "creating output archives" prepared)
  let session : Session := {
    outputs := outputs.map fun (type, files) => (type, files.map fun _ => [])
    sharder := ← sharder s
    order := .ofFiles paths
  }
  let look ← disk.snapshot paths
  let (outcome, session) := match Archiver.archivePaths look s.workers paths session with
    | .ok () after => (Except.ok (), after)
    | .error e after => (Except.error e, after)
  let archives := session.finished?.getD session.outputs
  for (type, files) in outputs do
    for (file, archive) in files.zip ((archives.get? type).getD []) do
      write disk "write" file (Zip.encode archive)
  ended "bucketize" outcome
  let census := ResourceFile.census paths
  let count := (outputs.flatMap Prod.snd).length
  return "Archived " ++ toString census.values ++ " values files and " ++ toString census.paths ++
    " other files into " ++ toString count ++ " archives in " ++ (← elapsed) ++ "\n"

/-- Lists the resources beneath some roots, in a file or as what is printed. -/
def liteparse (disk : Disk m) (s : Settings) (roots : List Path) (output? : Option Path)
    (package? : Option String) (quiet : Bool) : Running m String := do
  let paths ← walk disk "liteparse" roots
  let look ← disk.snapshot paths
  let set ← ended "liteparse"
    (ResourceSet.ofPaths "" (package?.getD s.package) s.workers look paths)
  let text := set.toJson.render 0
  match output? with
  | none => return text ++ "\n"
  | some path =>
    match ← disk.makeParent path with
    | .ok () => pure ()
    | .error (parent, reason) => throw (.file "create" parent reason)
    write disk "write" path (Bytes.ofString text)
    if quiet then return ""
    return "Wrote " ++ toString set.resources.length ++ " resources to " ++ path.display ++ "\n"

/-- The archive in a file. -/
def openArchive (disk : Disk m) (path : Path) : Running m Archive := do
  match ← disk.look path with
  | .error reason => throw (.file "open" path reason)
  | .ok (.directory _) => throw (.noArchive path)
  | .ok (.file bytes) =>
    match Zip.decode bytes with
    | some archive => return archive
    | none => throw (.noArchive path)

/-- Spreads the entries of an archive over others. They are read after the others were begun, so an
archive can not be spread over itself. -/
def zipshard (disk : Disk m) (s : Settings) (input : Path) (outputs : List Path)
    (separator? : Option String) : Running m String := do
  let base ← sharder s
  let sharder := match separator? with
    | some separator => Sharder.withSeparator separator base
    | none => base
  let archive ← openArchive disk input
  for output in outputs do
    write disk "create" output (Zip.encode [])
  if (← openArchive disk input) ≠ archive then throw (.noArchive input)
  let (outcome, archives) := match Reshard.dealAll sharder archive (outputs.map fun _ => []) with
    | .ok () after => (Except.ok (), after)
    | .error e after => (Except.error e, after)
  for (output, archive) in outputs.zip archives do
    write disk "write" output (Zip.encode archive)
  ended "zip sharding" outcome
  return "Sharded " ++ toString archive.length ++ " entries over " ++ toString outputs.length ++
    " archives\n"

/-- Does what a command line asks for, and tells what is printed. -/
def perform (disk : Disk m) (elapsed : m String) (i : Invocation) : Running m String := do
  let s ← settings disk i
  let unlessQuiet (text : String) : String := if i.quiet then "" else text
  match i.command with
  | .bucketize paths outputs => return unlessQuiet (← bucketize disk elapsed s paths outputs)
  | .liteparse files output? package? => liteparse disk s files output? package? i.quiet
  | .zipshard input outputs separator? =>
    return unlessQuiet (← zipshard disk s input outputs separator?)

/-! ### Runs -/

/-- The name and version of the tool. -/
def version : String := "respack 0.4.0"

/-- How the tool is used. -/
def usage : String :=
  "Usage: respack [OPTIONS] <COMMAND>\n\n" ++
  "Commands:\n" ++
  "  bucketize  Split resources into per-type, sharded zip archives\n" ++
  "  liteparse  List the resources a set of files declares, as JSON\n" ++
  "  zipshard   Redistribute the entries of a zip archive over several archives\n\n" ++
  "Options:\n" ++
  "  -c, --config <CONFIG>    Path to configuration file\n" ++
  "  -w, --workers <WORKERS>  Number of parser threads (overrides the config file)\n" ++
  "  -v, --verbose            Verbose output\n" ++
  "  -q, --quiet              Quiet mode - only errors\n" ++
  "  -h, --help               Print help\n" ++
  "  -V, --version            Print version\n"

/-- A whole run; `elapsed` tells how long it has taken so far. -/
def run (disk : Disk m) (elapsed : m String) (arguments : List String) : m Outcome := do
  match Invocation.read arguments with
  | .error .version => return { code := 0, output := version ++ "\n" }
  | .error .help => return { code := 0, output := usage }
  | .error (.fault fault) => return { code := 2, report := "error: " ++ fault.message ++ "\n" }
  | .ok i =>
    match ← (perform disk elapsed i).run with
    | .ok output => return { code := 0, output }
    | .error fault => return { code := 1, report := "Error: " ++ fault.message ++ "\n" }

end ResourceShards.CommandLine
