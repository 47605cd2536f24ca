import ResourceShards.CommandLine.Run

/-!
# ResourceShards.Main

**The tool on the machine it runs on.** The disk of the machine is a file system like any other: a
file or directory that is looked at is read whole. Links are followed to what they name.
-/

namespace ResourceShards.Machine

/-- The reason why the machine refused. -/
def reasonOf : IO.Error → OsError
  | .noFileOrDirectory _ _ _ => .notFound
  | .alreadyExists _ _ _ => .occupied
  | .inappropriateType _ code details =>
    if code == 20 then .notDirectory
    else if code == 21 then .isDirectory
    else .other code.toNat details
  | e => .other 0 (toString e)

/-- An answer of the machine, a refusal included. -/
def answer {α : Type} (act : IO α) : IO (Except OsError α) := do
  try
    return .ok (← act)
  catch e =>
    return .error (reasonOf e)

/-- What stands at a place in a directory. -/
partial def read (place : String) : IO (Tree Bytes) := do
  let path := (← IO.currentDir) / place
  if ← path.isDir then
    let entries ← path.readDir
    let found ← entries.toList.mapM fun entry => do
      return (Bytes.ofString entry.fileName, ← read entry.path.toString)
    return .directory found
  else
    return .file (← IO.FS.readBinFile path).data.toList

/-- The disk of the machine. -/
def disk : Disk IO where
  look path := answer (read path.display)
  makeDirectories path := answer (IO.FS.createDirAll path.display)
  create path contents := answer (IO.FS.writeBinFile path.display ⟨contents.toArray⟩)

/-- Two digits. -/
def twoDigits (n : Nat) : String :=
  if n < 10 then "0" ++ toString n else toString n

/-- How long it has been since some time, in seconds. -/
def elapsed (start : Nat) : IO String := do
  let hundredths := ((← IO.monoMsNow) - start) / 10
  return toString (hundredths / 100) ++ "." ++ twoDigits (hundredths % 100) ++ "s"

end ResourceShards.Machine

open ResourceShards in
/-- Runs the tool. -/
def main (arguments : List String) : IO UInt32 := do
  let start ← IO.monoMsNow
  let outcome ← CommandLine.run Machine.disk (Machine.elapsed start) arguments
  IO.print outcome.output
  IO.eprint outcome.report
  return outcome.code.toUInt32
