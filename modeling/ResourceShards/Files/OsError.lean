/-!
# ResourceShards.Files.OsError

**What a file system answers when it refuses.**
-/

namespace ResourceShards

/-- Reasons of a file system. -/
inductive OsError where
  /-- Nothing has that name. -/
  | notFound
  /-- Something has that name already. -/
  | occupied
  /-- A file stands where a directory is needed. -/
  | notDirectory
  /-- A directory stands where a file is needed. -/
  | isDirectory
  /-- Some other reason, with its number. -/
  | other (number : Nat) (reason : String)
  deriving DecidableEq, Repr

namespace OsError

/-- The number of the reason. -/
def code : OsError → Nat
  | notFound => 2
  | occupied => 17
  | notDirectory => 20
  | isDirectory => 21
  | other number _ => number

/-- The reason without its number. -/
def text : OsError → String
  | notFound => "No such file or directory"
  | occupied => "File exists"
  | notDirectory => "Not a directory"
  | isDirectory => "Is a directory"
  | other _ reason => reason

/-- The reason in words. -/
def message (e : OsError) : String :=
  e.text ++ " (os error " ++ toString e.code ++ ")"

end OsError

end ResourceShards
