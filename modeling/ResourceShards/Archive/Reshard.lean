import ResourceShards.Archive.Entry
import ResourceShards.Sharding.Sharder

/-!
# ResourceShards.Archive.Reshard

**Spreading one archive over several.** The files of an archive are dealt out by their names, in
their order, and kept as they are. The first that has no shard, or whose name is taken there, stops
the dealing; what was dealt out before stays.
-/

namespace ResourceShards.Reshard

/-- A state of the dealing: the archives, and how it ended if it did. -/
abbrev Dealing := EStateM Error (List Archive)

/-- Puts one entry where it belongs. -/
def deal (sharder : Sharder) (e : Entry) : Dealing Unit := do
  let archives ← get
  let index ← match sharder.shard e.name archives.length with
    | .ok index => pure index
    | .error err => throw err
  match Archive.add .createOutputEntry { name := e.name, body := e.body, method := .stored }
      (archives[index]?.getD []) with
  | .ok a => set (archives.set index a)
  | .error err => throw err

/-- Deals out the files among some entries. -/
def dealAll (sharder : Sharder) (entries : List Entry) : Dealing Unit := do
  if (← get).isEmpty then throw .noWriters
  (entries.filter Entry.isFile).forM (deal sharder)

end ResourceShards.Reshard
