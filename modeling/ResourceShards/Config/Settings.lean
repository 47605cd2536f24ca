import ResourceShards.Config.Toml
import ResourceShards.Config.Yaml
import ResourceShards.Files.Disk
import ResourceShards.Sharding.Sharder

/-!
# ResourceShards.Config.Settings

**Settings of a run.** They come from a file in one of two formats, which the extension of its name
tells; for any other extension both are tried. What the file leaves out has a default, and what it
says beyond the settings is ignored.

* `Settings.ofValue?`: settings from a document
* `Settings.ofText`, `Settings.ofFile`, `Settings.ofDirectory`: where documents come from
* `Settings.sharder`, `Settings.validate`: what settings ask for, and whether it can be had
-/

namespace ResourceShards

/-- How resources are spread over archives. -/
structure ShardSettings where
  /-- The name of the sharder. -/
  strategy : String := "fnv"
  /-- Where a separator is given, only what stands before the last one of a key counts. -/
  separator? : Option String := none
  deriving DecidableEq, Repr

/-- The settings of a run. -/
structure Settings where
  /-- How many workers read files. -/
  workers : Nat := 25
  /-- The package whose resources are listed. -/
  package : String := ""
  /-- How resources are spread. -/
  sharding : ShardSettings := {}
  deriving DecidableEq, Repr

/-- Why there are no settings, or none that can be followed. -/
inductive SettingsFault where
  /-- The file can not be read as text. -/
  | unreadable (path : Path)
  /-- A document in YAML that is malformed or has something wrong in it. -/
  | badYaml
  /-- TOML that can not be read as settings. -/
  | badToml
  /-- A document that is neither. -/
  | badDocument
  /-- There is no sharder of that name. -/
  | unknownStrategy (name : String)
  /-- There would be no one to do the work. -/
  | noWorkers
  deriving DecidableEq, Repr

/-- The fault in words. -/
def SettingsFault.message : SettingsFault → String
  | unreadable path => "Failed to read config file: " ++ path.display
  | badYaml => "Failed to parse YAML config"
  | badToml => "Failed to parse TOML config"
  | badDocument => "Failed to parse config file"
  | unknownStrategy name =>
    "Unknown sharding strategy " ++ Text.quote name ++ " (expected \"fnv\")"
  | noWorkers => "workers must be at least 1"

open Config (Value)

namespace ShardSettings

/-- The sharder that is asked for. -/
def sharder (s : ShardSettings) : Except SettingsFault Sharder :=
  if s.strategy ≠ Sharder.fnv.name then .error (.unknownStrategy s.strategy)
  else
    match s.separator? with
    | some separator => .ok (.withSeparator separator .fnv)
    | none => .ok .fnv

end ShardSettings

namespace Settings

/-! ### From values -/

/-- What an entry of a table gives, or the default if there is no such entry. The key must not come
twice, and its value must be of the right kind. -/
def field? {α : Type} (entries : List (String × Value)) (key : String) (default : α)
    (convert : Value → Option α) : Option α :=
  match entries.filter (·.1 == key) with
  | [] => some default
  | [(_, value)] => convert value
  | _ => none

/-- What the item at a place of a list gives, or the default if the list ends before it. -/
def item? {α : Type} (items : List Value) (place : Nat) (default : α)
    (convert : Value → Option α) : Option α :=
  items[place]?.elim (some default) convert

/-- How resources are spread, from a value: a table, or a list that leaves out the keys. -/
def sharding? (value : Value) : Option ShardSettings := do
  let defaults : ShardSettings := {}
  match value with
  | .list items =>
    let strategy ← item? items 0 defaults.strategy Value.text?
    let separator? ← item? items 1 defaults.separator? Value.optionalText?
    return { strategy, separator? }
  | value =>
    let entries ← value.entries?
    let strategy ← field? entries "strategy" defaults.strategy Value.text?
    let separator? ← field? entries "separator" defaults.separator? Value.optionalText?
    return { strategy, separator? }

/-- The settings that a document gives. -/
def ofValue? (value : Value) : Option Settings := do
  let defaults : Settings := {}
  let entries ← value.entries?
  let workers ← field? entries "workers" defaults.workers (Value.count? UInt64.size)
  let package ← field? entries "package" defaults.package Value.text?
  let sharding ← field? entries "sharder" defaults.sharding sharding?
  return { workers, package, sharding }

/-- The settings of a document in YAML. -/
def ofYaml? (text : String) : Option Settings :=
  (Config.Yaml.read text).bind ofValue?

/-- The settings of a document in TOML. -/
def ofToml? (text : String) : Option Settings :=
  (Config.Toml.read text).bind ofValue?

/-! ### From files -/

/-- The settings of a document in a file whose name has some extension. -/
def ofText (extension : String) (text : String) : Except SettingsFault Settings :=
  match extension with
  | "yml" | "yaml" => (ofYaml? text).elim (.error .badYaml) .ok
  | "toml" => (ofToml? text).elim (.error .badToml) .ok
  | _ => ((ofYaml? text).or (ofToml? text)).elim (.error .badDocument) .ok

/-- The settings in a file that was opened. -/
def ofOpened (path : Path) (opened : Except OsError (Tree Bytes)) : Except SettingsFault Settings :=
  let text? := match opened with
    | .ok (.file contents) => Bytes.toString? contents
    | _ => none
  match text? with
  | none => .error (.unreadable path)
  | some text => ofText ((path.extension?.bind Bytes.toString?).getD "") text

/-- The names of files that are looked for in a directory, in this order. -/
def defaultNames : List String :=
  [".respack.yml", ".respack.yaml", ".respack.toml", "respack.toml"]

variable {m : Type → Type} [Monad m]

/-- The settings in a file. -/
def ofFile (disk : Disk m) (path : Path) : m (Except SettingsFault Settings) := do
  return ofOpened path (← disk.look path)

/-- The settings in the first of some files that is there, or the defaults. -/
def ofFirst (disk : Disk m) : List Path → m (Except SettingsFault Settings)
  | [] => pure (.ok {})
  | path :: rest => do
    match ← disk.look path with
    | .ok found => return ofOpened path (.ok found)
    | .error _ => ofFirst disk rest

/-- The settings that a directory gives. -/
def ofDirectory (disk : Disk m) (directory : Path) : m (Except SettingsFault Settings) :=
  ofFirst disk (defaultNames.map fun name => directory.join (Bytes.ofString name))

/-! ### What settings ask for -/

/-- Whether the settings can be followed. -/
def validate (s : Settings) : Except SettingsFault Unit :=
  if s.workers = 0 then .error .noWorkers
  else s.sharding.sharder.map fun _ => ()

end Settings

end ResourceShards
