import ResourceShards.Config.Value

/-!
# ResourceShards.Config.Toml.Table

**Tables while a document is read.** What is defined once can not be defined again; tables that are
only named on the way to others may be given a header later, and tables made by dotted keys only
grow by dotted keys of their own table.

* `assign`: a value under a dotted key
* `openTable`, `openSeries`: headers
* `Node.toValue`: what is there in the end
-/

namespace ResourceShards.Config.Toml

/-- How a table came to be. -/
inductive Origin where
  /-- On the way to another table's header. -/
  | passed
  /-- By its own header. -/
  | headed
  /-- By a dotted key. -/
  | dotted
  deriving DecidableEq, Repr

/-- A value, a table or a list of tables. -/
inductive Node where
  /-- A value. -/
  | leaf (value : Value)
  /-- A table. -/
  | branch (origin : Origin) (entries : List (String × Node))
  /-- A list of tables, last one first. -/
  | series (tables : List (List (String × Node)))
  deriving Inhabited

/-- The entries of a table under their keys. -/
abbrev Entries := List (String × Node)

/-- The entries with another node at its old place, or at the end if the key is new. -/
def setEntry (key : String) (node : Node) : Entries → Entries
  | [] => [(key, node)]
  | (other, old) :: rest =>
    if other == key then (key, node) :: rest else (other, old) :: setEntry key node rest

/-- Adds a value under a new key; `dots` tells whether dots led to the table. -/
def addValue (dots : Bool) (key : String) (value : Value) (origin : Origin) (entries : Entries) :
    Option Entries :=
  if (origin == .dotted) != dots || (entries.lookup key).isSome then none
  else some (setEntry key (.leaf value) entries)

/-- Changes the table at the end of a path. Tables that are missing on the way get the origin
`made`; one that dots lead through must not have a header. -/
def changeAt (made : Origin) (change : Origin → Entries → Option Entries) :
    (path : List String) → Origin → Entries → Option Entries
  | [], origin, entries => change origin entries
  | key :: path, _, entries =>
    match entries.lookup key with
    | none => do
      let inner ← changeAt made change path made []
      return setEntry key (.branch made inner) entries
    | some (.leaf _) => none
    | some (.branch origin inner) => do
      if made == .dotted && origin == .headed then none
      let inner ← changeAt made change path origin inner
      return setEntry key (.branch origin inner) entries
    | some (.series (last :: before)) => do
      let last ← changeAt made change path .headed last
      return setEntry key (.series (last :: before)) entries
    | some (.series []) => none

/-- Gives the table `key` its header. -/
def openTable (key : String) (_ : Origin) (entries : Entries) : Option Entries :=
  match entries.lookup key with
  | none => some (setEntry key (.branch .headed []) entries)
  | some (.branch .passed inner) => some (setEntry key (.branch .headed inner) entries)
  | some _ => none

/-- Adds a table to the list `key`. -/
def openSeries (key : String) (_ : Origin) (entries : Entries) : Option Entries :=
  match entries.lookup key with
  | none => some (setEntry key (.series [[]]) entries)
  | some (.series tables) => some (setEntry key (.series ([] :: tables)) entries)
  | some _ => none

/-- Adds an assignment to a table. -/
def assign (path : List String) (value : Value) (origin : Origin) (entries : Entries) :
    Option Entries :=
  match path.getLast? with
  | none => none
  | some last =>
    let before := path.dropLast
    let change (found : Origin) : Entries → Option Entries :=
      addValue (!before.isEmpty) last value (if before.isEmpty then .headed else found)
    changeAt .dotted change before origin entries

/-! ### Values -/

mutual

/-- A node as a value. -/
def Node.toValue : Node → Value
  | .leaf value => value
  | .branch _ entries => .table (entriesToValues entries)
  | .series tables => .list (tablesToValues tables).reverse

/-- The entries of a table as values. -/
def entriesToValues : List (String × Node) → List (String × Value)
  | [] => []
  | (key, node) :: rest => (key, node.toValue) :: entriesToValues rest

/-- Tables as values. -/
def tablesToValues : List (List (String × Node)) → List Value
  | [] => []
  | table :: rest => .table (entriesToValues table) :: tablesToValues rest

end

end ResourceShards.Config.Toml
