import ResourceShards.Config.Toml.Number
import ResourceShards.Config.Toml.Table
import ResourceShards.Config.Toml.Text

/-!
# ResourceShards.Config.Toml

**Configuration in TOML.** A document is a list of lines: assignments to dotted keys, and headers of
the tables that the assignments after them belong to.

* `Toml.value`: what stands behind an equals sign
* `Toml.read`: the value of a document
-/

namespace ResourceShards.Config.Toml

/-! ### Values -/

mutual

/-- What stands behind an equals sign, a comma or a bracket; `depth` tells how many brackets stand
around it. -/
def value (depth : Nat) : (fuel : Nat) → List Char → Option (Value × List Char)
  | 0, _ => none
  | fuel + 1, cs =>
    match cs with
    | '[' :: rest =>
      if depth < maxDepth then
        (array (depth + 1) [] fuel rest).map fun (items, rest) => (.list items, rest)
      else none
    | '{' :: rest =>
      if depth < maxDepth then
        match dropBlanks rest with
        | '}' :: rest => some (.table [], rest)
        | rest =>
          (inlineTable (depth + 1) [] fuel rest).map fun (entries, rest) =>
            (.table (entriesToValues entries), rest)
      else none
    | cs =>
      match text? fuel cs with
      | some (content, rest) => some (.text content, rest)
      | none =>
        let word := bareWord cs
        (bare? word).map fun v => (v, cs.drop word.length)

/-- The rest of a list; `seen` holds the items so far, last one first. -/
def array (depth : Nat) (seen : List Value) : (fuel : Nat) → List Char →
    Option (List Value × List Char)
  | 0, _ => none
  | fuel + 1, cs =>
    match dropGap fuel cs with
    | ']' :: rest => some (seen.reverse, rest)
    | cs => do
      let (item, rest) ← value depth fuel cs
      let seen := item :: seen
      match dropGap fuel rest with
      | ',' :: rest => array depth seen fuel rest
      | ']' :: rest => some (seen.reverse, rest)
      | _ => none

/-- The rest of a table on one line; `entries` holds what is in it so far. -/
def inlineTable (depth : Nat) (entries : Entries) : (fuel : Nat) → List Char →
    Option (Entries × List Char)
  | 0, _ => none
  | fuel + 1, cs => do
    let (path, rest) ← key fuel cs
    match rest with
    | '=' :: rest =>
      let (v, rest) ← value depth fuel (dropBlanks rest)
      let entries ← assign path v .headed entries
      match dropBlanks rest with
      | ',' :: rest => inlineTable depth entries fuel rest
      | '}' :: rest => some (entries, rest)
      | _ => none
    | _ => none

end

/-! ### Documents -/

/-- What a line does. -/
inductive Line where
  /-- It is blank. -/
  | blank
  /-- It assigns a value. -/
  | assignment (path : List String) (value : Value)
  /-- It opens a table. -/
  | header (path : List String)
  /-- It opens the next table of a list. -/
  | seriesHeader (path : List String)

/-- What a line does, and what follows it on the line. -/
def line (fuel : Nat) (cs : List Char) : Option (Line × List Char) :=
  match dropBlanks cs with
  | [] => some (.blank, [])
  | '[' :: '[' :: rest => do
    let (path, rest) ← key fuel rest
    match rest with
    | ']' :: ']' :: rest => some (.seriesHeader path, rest)
    | _ => none
  | '[' :: rest => do
    let (path, rest) ← key fuel rest
    match rest with
    | ']' :: rest => some (.header path, rest)
    | _ => none
  | c :: rest =>
    if c == '#' || (lineEnd? (c :: rest)).isSome then some (.blank, c :: rest)
    else do
      let (path, rest) ← key fuel (c :: rest)
      match rest with
      | '=' :: rest =>
        let (v, rest) ← value 0 fuel (dropBlanks rest)
        return (.assignment path v, rest)
      | _ => none

/-- The document so far and the path of the table that assignments go to. -/
structure State where
  /-- The root table. -/
  entries : Entries := []
  /-- The path of the table. -/
  table : List String := []

/-- The document after a line. -/
def State.after (s : State) : Line → Option State
  | .blank => some s
  | .assignment path v => do
    let entries ← changeAt .passed (assign path v) s.table .headed s.entries
    return { s with entries }
  | .header path => do
    let change := openTable (path.getLast?.getD "")
    let entries ← changeAt .passed change path.dropLast .headed s.entries
    return { entries, table := path }
  | .seriesHeader path => do
    let change := openSeries (path.getLast?.getD "")
    let entries ← changeAt .passed change path.dropLast .headed s.entries
    return { entries, table := path }

/-- The document after all lines. -/
def lines (s : State) : (fuel : Nat) → List Char → Option State
  | 0, _ => none
  | fuel + 1, cs =>
    match cs with
    | [] => some s
    | cs => do
      let (l, rest) ← line fuel cs
      let s ← s.after l
      let rest ← lineEnd? (dropComment (dropBlanks rest))
      lines s fuel rest

/-- The value of a document: its root table. -/
def read (text : String) : Option Value := do
  let chars := match text.toList with
    | '\ufeff' :: rest => rest
    | chars => chars
  let s ← lines {} (2 * (chars.length + 2)) chars
  return .table (entriesToValues s.entries)

end ResourceShards.Config.Toml
