import ResourceShards.Config.Value

/-!
# ResourceShards.Config.Yaml.Node

**Nodes of a document.** A node is a word, a list or a table. References let it stand in several
places, even inside itself, so a value is taken from it to a limited depth.

* `Node.anchors`: what references may mean
* `Node.toValue`: what a node says
-/

namespace ResourceShards.Config.Yaml

/-- A node. -/
inductive Node where
  /-- The node with an anchor of this number. -/
  | reference (number : Nat)
  /-- A word. -/
  | scalar (anchor? : Option Nat) (s : Scalar)
  /-- A list. -/
  | list (anchor? : Option Nat) (items : List Node)
  /-- A table. -/
  | table (anchor? : Option Nat) (entries : List (Node × Node))
  deriving Inhabited

namespace Node

/-- The node that is left out. -/
def void : Node := .scalar none .void

/-! ### References -/

/-- The nodes that have anchors. -/
abbrev Anchors := List (Nat × Node)

/-- A node with an anchor, if it has one. -/
def anchored (anchor? : Option Nat) (node : Node) : Anchors :=
  (anchor?.map (·, node)).toList

mutual

/-- The nodes with anchors in a node, itself included, in the order in which they begin. -/
def anchors : Node → Anchors
  | .reference _ => []
  | .scalar anchor? s => anchored anchor? (.scalar anchor? s)
  | .list anchor? items => anchored anchor? (.list anchor? items) ++ anchorsOfItems items
  | .table anchor? entries =>
    anchored anchor? (.table anchor? entries) ++ anchorsOfEntries entries

/-- The nodes with anchors in items. -/
def anchorsOfItems : List Node → Anchors
  | [] => []
  | item :: rest => item.anchors ++ anchorsOfItems rest

/-- The nodes with anchors in entries. -/
def anchorsOfEntries : List (Node × Node) → Anchors
  | [] => []
  | (key, value) :: rest => key.anchors ++ (value.anchors ++ anchorsOfEntries rest)

end

/-- The node that an anchor's number stands for: the last one to begin. -/
def find? (anchors : Anchors) (number : Nat) : Option Node :=
  anchors.reverse.lookup number

/-! ### Values -/

/-- The text of a key, which must be a word. -/
def keyText? (anchors : Anchors) (node : Node) : Option String :=
  let node? := match node with
    | .reference n => find? anchors n
    | node => some node
  match node? with
  | some (.scalar _ s) => some s.content
  | _ => none

/-- The value of a node. No setting takes a list, nor a table whose keys are not all words. -/
def valueOf (anchors : Anchors) : (depth : Nat) → Node → Value
  | 0, _ => .other
  | depth + 1, .reference n => (find? anchors n).elim .other (valueOf anchors depth)
  | _, .scalar _ s => .scalar s
  | _, .list _ _ => .other
  | depth + 1, .table _ entries =>
    let entry (pair : Node × Node) : Option (String × Value) :=
      (keyText? anchors pair.1).map (·, valueOf anchors depth pair.2)
    (entries.mapM entry).elim .other .table

/-- How deep settings stand: a word in a table in a table, and references to the inner two. -/
def settingsDepth : Nat := 5

/-- What the node of a document says. -/
def toValue (node : Node) : Value :=
  valueOf node.anchors settingsDepth node

end Node

end ResourceShards.Config.Yaml
