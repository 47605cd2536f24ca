import ResourceShards.Files.Path

/-!
# ResourceShards.Files.Order

**The order in which files were declared.** Archives are sorted by the position of their source
files in a list of declared paths. A path that is not in the list has the position of its nearest
ancestor that is, and one without such an ancestor comes first.
-/

namespace ResourceShards

/-- A list of declared paths, by components. -/
structure DeclarationOrder where
  /-- The declared paths. -/
  declared : List (List Path.Component) := []

namespace DeclarationOrder

/-- The order in which `files` are listed. -/
def ofFiles (files : List Path) : DeclarationOrder :=
  ⟨files.map Path.components⟩

/-- Where a path is declared first. -/
def index? (order : DeclarationOrder) (parts : List Path.Component) : Option Nat :=
  order.declared.findIdx? (· == parts)

/-- The position of the nearest declared ancestor, the path itself included, or 0. -/
def position (order : DeclarationOrder) (p : Path) : Nat :=
  (p.ancestors.findSome? order.index?).getD 0

/-- How many different paths are declared. -/
def size (order : DeclarationOrder) : Nat :=
  order.declared.eraseDups.length

/-- Whether no path is declared. -/
def isEmpty (order : DeclarationOrder) : Bool :=
  order.declared.isEmpty

/-- Paths that are the same have the same position. -/
theorem position_congr {order : DeclarationOrder} {p q : Path} (h : p.Same q) :
    order.position p = order.position q := by
  simp only [position, Path.ancestors, show p.components = q.components from h]

end DeclarationOrder

end ResourceShards
