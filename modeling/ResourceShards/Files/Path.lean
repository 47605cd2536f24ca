import ResourceShards.Text.Utf8

/-!
# ResourceShards.Files.Path

**File paths.** A path is the bytes it was written with. What it names is decided by its
components: empty segments say nothing, neither does a `.` that is not the first segment. Two paths
are the same when their components are, and paths are ordered component by component, so that the
files of one directory stay together.

* `Path.components`: what a path consists of
* `Path.fileName?`, `Path.parent?`, `Path.extension?`, `Path.join`: the usual parts of a path
* `Path.ancestors`: the path and the paths above it, by components
* `Path.key`: the order of paths
-/

namespace ResourceShards

/-- A file path, as it was written. -/
structure Path where
  /-- The bytes of the path. -/
  bytes : Bytes
  deriving DecidableEq, Repr

namespace Path

/-- What a path consists of. -/
inductive Component where
  /-- The `/` at the front of an absolute path. -/
  | root
  /-- A `.` at the front of a relative path. -/
  | here
  /-- A `..`. -/
  | up
  /-- The name of a file or directory. -/
  | name (bytes : Bytes)
  deriving DecidableEq, Repr

/-- The byte between two segments. -/
def separator : UInt8 := 0x2f

/-- The segment `.`. -/
def dot : Bytes := [0x2e]

/-- The segment `..`. -/
def dotDot : Bytes := [0x2e, 0x2e]

/-- The path that a text spells. -/
def ofString (s : String) : Path :=
  ⟨Bytes.ofString s⟩

/-- The path as text, with U+FFFD for what is no UTF-8. -/
def display (p : Path) : String :=
  Utf8.decodeLossy p.bytes

/-- Absolute paths start with a separator. -/
def isAbsolute (p : Path) : Bool :=
  p.bytes.head? == some separator

/-! ### Components -/

/-- The component that a segment stands for, if it stands for one. -/
def Component.ofSegment? (segment : Bytes) : Option Component :=
  if segment == [] || segment == dot then none
  else if segment == dotDot then some .up
  else some (.name segment)

/-- The components of a path, from the front. -/
def components (p : Path) : List Component :=
  let segments := Bytes.splitAll separator p.bytes
  if p.isAbsolute then .root :: segments.filterMap Component.ofSegment?
  else if segments.head? == some dot then .here :: segments.filterMap Component.ofSegment?
  else segments.filterMap Component.ofSegment?

/-- Paths that name the same thing when they are looked up from one directory. -/
def Same (p q : Path) : Prop :=
  p.components = q.components

instance (p q : Path) : Decidable (Same p q) :=
  inferInstanceAs (Decidable (_ = _))

/-- A component as it is written. -/
def Component.bytes : Component → Bytes
  | .root => [separator]
  | .here => dot
  | .up => dotDot
  | .name b => b

/-- The order of components: the root, `.`, `..`, then names byte by byte. -/
def Component.key : Component → Bytes
  | .root => [0]
  | .here => [1]
  | .up => [2]
  | .name b => 3 :: b

theorem Component.key_injective {a b : Component} (h : a.key = b.key) : a = b := by
  cases a <;> cases b <;> simp_all [Component.key]

/-- The order of paths: component by component. -/
def key (p : Path) : List Bytes :=
  p.components.map Component.key

theorem key_eq_iff {p q : Path} : p.key = q.key ↔ p.Same q := by
  refine ⟨fun h => ?_, fun h => by rw [key, key, h]⟩
  exact (List.map_inj_right fun _ _ => Component.key_injective).1 h

/-! ### Parts of a path -/

/-- The last component, if it is a name. -/
def fileName? (p : Path) : Option Bytes :=
  match p.components.getLast? with
  | some (.name b) => some b
  | _ => none

/-- Segments without those at the end that stand for nothing; `isAbsolute` tells that a `.` in
front is one of them too. Segments are listed from the end. -/
def dropIdle (isAbsolute : Bool) : List Bytes → List Bytes
  | [] => []
  | segment :: before =>
    if segment == [] || (segment == dot && (isAbsolute || before != [])) then
      dropIdle isAbsolute before
    else segment :: before

/-- The path without its last component; what stands before it is kept as it was written. The root
and the empty path have none. -/
def parent? (p : Path) : Option Path :=
  let segments := Bytes.splitAll separator p.bytes
  let body := (if p.isAbsolute then segments.drop 1 else segments).reverse
  match dropIdle p.isAbsolute body with
  | [] => none
  | _ :: before =>
    let kept := (dropIdle p.isAbsolute before).reverse
    let joined := List.intercalate [separator] kept
    some ⟨if p.isAbsolute then separator :: joined else joined⟩

/-- What follows the last dot of the file name, unless that dot is its first character. -/
def extension? (p : Path) : Option Bytes :=
  match p.fileName?.bind (Bytes.cutLast 0x2e) with
  | some (_ :: _, after) => some after
  | _ => none

/-- The path of `name` in the directory `p`. -/
def join (p : Path) (name : Bytes) : Path :=
  if name.head? == some separator then ⟨name⟩
  else if p.bytes == [] || p.bytes.getLast? == some separator then ⟨p.bytes ++ name⟩
  else ⟨p.bytes ++ separator :: name⟩

/-- The components of the path and of every path above it, nearest first. Those of an absolute path
end with the root, those of a relative one with the empty path. -/
def ancestors (p : Path) : List (List Component) :=
  let parts := p.components
  let least := if parts.head? == some .root then 1 else 0
  (List.range (parts.length + 1 - least)).map fun dropped => parts.take (parts.length - dropped)

end Path

end ResourceShards
