/-!
# ResourceShards.Resource.Type

**Resource types.** A resource has one of twenty-six types, each with a fixed name. `values` stands
beside them: it names the directories whose files declare resources inside, and is the type of no
resource. The order of the constructors is the order of types in all output.
-/

namespace ResourceShards

/-- A resource type, or `values`. -/
inductive ResourceType where
  | values
  | anim
  | animator
  | array
  | attr
  | attrPrivate
  | bool
  | color
  | configVarying
  | dimen
  | drawable
  | font
  | fraction
  | id
  | integer
  | interpolator
  | layout
  | menu
  | mipmap
  | navigation
  | plurals
  | raw
  | string
  | style
  | styleable
  | transition
  | xml
  deriving DecidableEq, Repr

/-- Where resources of a type are found. -/
inductive ResourceHome where
  /-- Declared inside files of `values` directories. -/
  | declaration
  /-- A file of its own. -/
  | file
  /-- One or the other. -/
  | either
  deriving DecidableEq, Repr

namespace ResourceType

/-- The types of resources, in their order. -/
def all : List ResourceType :=
  [anim, animator, array, attr, attrPrivate, bool, color, configVarying, dimen, drawable, font,
    fraction, id, integer, interpolator, layout, menu, mipmap, navigation, plurals, raw, string,
    style, styleable, transition, xml]

/-- The name of a type. -/
def name : ResourceType → String
  | values => "values"
  | anim => "anim"
  | animator => "animator"
  | array => "array"
  | attr => "attr"
  | attrPrivate => "^attr-private"
  | bool => "bool"
  | color => "color"
  | configVarying => "configVarying"
  | dimen => "dimen"
  | drawable => "drawable"
  | font => "font"
  | fraction => "fraction"
  | id => "id"
  | integer => "integer"
  | interpolator => "interpolator"
  | layout => "layout"
  | menu => "menu"
  | mipmap => "mipmap"
  | navigation => "navigation"
  | plurals => "plurals"
  | raw => "raw"
  | string => "string"
  | style => "style"
  | styleable => "styleable"
  | transition => "transition"
  | xml => "xml"

/-- Where resources of the type are found. -/
def home : ResourceType → ResourceHome
  | anim | animator | drawable | font | interpolator | layout | menu | mipmap | navigation | raw
  | transition | xml => .file
  | color => .either
  | _ => .declaration

/-- The position of a type in the order of types; `values` comes first. -/
def rank (t : ResourceType) : Nat :=
  t.ctorIdx

/-- The type of that name, `values` left out. -/
def ofName? (name : String) : Option ResourceType :=
  all.find? fun t => t.name == name

theorem mem_all_iff {t : ResourceType} : t ∈ all ↔ t ≠ values := by
  cases t <;> decide

theorem name_injective {s t : ResourceType} (h : s.name = t.name) : s = t := by
  revert h
  cases s <;> cases t <;> decide

theorem rank_injective {s t : ResourceType} (h : s.rank = t.rank) : s = t := by
  revert h
  cases s <;> cases t <;> decide

/-- A name is that of one type at most. -/
theorem ofName?_eq_some_iff {name : String} {t : ResourceType} :
    ofName? name = some t ↔ t ≠ values ∧ t.name = name := by
  constructor
  · intro h
    exact ⟨mem_all_iff.1 (List.mem_of_find?_eq_some h), by simpa using List.find?_some h⟩
  · rintro ⟨hne, rfl⟩
    cases hf : ofName? t.name with
    | none =>
      have := List.find?_eq_none.1 hf t (mem_all_iff.2 hne)
      simp at this
    | some s =>
      have hs : s.name = t.name := by simpa using List.find?_some hf
      rw [name_injective hs]

end ResourceType

end ResourceShards
