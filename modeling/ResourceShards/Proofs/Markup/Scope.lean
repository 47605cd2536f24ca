import ResourceShards.Markup.Encoder

/-!
# ResourceShards.Proofs.Markup.Scope

**The prefixes in scope.** An encoder spreads what it knows about prefixes over two tables, so that
both ways of looking them up are quick. Here they are one list of declarations, the latest first:
declaring a prefix puts a pair in front, and taking the declaration back drops it. What the encoder
finds in its tables is what stands in the list, and so is the way it writes a name.

* `Scope.label?`: the prefix with which a name of a namespace is written
* `Scope.space`: the namespace that a prefix stands for where it is read
* `Encoder.Reflects`: the tables of an encoder hold the prefixes of a scope
-/

namespace ResourceShards.Markup

/-- Prefixes and the URIs bound to them, latest first. The empty prefix is that of the default
namespace. -/
abbrev Scope := List (String × String)

namespace Scope

/-! ### Looking up -/

/-- The URI that a prefix is bound to. -/
def uri? (scope : Scope) (label : String) : Option String :=
  Table.get? label scope

/-- The prefixes that were bound to a URI, latest first; some may be bound to another one since. -/
def labels (scope : Scope) (uri : String) : List String :=
  (scope.filter fun entry => entry.2 == uri).map Prod.fst

@[simp] theorem uri?_nil (label : String) : uri? [] label = none := rfl

theorem uri?_cons (label uri other : String) (scope : Scope) :
    uri? ((label, uri) :: scope) other = if label = other then some uri else scope.uri? other := rfl

theorem labels_cons (label uri other : String) (scope : Scope) :
    labels ((label, uri) :: scope) other =
      if uri = other then label :: scope.labels other else scope.labels other := by
  by_cases h : uri = other
  · simp [labels, h]
  · simp [labels, h]

/-- `uri?` gives only what is declared. -/
theorem mem_of_uri? {scope : Scope} {label uri : String} (h : scope.uri? label = some uri) :
    (label, uri) ∈ scope := by
  induction scope with
  | nil => simp at h
  | cons entry scope ih =>
      obtain ⟨other, bound⟩ := entry
      rw [uri?_cons] at h
      by_cases hlabel : other = label
      · rw [if_pos hlabel, Option.some.injEq] at h
        rw [hlabel, h]
        exact List.mem_cons_self
      · rw [if_neg hlabel] at h
        exact List.mem_cons_of_mem _ (ih h)

theorem mem_labels {scope : Scope} {label uri : String} :
    label ∈ scope.labels uri ↔ (label, uri) ∈ scope := by
  simp [labels]

/-! ### Writing -/

/-- The latest prefix that is still bound to a URI; attributes have no use for the empty one. -/
def visible? (scope : Scope) (forAttribute : Bool) (uri : String) : Option String :=
  (scope.labels uri).find? fun label =>
    scope.uri? label == some uri && !(forAttribute && label == "")

/-- The prefix with which a name of a namespace is written; no namespace takes the empty one. -/
def label? (scope : Scope) (forAttribute : Bool) (space : String) : Option String :=
  if space == "" then some ""
  else if space == Name.xmlns then some Name.xmlns
  else
    match scope.visible? forAttribute space with
    | some label => some label
    | none =>
      if (scope.uri? space).isSome then some space
      else if space == "xml" || space == Name.xmlSpace then some "xml"
      else none

/-- A name as it is spelled: a prefix has taken the place of the namespace. -/
def spell? (scope : Scope) (forAttribute : Bool) (name : Name) : Option Name :=
  (scope.label? forAttribute name.space).map fun label => ⟨label, name.localPart⟩

/-- The prefix that `visible?` gives is bound to the URI, and is not the empty one of an attribute.
-/
theorem uri?_of_visible? {scope : Scope} {forAttribute : Bool} {uri label : String}
    (h : scope.visible? forAttribute uri = some label) :
    scope.uri? label = some uri ∧ ¬(forAttribute = true ∧ label = "") := by
  have hfound := List.find?_some h
  simp only [Bool.and_eq_true, beq_iff_eq, Bool.not_eq_true', Bool.and_eq_false_iff,
    beq_eq_false_iff_ne] at hfound
  refine ⟨hfound.1, ?_⟩
  rintro ⟨hattr, hempty⟩
  rcases hfound.2 with hno | hno
  · rw [hattr] at hno
    exact Bool.noConfusion hno
  · exact hno hempty

/-- A prefix that is bound to a URI, and may be written, makes the URI `visible?`. -/
theorem visible?_of_uri? {scope : Scope} {forAttribute : Bool} {uri label : String}
    (h : scope.uri? label = some uri) (hlabel : forAttribute = true → label ≠ "") :
    ∃ found, scope.visible? forAttribute uri = some found := by
  rw [← Option.isSome_iff_exists, visible?, List.find?_isSome]
  refine ⟨label, mem_labels.2 (mem_of_uri? h), ?_⟩
  cases forAttribute with
  | false => simp [h]
  | true => simp [h, hlabel rfl]

/-! ### Reading -/

/-- The URI of the prefix `xmlns`. -/
def xmlnsUri : String := "http://www.w3.org/2000/xmlns/"

/-- The namespace of a prefix where it is read. The default namespace is not that of attributes, a
prefix without a URI stands for itself, and an attribute with the prefix `xmlns` is named for it. -/
def space (scope : Scope) (forAttribute : Bool) (label : String) : String :=
  if label = "" then (if forAttribute then "" else (scope.uri? "").getD "")
  else if label = Name.xmlns then (if forAttribute then Name.xmlns else xmlnsUri)
  else if label = "xml" then Name.xmlSpace
  else
    match scope.uri? label with
    | some uri => if uri = "" then label else uri
    | none => label

/-- The name that a spelled one stands for. -/
def resolve (scope : Scope) (forAttribute : Bool) (spelled : Name) : Name :=
  ⟨scope.space forAttribute spelled.space, spelled.localPart⟩

end Scope

/-! ### Declarations -/

/-- The prefix that an attribute declares, with its URI. -/
def Attribute.declared? (a : Attribute) : Option (String × String) :=
  a.name.declaredLabel?.map fun label => (label, a.value)

/-- The prefixes that attributes declare, latest first. -/
def Scope.ofAttributes (attributes : List Attribute) : Scope :=
  (attributes.filterMap Attribute.declared?).reverse

theorem Scope.ofAttributes_cons (a : Attribute) (attributes : List Attribute) :
    Scope.ofAttributes (a :: attributes) =
      Scope.ofAttributes attributes ++ a.declared?.toList := by
  unfold Scope.ofAttributes
  cases h : a.declared? <;> simp [h]

/-- What end tags take back for declarations made in the scope `outer`. -/
def Scope.marks : Scope → Scope → List Mark
  | [], _ => []
  | (label, _) :: rest, outer =>
    .binding label (Scope.uri? (rest ++ outer) label) :: Scope.marks rest outer

theorem Scope.marks_append (inner middle outer : Scope) :
    Scope.marks (inner ++ middle) outer =
      inner.marks (middle ++ outer) ++ middle.marks outer := by
  induction inner with
  | nil => rfl
  | cons entry inner ih =>
      obtain ⟨label, uri⟩ := entry
      simp only [List.cons_append, Scope.marks, ih, List.append_assoc]

/-! ### Encoders -/

namespace Encoder

/-- The tables of an encoder hold the prefixes of a scope. -/
structure Reflects (e : Encoder) (scope : Scope) : Prop where
  /-- Every prefix has the URI of its latest declaration. -/
  uris : ∀ label, e.uris.get? label = scope.uri? label
  /-- Every URI has the prefixes that were bound to it. -/
  labels : ∀ uri, (e.labels.get? uri).getD [] = scope.labels uri

/-- A new encoder `Reflects` the scope without declarations. -/
theorem reflects_nil : ({} : Encoder).Reflects [] :=
  ⟨fun _ => rfl, fun _ => rfl⟩

/-- `Reflects` depends on the tables of the encoder only. -/
theorem Reflects.of_eq {e e' : Encoder} {scope : Scope} (h : e.Reflects scope)
    (huris : e'.uris = e.uris) (hlabels : e'.labels = e.labels) : e'.Reflects scope :=
  ⟨fun label => huris ▸ h.uris label, fun uri => hlabels ▸ h.labels uri⟩

/-- After `bind` the encoder `Reflects` the scope with one more declaration in front. -/
theorem Reflects.bind {e : Encoder} {scope : Scope} (h : e.Reflects scope) (label uri : String) :
    (e.bind label uri).Reflects ((label, uri) :: scope) := by
  refine ⟨fun other => ?_, fun other => ?_⟩
  · show (e.uris.insert label uri).get? other = _
    rw [Table.get?_insert, Scope.uri?_cons, h.uris]
  · show ((e.labels.insert uri (label :: (e.labels.get? uri).getD [])).get? other).getD [] = _
    rw [Table.get?_insert, Scope.labels_cons]
    by_cases hother : uri = other
    · rw [if_pos hother, if_pos hother, h.labels, hother]
      rfl
    · rw [if_neg hother, if_neg hother, h.labels]

/-- After `unbind` the encoder `Reflects` the scope without its first declaration. -/
theorem Reflects.unbind {e : Encoder} {outer : Scope} {label uri : String}
    (h : e.Reflects ((label, uri) :: outer)) :
    (e.unbind label (outer.uri? label)).Reflects outer := by
  have hnow : e.uris.get? label = some uri := by
    rw [h.uris, Scope.uri?_cons, if_pos rfl]
  obtain ⟨known, hknown, herase⟩ :
      ∃ known, e.labels.get? uri = some known ∧ known.erase label = outer.labels uri := by
    have hlabels := h.labels uri
    rw [Scope.labels_cons, if_pos rfl] at hlabels
    cases hget : e.labels.get? uri with
    | none =>
        rw [hget] at hlabels
        exact absurd hlabels.symm (List.cons_ne_nil _ _)
    | some known =>
        rw [hget, Option.getD_some] at hlabels
        exact ⟨known, rfl, by rw [hlabels, List.erase_cons_head]⟩
  -- the table of URIs goes back, whatever happens to the other one
  have huris : ∀ other,
      (match outer.uri? label with
        | some previous => e.uris.insert label previous
        | none => e.uris.erase label).get? other = outer.uri? other := by
    intro other
    have hother := h.uris other
    rw [Scope.uri?_cons] at hother
    by_cases heq : label = other
    · subst heq
      cases outer.uri? label with
      | none => rw [Table.get?_erase, if_pos rfl]
      | some previous => rw [Table.get?_insert, if_pos rfl]
    · rw [if_neg heq] at hother
      cases outer.uri? label with
      | none => rw [Table.get?_erase, if_neg heq, hother]
      | some previous => rw [Table.get?_insert, if_neg heq, hother]
  have hothers : ∀ other, uri ≠ other →
      (e.labels.get? other).getD [] = outer.labels other := by
    intro other hne
    rw [h.labels, Scope.labels_cons, if_neg hne]
  unfold Encoder.unbind
  simp only [hnow, hknown, herase]
  cases hrest : outer.labels uri with
  | nil =>
      refine ⟨huris, ?_⟩
      intro other
      show ((e.labels.erase uri).get? other).getD [] = _
      rw [Table.get?_erase]
      by_cases heq : uri = other
      · rw [if_pos heq, ← heq, hrest, Option.getD_none]
      · rw [if_neg heq, hothers other heq]
  | cons first rest =>
      refine ⟨huris, ?_⟩
      intro other
      show ((e.labels.insert uri (first :: rest)).get? other).getD [] = _
      rw [Table.get?_insert]
      by_cases heq : uri = other
      · rw [if_pos heq, ← heq, hrest, Option.getD_some]
      · rw [if_neg heq, hothers other heq]

theorem Reflects.visibleLabel? {e : Encoder} {scope : Scope} (h : e.Reflects scope)
    (uri : String) (forAttribute : Bool) :
    e.visibleLabel? uri forAttribute = scope.visible? forAttribute uri := by
  unfold Encoder.visibleLabel? Scope.visible?
  rw [h.labels]
  simp only [h.uris]

end Encoder

/-- A spelled name as it is written. -/
def Name.written (spelled : Name) : String :=
  if spelled.space == "" then spelled.localPart else spelled.space ++ ":" ++ spelled.localPart

/-- If an encoder `Reflects` a scope, `qualify` writes names as `spell?` spells them. -/
theorem Encoder.Reflects.qualify {e : Encoder} {scope : Scope} (h : e.Reflects scope)
    (forAttribute : Bool) (name : Name) :
    e.qualify forAttribute name =
      match scope.spell? forAttribute name with
      | some spelled => .ok spelled.written
      | none => .error (.unknownNamespace name.space) := by
  unfold Encoder.qualify Scope.spell? Scope.label?
  by_cases hempty : name.space == ""
  · rw [if_pos hempty, if_pos hempty]
    rfl
  rw [if_neg hempty, if_neg hempty]
  by_cases hxmlns : name.space == Name.xmlns
  · rw [if_pos hxmlns, if_pos hxmlns]
    rfl
  rw [if_neg hxmlns, if_neg hxmlns, h.visibleLabel?]
  cases scope.visible? forAttribute name.space with
  | some label => rfl
  | none =>
      simp only [Table.contains, h.uris]
      by_cases hbound : (scope.uri? name.space).isSome
      · rw [if_pos hbound, if_pos hbound]
        simp only [Option.map_some, Name.written, if_neg hempty]
      rw [if_neg hbound, if_neg hbound]
      by_cases hxml : (name.space == "xml" || name.space == Name.xmlSpace)
      · rw [if_pos hxml, if_pos hxml]
        rfl
      · rw [if_neg hxml, if_neg hxml]
        rfl

end ResourceShards.Markup
