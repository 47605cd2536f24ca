import ResourceShards.Markup.Fault
import ResourceShards.Markup.Token

/-!
# ResourceShards.Markup.Namespace

**Namespaces of a document.** Attributes of start tags bind prefixes to URIs for the element and
what it holds. Names are resolved with the bindings in force: an element without a prefix is in the
default namespace, an attribute without one in none, and a prefix without a binding stands for
itself. URIs are taken as they are written.
-/

namespace ResourceShards.Markup

/-- A prefix and the URI it is bound to. The empty prefix is that of the default namespace. -/
structure Binding where
  /-- The prefix. -/
  label : Bytes
  /-- The URI; an empty one takes the binding back. -/
  uri : Bytes
  deriving DecidableEq, Repr

/-- An attribute as it is written: its key and what stands between its quotes. -/
structure RawAttribute where
  /-- The key. -/
  key : Bytes
  /-- The value, references not resolved. -/
  value : Bytes
  deriving DecidableEq, Repr

namespace Namespace

/-- The bytes of `xml`. -/
def xmlLabel : Bytes := [0x78, 0x6d, 0x6c]

/-- The bytes of `xmlns`. -/
def xmlnsLabel : Bytes := [0x78, 0x6d, 0x6c, 0x6e, 0x73]

/-- The byte between a prefix and a local part. -/
def colon : UInt8 := 0x3a

/-- The URI of the prefix `xml`. -/
def xmlUri : Bytes := Bytes.ofString Name.xmlSpace

/-- The URI of the prefix `xmlns`. -/
def xmlnsUri : Bytes := Bytes.ofString "http://www.w3.org/2000/xmlns/"

/-- The bindings of every document. -/
def initial : List Binding :=
  [⟨xmlnsLabel, xmlnsUri⟩, ⟨xmlLabel, xmlUri⟩]

/-! ### Declarations -/

/-- The prefix that an attribute with this key binds, if it binds one. -/
def declared? (key : Bytes) : Option Bytes :=
  match Bytes.dropRun? xmlnsLabel key with
  | some [] => some []
  | some (b :: label) => if b == colon then some label else none
  | none => none

/-- Adds the binding of one attribute. `xml` keeps its URI, `xmlns` is never bound, and no other
prefix is bound to the URI of one of them; the default namespace, declared by `xmlns` alone, may be.
-/
def declareOne (scope : List Binding) (a : RawAttribute) : Except Fault (List Binding) :=
  match declared? a.key with
  | none => .ok scope
  | some label =>
    if a.key == xmlnsLabel then .ok (⟨[], a.value⟩ :: scope)
    else if label == xmlLabel then
      if a.value == xmlUri then .ok scope else .error (.reservedBinding label a.value)
    else if label == xmlnsLabel || a.value == xmlUri || a.value == xmlnsUri then
      .error (.reservedBinding label a.value)
    else .ok (⟨label, a.value⟩ :: scope)

/-- Adds the bindings of a tag's attributes; a later one goes before an earlier one. -/
def declare (scope : List Binding) (attributes : List RawAttribute) :
    Except Fault (List Binding) :=
  attributes.foldlM declareOne scope

/-! ### Resolution -/

/-- The namespace of a prefix: the URI of its latest binding, or the prefix itself if there is no
binding or it was taken back. -/
def ofLabel (scope : List Binding) (label : Bytes) : Bytes :=
  match scope.find? fun b => b.label != [] && b.label == label with
  | some b => if b.uri == [] then label else b.uri
  | none => label

/-- The default namespace; empty if there is none. -/
def default (scope : List Binding) : Bytes :=
  match scope.find? fun b => b.label == [] with
  | some b => b.uri
  | none => []

/-- A name with a prefix is resolved by its prefix; one without is in the namespace `unprefixed`. -/
def resolve (scope : List Binding) (unprefixed : Bytes) (raw : Bytes) : Name :=
  match Bytes.cutFirst colon raw with
  | some (label, localPart) =>
    ⟨Utf8.decodeLossy (ofLabel scope label), Utf8.decodeLossy localPart⟩
  | none => ⟨Utf8.decodeLossy unprefixed, Utf8.decodeLossy raw⟩

/-- The name of an element. -/
def elementName (scope : List Binding) (raw : Bytes) : Name :=
  resolve scope (default scope) raw

/-- The name of an attribute. One that binds a prefix is named for it. -/
def attributeName (scope : List Binding) (key : Bytes) : Name :=
  if key == xmlnsLabel then .plain Name.xmlns
  else
    match Bytes.dropRun? (xmlnsLabel ++ [colon]) key with
    | some label => ⟨Name.xmlns, Utf8.decodeLossy label⟩
    | none => resolve scope [] key

end Namespace

end ResourceShards.Markup
