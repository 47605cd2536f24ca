import ResourceShards.Error
import ResourceShards.Markup.Token
import ResourceShards.Table
import ResourceShards.Text.Blank

/-!
# ResourceShards.Markup.Encoder

**From tokens to text.** Tokens name namespaces, so writing them asks for prefixes. An encoder knows
which prefixes are in scope: start tags declare them, end tags take the declarations back. A child
encoder starts with the prefixes that its parent has in scope, so that a piece of a document can be
written on its own with the prefixes it had there. With a layout the encoder starts elements, ends
of elements that hold others, comments and the like on lines of their own.

A token that can not be written leaves what was written of it before, and the encoder as far as it
came.

* `Encoder.encode`: one token
* `Encoder.encodeAll`: tokens up to the first that can not be written
* `Encoder.child`: an encoder for a piece of the document
-/

namespace ResourceShards.Markup

/-! ### Escaping -/

/-- What text writes for a character. -/
def escapeTextChar : Char → List Char
  | '&' => "&amp;".toList
  | '<' => "&lt;".toList
  | '>' => "&gt;".toList
  | c => [c]

/-- What an attribute value in double quotes writes for a character. -/
def escapeValueChar : Char → List Char
  | '&' => "&amp;".toList
  | '<' => "&lt;".toList
  | '>' => "&gt;".toList
  | '\x22' => "&quot;".toList
  | '\t' => "&#x9;".toList
  | '\n' => "&#xA;".toList
  | '\r' => "&#xD;".toList
  | c => [c]

/-- Text as it is written. -/
def escapeText (s : String) : String :=
  String.ofList (s.toList.flatMap escapeTextChar)

/-- An attribute value as it is written between double quotes. -/
def escapeValue (s : String) : String :=
  String.ofList (s.toList.flatMap escapeValueChar)

/-! ### Layout -/

/-- Where an encoder stands on the page. -/
structure Layout where
  /-- What every line begins with. -/
  lead : String
  /-- What it goes on with, once per open element. -/
  unit : String
  /-- How many elements are open. -/
  depth : Nat := 0
  /-- Whether the last line was begun by a start tag. -/
  opened : Bool := false
  /-- Whether a line was begun. -/
  started : Bool := false
  deriving DecidableEq, Repr

/-- What a token does to the depth. -/
inductive Shift where
  /-- It opens an element. -/
  | deeper
  /-- It stays in the element. -/
  | level
  /-- It closes the element. -/
  | back
  deriving DecidableEq, Repr

namespace Layout

/-- The beginning of a line; the first one has no line feed before it. -/
def line (l : Layout) : String :=
  (if l.started then "\n" else "") ++ l.lead ++ String.join (List.replicate l.depth l.unit)

/-- What goes before a token, and where it leads. An end tag that follows the start tag of its
element, with nothing but text between them, stays on its line. -/
def shift (l : Layout) : Shift → String × Layout
  | .deeper => (l.line, { l with depth := l.depth + 1, opened := true, started := true })
  | .level => (l.line, { l with started := true })
  | .back =>
    let outer := { l with depth := l.depth - 1, opened := false }
    if l.opened then ("", outer) else (outer.line, { outer with started := true })

end Layout

/-! ### Encoders -/

/-- What an end tag takes back. -/
inductive Mark where
  /-- An open element. -/
  | element (name : Name)
  /-- A prefix declared by its start tag, and the URI it had before. -/
  | binding (label : String) (previous : Option String)
  deriving DecidableEq, Repr

/-- The state of an encoder. -/
structure Encoder where
  /-- What end tags take back, innermost first. -/
  marks : List Mark := []
  /-- The URI of each prefix. -/
  uris : Table String String := []
  /-- The prefixes of each URI, latest first. -/
  labels : Table String (List String) := []
  /-- The layout, if there is one. -/
  layout : Option Layout := none
  deriving DecidableEq, Repr

/-- What writing gives: the text, the encoder after it, and whether all was written. -/
structure Encoded where
  /-- The text that was written. -/
  text : String
  /-- The encoder after it. -/
  encoder : Encoder
  /-- Whether all was written. -/
  outcome : Except Error Unit

namespace Encoder

/-- An encoder that sees the prefixes which another one has in scope. -/
def child (e : Encoder) : Encoder :=
  { uris := e.uris, labels := e.labels }

/-- The encoder with a layout, at the beginning of a page. -/
def withLayout (e : Encoder) (lead unit : String) : Encoder :=
  { e with layout := some { lead, unit } }

/-! ### Prefixes -/

/-- Declares a prefix. -/
def bind (e : Encoder) (label uri : String) : Encoder :=
  { e with
    marks := .binding label (e.uris.get? label) :: e.marks
    uris := e.uris.insert label uri
    labels := e.labels.alter uri fun known => label :: known.getD [] }

/-- Takes the declaration of a prefix back. -/
def unbind (e : Encoder) (label : String) (previous : Option String) : Encoder :=
  let uris := match previous with
    | some uri => e.uris.insert label uri
    | none => e.uris.erase label
  match e.uris.get? label with
  | none => { e with uris }
  | some current =>
    match e.labels.get? current with
    | none => { e with uris }
    | some known =>
      match known.erase label with
      | [] => { e with uris, labels := e.labels.erase current }
      | rest => { e with uris, labels := e.labels.insert current rest }

/-- Declares the prefix of an attribute, if it declares one. -/
def bindDeclared (e : Encoder) (a : Attribute) : Encoder :=
  match a.name.declaredLabel? with
  | some label => e.bind label a.value
  | none => e

/-- The latest prefix that is still bound to a URI. An attribute without a prefix is in no
namespace, so the default namespace is of no use to it. -/
def visibleLabel? (e : Encoder) (uri : String) (forAttribute : Bool) : Option String :=
  ((e.labels.get? uri).getD []).find? fun label =>
    e.uris.get? label == some uri && !(forAttribute && label == "")

/-- A name as it is written. A namespace without a visible prefix may be a prefix itself, as it is
for names with a prefix that was never declared. -/
def qualify (e : Encoder) (forAttribute : Bool) (name : Name) : Except Error String :=
  if name.space == "" then .ok name.localPart
  else if name.space == Name.xmlns then .ok (Name.xmlns ++ ":" ++ name.localPart)
  else
    match e.visibleLabel? name.space forAttribute with
    | some label => .ok (if label == "" then name.localPart else label ++ ":" ++ name.localPart)
    | none =>
      if e.uris.contains name.space then .ok (name.space ++ ":" ++ name.localPart)
      else if name.space == "xml" || name.space == Name.xmlSpace then .ok ("xml:" ++ name.localPart)
      else .error (.unknownNamespace name.space)

/-! ### Tokens -/

/-- What goes before a token. -/
def lead (e : Encoder) (s : Shift) : String :=
  match e.layout with
  | some l => (l.shift s).1
  | none => ""

/-- The encoder after what goes before a token. -/
def shifted (e : Encoder) (s : Shift) : Encoder :=
  { e with layout := e.layout.map fun l => (l.shift s).2 }

/-- Attributes up to the first that can not be written. -/
def attributesText (e : Encoder) : List Attribute → String × Except Error Unit
  | [] => ("", .ok ())
  | a :: rest =>
    match e.qualify true a.name with
    | .error err => ("", .error err)
    | .ok name =>
      let (text, outcome) := e.attributesText rest
      (" " ++ name ++ "=\"" ++ escapeValue a.value ++ "\"" ++ text, outcome)

/-- A start tag. Its own declarations hold for its own name. -/
def encodeStart (e : Encoder) (tag : StartTag) : Encoded :=
  let opened := { e.shifted .deeper with marks := .element tag.name :: e.marks }
  let inner := tag.attributes.foldl bindDeclared opened
  match inner.qualify false tag.name with
  | .error err => ⟨e.lead .deeper, inner, .error err⟩
  | .ok name =>
    match inner.attributesText tag.attributes with
    | (text, .ok ()) => ⟨e.lead .deeper ++ "<" ++ name ++ text ++ ">", inner, .ok ()⟩
    | (text, .error err) => ⟨e.lead .deeper ++ "<" ++ name ++ text, inner, .error err⟩

/-- Takes back what was declared since the innermost element was opened, and closes it. -/
def unwind (e : Encoder) : List Mark → Option Name × Encoder
  | [] => (none, { e with marks := [] })
  | .binding label previous :: rest => (e.unbind label previous).unwind rest
  | .element name :: rest => (some name, { e with marks := rest })

/-- An end tag, which must close the innermost element. -/
def encodeEnd (e : Encoder) (name : Name) : Encoded :=
  match e.qualify false name with
  | .error err => ⟨"", e, .error err⟩
  | .ok qualified =>
    match e.unwind e.marks with
    | (none, outer) => ⟨"", outer, .error (.unbalancedTags "" name.display)⟩
    | (some opened, outer) =>
      if opened = name then
        ⟨outer.lead .back ++ "</" ++ qualified ++ ">", outer.shifted .back, .ok ()⟩
      else ⟨"", outer, .error (.unbalancedTags opened.display name.display)⟩

/-- Writes one token. -/
def encode (e : Encoder) : Token → Encoded
  | .start tag => e.encodeStart tag
  | .finish name => e.encodeEnd name
  | .text content => ⟨escapeText content, e, .ok ()⟩
  | .cdata content => ⟨"<![CDATA[" ++ content ++ "]]>", e, .ok ()⟩
  | .comment content => ⟨e.lead .level ++ "<!--" ++ content ++ "-->", e.shifted .level, .ok ()⟩
  | .instruction content => ⟨e.lead .level ++ "<?" ++ content ++ "?>", e.shifted .level, .ok ()⟩
  | .doctype content =>
    ⟨e.lead .level ++ "<!DOCTYPE " ++ Text.trimStart content ++ ">", e.shifted .level, .ok ()⟩

/-- Writes tokens up to the first that can not be written. -/
def encodeAll (e : Encoder) : List Token → Encoded
  | [] => ⟨"", e, .ok ()⟩
  | t :: rest =>
    match e.encode t with
    | ⟨text, next, .ok ()⟩ =>
      let ⟨more, last, outcome⟩ := next.encodeAll rest
      ⟨text ++ more, last, outcome⟩
    | failed => failed

end Encoder

end ResourceShards.Markup
