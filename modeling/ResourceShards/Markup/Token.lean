/-!
# ResourceShards.Markup.Token

**Names, tokens and events of XML.** A name is a namespace and a local part; prefixes are not part
of it. Attributes that declare a namespace are the exception: `xmlns:p` is the local part `p` in the
namespace `xmlns`, and `xmlns` alone is a local part without a namespace. An event is a token with
the position that reading it reached.
-/

namespace ResourceShards.Markup

/-- A name: a namespace, empty for none, and a local part. -/
structure Name where
  /-- The namespace. -/
  space : String
  /-- The local part. -/
  localPart : String
  deriving DecidableEq, Repr

namespace Name

/-- The namespace of attributes that declare one. -/
def xmlns : String := "xmlns"

/-- The namespace to which the prefix `xml` is always bound. -/
def xmlSpace : String := "http://www.w3.org/XML/1998/namespace"

/-- A name without a namespace. -/
def plain (localPart : String) : Name :=
  ⟨"", localPart⟩

/-- Equal local parts, and equal namespaces unless one of them is empty. -/
def looselyMatches (a b : Name) : Bool :=
  a.localPart == b.localPart && (a.space == "" || b.space == "" || a.space == b.space)

/-- The prefix that an attribute of this name declares, if it declares one; the default namespace
has the empty prefix. -/
def declaredLabel? (n : Name) : Option String :=
  if n.space == xmlns then some n.localPart
  else if n.space == "" && n.localPart == xmlns then some ""
  else none

/-- The name in a message: its namespace in braces, then the local part. -/
def display (n : Name) : String :=
  if n.space == "" then n.localPart else "\x7b" ++ n.space ++ "\x7d" ++ n.localPart

/-- The order of names: by namespace, then by local part. -/
def compare (a b : Name) : Ordering :=
  (Ord.compare a.space b.space).then (Ord.compare a.localPart b.localPart)

end Name

/-- An attribute of a start tag. -/
structure Attribute where
  /-- Its name. -/
  name : Name
  /-- Its value, references resolved. -/
  value : String
  deriving DecidableEq, Repr

/-- A start tag. -/
structure StartTag where
  /-- The element's name. -/
  name : Name
  /-- The attributes, as they are listed. -/
  attributes : List Attribute
  deriving DecidableEq, Repr

namespace StartTag

/-- The value of the first attribute that loosely matches a name. -/
def attribute? (start : StartTag) (name : Name) : Option String :=
  (start.attributes.find? fun a => a.name.looselyMatches name).map Attribute.value

end StartTag

/-- A piece of a document. -/
inductive Token where
  /-- A start tag. -/
  | start (tag : StartTag)
  /-- An end tag. -/
  | finish (name : Name)
  /-- Text, references resolved. -/
  | text (content : String)
  /-- The content of a CDATA section. -/
  | cdata (content : String)
  /-- The content of a comment. -/
  | comment (content : String)
  /-- The content of a processing instruction or of the XML declaration. -/
  | instruction (content : String)
  /-- The content of a document type. -/
  | doctype (content : String)
  deriving DecidableEq, Repr

/-- A token and the number of bytes read when it was complete. -/
structure Event where
  /-- The number of bytes. -/
  offset : Nat
  /-- The token. -/
  token : Token
  deriving DecidableEq, Repr

namespace Event

/-- The start tag, if the event is one. -/
def start? (e : Event) : Option StartTag :=
  match e.token with
  | .start tag => some tag
  | _ => none

/-- The attributes of a start tag; other events have none. -/
def attributes (e : Event) : List Attribute :=
  match e.token with
  | .start tag => tag.attributes
  | _ => []

end Event

end ResourceShards.Markup
