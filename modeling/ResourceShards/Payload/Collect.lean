import ResourceShards.Listing.File
import ResourceShards.Markup.Encoder

/-!
# ResourceShards.Payload.Collect

**Cutting a values file into declarations.** Each declaration of the first `<resources>` element is
written out on its own, with the prefixes that its ancestors declared. A second encoder goes along
with the walk and knows those: it writes the start tags of the ancestors and nothing else, and every
declaration is written by a child of it. The attributes inside a styleable are declarations too.

* `Payload.collect`: the walk of a values document
* `Payload.ofDocument`, `Payload.ofFile`: whole documents and files
-/

namespace ResourceShards

open Markup (Attribute Document Encoder Event StartTag View)

/-- What a values file yields. -/
inductive Collected where
  /-- An attribute of the `<resources>` tag. -/
  | rootAttribute (attr : Attribute)
  /-- A declared resource and its declaration as it is written. -/
  | value (name : ResourceName) (payload : Bytes)
  deriving DecidableEq, Repr

namespace Payload

variable {σ : Type}

/-- The resource that an element declares. -/
def declarationName (start : StartTag) : Except Error ResourceName := do
  let key ← Tag.required start Tag.nameAttribute
  if Tag.isItem start.name then
    let typeName ← Tag.required start Tag.typeAttribute
    let type ← ResourceName.readType typeName.toList
    ResourceName.read key type
  else
    match Tag.declaredType? start.name.localPart with
    | some type => ResourceName.read key type
    | none => throw (.unhandledTag start.name.localPart)

/-- The failure of an element whose end tag is missing. -/
def unclosed (start : StartTag) (offset : Nat) : Error :=
  (Error.truncated offset 1).withLabel ("<" ++ start.name.display ++ ">: ")

/-- Writes out an element. The end tag is the last thing looked for, so an element that can not be
written fails before one that is not closed. -/
def payload (label : String) (shadow : Encoder) (e : Event) (start : StartTag) (element : View) :
    Reading σ Bytes := do
  let place := Error.withLabel label ∘ Error.withLabel "extracting element failed: "
  let body := shadow.child.encodeAll (e.token :: element.events.map Event.token)
  if let .error err := body.outcome then throw (place err)
  Reading.exhaust element
  if !element.closed then throw ((unclosed start e.offset).withLabel label)
  let closing := body.encoder.encode (.finish start.name)
  if let .error err := closing.outcome then throw (place err)
  return Bytes.ofString (body.text ++ closing.text)

/-- The encoder after a token of an ancestor. -/
def follow (shadow : Encoder) (token : Markup.Token) : Reading σ Encoder :=
  let written := shadow.encode token
  match written.outcome with
  | .ok () => pure written.encoder
  | .error err => throw err

/-- The declarations among events, and the encoder of their ancestors after them. -/
def declarations (label : String) (emit : Listener Collected σ) (shadow : Encoder) (v : View)
    (events : List Event) : Reading σ Encoder :=
  match events with
  | [] => do
    Reading.exhaust v
    return shadow
  | e :: rest =>
    match e.start? with
    | none => declarations label emit shadow v rest
    | some start => do
      let element := v.enter start.name rest
      if Tag.isSkipped start.name then
        Reading.exhaust element
        declarations label emit shadow v (View.leave start.name rest)
      else
        let name ← Reading.ofExcept label
          (Error.labelling "extract name and type failed: " (declarationName start))
        let bytes ← payload label shadow e start element
        Reading.tell (emit (.value name bytes))
        if name.type == .styleable then
          let inner ← follow shadow e.token
          let inner ← declarations label emit inner (.kept element.events) element.events
          let outer ← follow inner (.finish start.name)
          declarations label emit outer v (View.leave start.name rest)
        else
          declarations label emit shadow v (View.leave start.name rest)
termination_by events.length
decreasing_by
  · simp
  · exact Nat.lt_succ_of_le (View.length_leave_le start.name rest)
  · exact Nat.lt_succ_of_le (View.length_inside_le v start.name rest)
  · exact Nat.lt_succ_of_le (View.length_leave_le start.name rest)
  · exact Nat.lt_succ_of_le (View.length_leave_le start.name rest)

/-- Hands out the attributes of the `<resources>` tag. -/
def rootAttributes (emit : Listener Collected σ) : List Attribute → Reading σ Unit
  | [] => pure ()
  | a :: rest => do
    Reading.tell (emit (.rootAttribute a))
    rootAttributes emit rest

/-- The walk of a values document up to the first `<resources>` element, and of that element. -/
def collectFrom (label : String) (emit : Listener Collected σ) (shadow : Encoder) (v : View) :
    List Event → Reading σ Unit
  | [] => Reading.exhaust v
  | e :: rest => do
    let written := shadow.encode e.token
    if let .error err := written.outcome then
      throw ((err.withLabel "encoding token failed: ").withLabel label)
    match e.start? with
    | none => collectFrom label emit written.encoder v rest
    | some start =>
      if Tag.isResources start.name then
        rootAttributes emit start.attributes
        let block := v.enter start.name rest
        let _ ← declarations label emit written.encoder block block.events
        if !block.closed then throw ((unclosed start e.offset).withLabel label)
      else collectFrom label emit written.encoder v rest

/-- The root attributes and declarations of a values document. -/
def collect (label : String) (emit : Listener Collected σ) (v : View) : Reading σ Unit :=
  collectFrom label emit {} v v.events

/-- The root attributes and declarations of a document that is read strictly. -/
def ofDocument (label : String) (doc : Document) (emit : Listener Collected σ) :
    Listening σ Unit :=
  Reading.document doc (fun e => (e.withLabel "token failed: ").withLabel label)
    (collect label emit)

/-- The root attributes and declarations of a values file. -/
def ofFile (label : String) (file : ResourceFile) (answer : Except OsError (Tree Bytes))
    (emit : Listener Collected σ) : Listening σ Unit :=
  let place := label ++ file.path.display ++ " values-parse: "
  match answer with
  | .error reason => throw ((Error.io .openFile file.path reason.message).withLabel place)
  | .ok found => ofDocument place (Document.read .strict found.contents) emit

end Payload

end ResourceShards
