import ResourceShards.Markup.View

/-!
# ResourceShards.Reading

**Reading a document for a listener.** A reader walks a document and hands what it finds to a
listener, one item at a time. The listener keeps a state and may refuse an item; reading stops there
with its refusal. A reader that needs more events than the document has finds out why it ended: if
the document is wrong, that explains whatever else went wrong, and becomes the outcome.

* `Listener`: what takes the items
* `Reading`: a walk, which also notes whether it ran out of events
* `Reading.document`: a walk of a whole document
-/

namespace ResourceShards

open Markup (Document Event View)

/-- Something done with a listener in state `σ`. -/
abbrev Listening (σ : Type) := EStateM Error σ

/-- What takes items of type `α` in state `σ`, or refuses them. -/
abbrev Listener (α σ : Type) := α → Listening σ Unit

namespace Listener

/-- Takes every item, and keeps them all, last one first. -/
def collecting {α : Type} : Listener α (List α) :=
  fun a => modify (a :: ·)

/-- Takes up to `limit` items, and refuses the next as a cancelled run does. -/
def upTo {α : Type} (limit : Nat) : Listener α (List α) :=
  fun a => do
    if limit ≤ (← get).length then throw .cancelled
    modify (a :: ·)

end Listener

/-- A reader on its way. -/
structure Progress (σ : Type) where
  /-- The state of the listener. -/
  listener : σ
  /-- Whether more events were asked for than the document has. -/
  ranOut : Bool := false

/-- A walk over events of a document with a listener in state `σ`. -/
abbrev Reading (σ : Type) := EStateM Error (Progress σ)

namespace Reading

variable {α σ : Type}

/-- Does something with the listener. -/
def tell (listening : Listening σ α) : Reading σ α :=
  fun p =>
    match listening p.listener with
    | .ok a s => .ok a { p with listener := s }
    | .error e s => .error e { p with listener := s }

/-- Fails with a label, or goes on with what is there. -/
def ofExcept (label : String) : Except Error α → Reading σ α
  | .ok a => pure a
  | .error e => throw (e.withLabel label)

/-- Reads past the last event of a view. -/
def exhaust (v : View) : Reading σ Unit :=
  if v.final then modify fun p => { p with ranOut := true } else pure ()

/-- Walks a whole document. If the walk ran out of events and the document is wrong, `onFault` tells
the outcome; otherwise the walk does. -/
def document (doc : Document) (onFault : Error → Error) (walk : View → Reading σ Unit) :
    Listening σ Unit :=
  fun s =>
    let (outcome, p) := match walk (.whole doc.events) { listener := s } with
      | .ok _ p => (Except.ok (), p)
      | .error e p => (Except.error e, p)
    match p.ranOut, doc.fault?, outcome with
    | true, some fault, _ => .error (onFault fault) p.listener
    | _, _, .error e => .error e p.listener
    | _, _, .ok _ => .ok () p.listener

end Reading

/-- The items that a reader hands out when all are taken, and how it ends. -/
def Listening.trace {α : Type} (read : Listener α (List α) → Listening (List α) Unit) :
    List α × Except Error Unit :=
  match read Listener.collecting [] with
  | .ok _ items => (items.reverse, .ok ())
  | .error e items => (items.reverse, .error e)

end ResourceShards
