import ResourceShards.Markup.View

/-!
# ResourceShards.Markup.Cursor

**Reading a view event by event.** A cursor stands inside a document or an element. It can be taken
into an element whose start tag it has just read, and back out of it at any time: reading goes on
behind whatever was read inside. Only a cursor that was asked for an event past its last one knows
that it is done, and only then has the end tag of its element been read.
-/

namespace ResourceShards.Markup

/-- A place inside a stretch of events. -/
structure Cursor where
  /-- The events of the stretch that were not read. -/
  ahead : List Event
  /-- The end tag of the element and the events after it. -/
  closing : Option (Event × List Event) := none
  /-- Whether an event past the last one was asked for. -/
  done : Bool := false
  deriving DecidableEq, Repr

namespace Cursor

/-- A cursor at the front of a document. -/
def start (events : List Event) : Cursor :=
  { ahead := events }

/-- Reads one event. -/
def next (c : Cursor) : Option Event × Cursor :=
  match c.ahead with
  | e :: rest => (some e, { c with ahead := rest })
  | [] => (none, { c with done := true })

/-- Reads all events that are left. -/
def drain (c : Cursor) : List Event × Cursor :=
  (c.ahead, { c with ahead := [], done := true })

/-- Reads up to the first start tag that loosely matches a name. -/
def skipTo (c : Cursor) (name : Name) : Option Event × Cursor :=
  match View.skipTo name c.ahead with
  | some (e, _, rest) => (some e, { c with ahead := rest })
  | none => (none, c.drain.2)

/-- Whether the end tag of the element has been read. -/
def isClosed (c : Cursor) : Bool :=
  c.done && c.closing.isSome

/-- Goes into the element whose start tag has just been read. -/
def enter (c : Cursor) (name : Name) : Cursor :=
  let s := View.split name c.ahead
  { ahead := s.inside, closing := s.closing }

/-- Goes back to `outer` from a cursor inside one of its elements. -/
def leave (outer inner : Cursor) : Cursor :=
  match inner.closing with
  | some (e, rest) =>
    { outer with ahead := if inner.done then rest else inner.ahead ++ e :: rest }
  | none => { outer with ahead := inner.ahead, done := outer.done || inner.done }

/-- An element that was not read at all is still ahead when it is left. -/
theorem leave_enter (c : Cursor) (name : Name) : c.leave (c.enter name) = c := by
  have h := View.split_events name c.ahead
  unfold leave enter
  split
  · rename_i e rest hc
    simp only at hc
    rw [hc] at h
    simp [h]
  · rename_i hc
    simp only at hc
    rw [hc] at h
    simp only [List.append_nil] at h
    simp [h]

end Cursor

end ResourceShards.Markup
