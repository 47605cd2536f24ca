import ResourceShards.Markup.Token

/-!
# ResourceShards.Markup.Window

**Reading through views that share one source.** A view of an element is a window on whatever the
element's start tag was read from: a document, or again a view. It passes events on as they come and
keeps a count of the open elements of its own name. The end tag that brings the count to zero is
swallowed, and with it the view ends; it also ends where its source does. Since every view reads
from the one that it is set into, the outer ones go on behind whatever was read through it.

* `Window`: the state of one view
* `Lookout`: a document with the views that are set into each other
* `Lookout.next`, `Lookout.enter`, `Lookout.leave`: what a reader can do
* `Lookout.drain`: all events that are left
-/

namespace ResourceShards.Markup

/-- The state of a view. -/
structure Window where
  /-- The name of the element. -/
  name : Name
  /-- How many elements of that name are open, itself included. -/
  depth : Int := 1
  /-- Whether the view has ended. -/
  done : Bool := false
  /-- Whether the end tag of the element has been read. -/
  closed : Bool := false
  deriving DecidableEq, Repr

namespace Window

/-- What a view gives for an event of its source: the event, or nothing for its own end tag. -/
def pass (w : Window) (e : Event) : Option Event × Window :=
  match e.token with
  | .start tag => (some e, { w with depth := if tag.name = w.name then w.depth + 1 else w.depth })
  | .finish found =>
    let left := if found = w.name then w.depth - 1 else w.depth
    if left = 0 then (none, { w with depth := left, done := true, closed := true })
    else (some e, { w with depth := left })
  | _ => (some e, w)

end Window

/-- Where a reader stands: in a document, or in a view of an element of what another reader stands
in. -/
inductive Lookout where
  /-- In a document, in front of the events that follow. -/
  | document (ahead : List Event)
  /-- In a view, with what it reads from. -/
  | through (w : Window) (outer : Lookout)
  deriving DecidableEq, Repr

namespace Lookout

/-- The events of the document that were not read. -/
def ahead : Lookout → List Event
  | document ahead => ahead
  | through _ outer => outer.ahead

/-- The views, innermost first. -/
def windows : Lookout → List Window
  | document _ => []
  | through w outer => w :: outer.windows

/-- Reads one event. A view that has ended does not touch its source any more. -/
def next : Lookout → Option Event × Lookout
  | document [] => (none, document [])
  | document (e :: rest) => (some e, document rest)
  | through w outer =>
    if w.done then (none, through w outer)
    else
      match outer.next with
      | (none, outer) => (none, through { w with done := true } outer)
      | (some e, outer) => ((w.pass e).1, through (w.pass e).2 outer)

/-- Goes into the element whose start tag has just been read. -/
def enter (l : Lookout) (name : Name) : Lookout :=
  through { name := name } l

/-- Goes back to what a view reads from. -/
def leave : Lookout → Lookout
  | document ahead => document ahead
  | through _ outer => outer

/-- Whether the end tag of the element has been read. -/
def isClosed : Lookout → Bool
  | document _ => false
  | through w _ => w.closed

/-- Every event that is read is one of the document. -/
theorem length_ahead_next (l : Lookout) :
    l.next.2.ahead.length + (if l.next.1.isSome then 1 else 0) ≤ l.ahead.length := by
  induction l with
  | document ahead => cases ahead <;> simp [next, Lookout.ahead]
  | through w outer ih =>
      unfold next
      split
      · simp
      · split
        · rename_i outer' h
          simpa [Lookout.ahead, h] using ih
        · rename_i e outer' h
          simp only [h, Option.isSome_some, if_true] at ih
          simp only [Lookout.ahead]
          split <;> omega

/-- Reads all events that are left. -/
def drain (l : Lookout) : List Event × Lookout :=
  match _h : l.next with
  | (none, last) => ([], last)
  | (some e, l') => (e :: l'.drain.1, l'.drain.2)
termination_by l.ahead.length
decreasing_by
  all_goals
    have hle := length_ahead_next l
    simp only [_h, Option.isSome_some, if_true] at hle
    omega

/-! ### Any calls -/

/-- What a reader can do. -/
inductive Call where
  /-- Read one event. -/
  | next
  /-- Go into an element. -/
  | enter (name : Name)
  /-- Go back out of an element. -/
  | leave
  deriving DecidableEq, Repr

/-- What one call comes to. -/
def call (l : Lookout) : Call → Lookout
  | .next => l.next.2
  | .enter name => l.enter name
  | .leave => l.leave

/-- What calls come to, one after the other. -/
def run (l : Lookout) (calls : List Call) : Lookout :=
  calls.foldl call l

end Lookout

end ResourceShards.Markup
