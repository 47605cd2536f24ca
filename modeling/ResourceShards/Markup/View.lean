import ResourceShards.Markup.Decoder

/-!
# ResourceShards.Markup.View

**What a reader may see of a document.** A view is a stretch of events: a whole document, or what
stands between a start tag and the end tag that closes it. The end tag is found by counting the tags
of the element's own name. Where it is missing the view holds all events that are left.

* `View.split`: events cut at the end tag of an element
* `View.enter`: the view of an element inside a view
* `View.skipTo`: the first element of some name
-/

namespace ResourceShards.Markup

/-- A stretch of events. -/
structure View where
  /-- The events. -/
  events : List Event
  /-- Whether the end tag of the element follows. -/
  closed : Bool
  /-- Whether the document ends with the stretch. -/
  final : Bool
  deriving DecidableEq, Repr

namespace View

/-- The view of all events of a document. -/
def whole (events : List Event) : View :=
  ⟨events, false, true⟩

/-- A view of events that were kept. -/
def kept (events : List Event) : View :=
  ⟨events, false, false⟩

/-- What an end tag cuts events into: those before it, the end tag, and those after it. -/
structure Split where
  /-- The events before the end tag. -/
  inside : List Event
  /-- The end tag and the events after it, if there is one. -/
  closing : Option (Event × List Event)
  deriving DecidableEq, Repr

/-- Cuts events at the end tag that closes an element; `depth` counts the elements of its name that
are open, itself left out, and `seen` holds the events passed, last one first. -/
def splitFrom (name : Name) (depth : Nat) (seen : List Event) : List Event → Split
  | [] => ⟨seen.reverse, none⟩
  | e :: rest =>
    match e.token with
    | .start tag =>
      splitFrom name (if tag.name = name then depth + 1 else depth) (e :: seen) rest
    | .finish found =>
      if found = name then
        match depth with
        | 0 => ⟨seen.reverse, some (e, rest)⟩
        | outer + 1 => splitFrom name outer (e :: seen) rest
      else splitFrom name depth (e :: seen) rest
    | _ => splitFrom name depth (e :: seen) rest

/-- Cuts the events after a start tag at the end tag that closes it. -/
def split (name : Name) (events : List Event) : Split :=
  splitFrom name 0 [] events

namespace Split

/-- The events after the end tag. -/
def rest (s : Split) : List Event :=
  match s.closing with
  | some (_, rest) => rest
  | none => []

end Split

/-- The view of an element, in terms of the events of a view that follow its start tag. -/
def enter (v : View) (name : Name) (following : List Event) : View :=
  let s := split name following
  ⟨s.inside, s.closing.isSome, v.final && s.closing.isNone⟩

/-- The events of a view that follow an element, in terms of those that follow its start tag. -/
def leave (name : Name) (following : List Event) : List Event :=
  (split name following).rest

/-- The first start tag that loosely matches a name, and the events after it. -/
def skipTo (name : Name) : List Event → Option (Event × StartTag × List Event)
  | [] => none
  | e :: rest =>
    match e.start? with
    | some tag => if tag.name.looselyMatches name then some (e, tag, rest) else skipTo name rest
    | none => skipTo name rest

/-! ### What a cut keeps -/

/-- Nothing is lost by a cut. -/
theorem splitFrom_events (name : Name) (depth : Nat) (seen events : List Event) :
    (splitFrom name depth seen events).inside ++
      (match (splitFrom name depth seen events).closing with
        | some (e, rest) => e :: rest
        | none => []) = seen.reverse ++ events := by
  induction events generalizing depth seen with
  | nil => simp [splitFrom]
  | cons e rest ih =>
    unfold splitFrom
    split
    · rw [ih]
      simp
    · split
      · split
        · simp
        · rw [ih]
          simp
      · rw [ih]
        simp
    · rw [ih]
      simp

/-- Nothing is lost by a cut. -/
theorem split_events (name : Name) (events : List Event) :
    (split name events).inside ++
      (match (split name events).closing with
        | some (e, rest) => e :: rest
        | none => []) = events := by
  exact splitFrom_events name 0 [] events

theorem length_inside_le (v : View) (name : Name) (following : List Event) :
    (v.enter name following).events.length ≤ following.length := by
  have h := congrArg List.length (split_events name following)
  simp only [List.length_append] at h
  simp only [enter]
  omega

theorem length_leave_le (name : Name) (following : List Event) :
    (leave name following).length ≤ following.length := by
  have h := congrArg List.length (split_events name following)
  simp only [List.length_append] at h
  unfold leave Split.rest
  split
  · rename_i hc
    rw [hc] at h
    simp only [List.length_cons] at h
    omega
  · simp

end View

end ResourceShards.Markup
