/-!
# ResourceShards.Pipeline.Queue

**Queues between stages.** A queue hands on items in the order in which they were sent. A run that
is cancelled neither sends nor receives any more, whatever the queue holds.
-/

namespace ResourceShards

/-- The items on their way to a receiver. -/
structure Queue (α : Type) where
  /-- The items, next one first. -/
  items : List α := []
  /-- Whether there is someone to receive them. -/
  hasReceiver : Bool := true
  deriving DecidableEq, Repr

namespace Queue

variable {α : Type}

/-- Sends an item, and tells whether it is on its way. -/
def send (cancelled : Bool) (a : α) (q : Queue α) : Bool × Queue α :=
  if cancelled || !q.hasReceiver then (false, q) else (true, { q with items := q.items ++ [a] })

/-- Receives the next item, if one comes. -/
def receive (cancelled : Bool) (q : Queue α) : Option α × Queue α :=
  match cancelled, q.items with
  | false, a :: rest => (some a, { q with items := rest })
  | _, _ => (none, q)

/-- Receives a number of times. -/
def receiveTimes (cancelled : Bool) : (times : Nat) → Queue α → List (Option α) × Queue α
  | 0, q => ([], q)
  | times + 1, q =>
    let (first, after) := q.receive cancelled
    let (others, last) := receiveTimes cancelled times after
    (first :: others, last)

end Queue

end ResourceShards
