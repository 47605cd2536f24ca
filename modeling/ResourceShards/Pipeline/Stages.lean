import ResourceShards.Pipeline.Network

/-!
# ResourceShards.Pipeline.Stages

**The stages of a run, thread by thread.** A generator hands out jobs, one after the other, and
ends. Each worker takes a job whenever it has none, hands on what it finds, and reports a failure.
Behind every worker stand two forwarders, one for items and one for failures; a forwarder takes one
thing from its worker and hands it to the queue that all forwarders of its kind share. The consumer
takes from the two shared queues until both are closed, and the first failure makes it cancel the
run and give up.

No queue holds anything: what one side hands over the other takes at the same moment. A queue is
closed when all who hand over to it have ended. A worker learns so from the generator, a forwarder
from its worker, and the consumer from all forwarders of one kind; the two shared queues close
independently of each other.

Nobody but the consumer cancels the run here, so no one gives up before the consumer returns, and
what happens after that is left out. In what order the threads proceed is left open.

* `Pipeline`: one state of all threads, with the forwarders as lanes of their workers
* `Worker.Proceeds`: what happens between the generator's end, a worker and its forwarders
* `Pipeline.Step`, `Pipeline.Runs`: what can happen next, and any number of such things
-/

namespace ResourceShards

variable {α : Type}

/-- Something that happens to a worker and its forwarders; `exhausted` tells whether the generator
has ended. A lane is a forwarder: it waits for something, carries something, or has ended. -/
inductive Worker.Proceeds (exhausted : Bool) : Worker α → Worker α → Prop where
  /-- The worker hands an item to the forwarder for items. -/
  | hand {a : α} {rest : List α} {ending : Ending} {faults : Lane Error} :
      Proceeds exhausted ⟨.busy ⟨a :: rest, ending⟩, .empty, faults⟩
        ⟨.busy ⟨rest, ending⟩, .carrying a, faults⟩
  /-- The worker is done with a job. -/
  | done {items : Lane α} {faults : Lane Error} :
      Proceeds exhausted ⟨.busy ⟨[], .done⟩, items, faults⟩ ⟨.idle, items, faults⟩
  /-- A job makes the worker end. -/
  | stop {items : Lane α} {faults : Lane Error} :
      Proceeds exhausted ⟨.busy ⟨[], .stop⟩, items, faults⟩ ⟨.gone, items, faults⟩
  /-- The worker hands a failure to the forwarder for failures. -/
  | fail {e : Error} {items : Lane α} :
      Proceeds exhausted ⟨.busy ⟨[], .failed e⟩, items, .empty⟩ ⟨.idle, items, .carrying e⟩
  /-- The worker ends, since no job can come. -/
  | retire {items : Lane α} {faults : Lane Error} (hexhausted : exhausted = true) :
      Proceeds exhausted ⟨.idle, items, faults⟩ ⟨.gone, items, faults⟩
  /-- The forwarder for items ends, since no item can come. -/
  | closeItems {faults : Lane Error} :
      Proceeds exhausted ⟨.gone, .empty, faults⟩ ⟨.gone, .closed, faults⟩
  /-- The forwarder for failures ends, since no failure can come. -/
  | closeFaults {items : Lane α} :
      Proceeds exhausted ⟨.gone, items, .empty⟩ ⟨.gone, items, .closed⟩

/-- One state of all threads. -/
structure Pipeline (α : Type) where
  /-- The jobs that the generator still has, until it ends. -/
  source? : Option (List (Job α))
  /-- The workers with their forwarders. -/
  workers : List (Worker α)
  /-- What the consumer has taken, last one first. -/
  kept : List α := []
  /-- Whether the consumer still takes items. -/
  itemsOpen : Bool := true
  /-- Whether the consumer still takes failures. -/
  faultsOpen : Bool := true
  /-- Whether the run is cancelled. -/
  cancelled : Bool := false
  /-- What the consumer has returned. -/
  returned? : Option (Except Error (List α)) := none

namespace Pipeline

/-- The threads as they begin: some jobs for some workers, at least one. -/
def ofJobs (workers : Nat) (jobs : List (Job α)) : Pipeline α :=
  { source? := some jobs, workers := List.replicate (max workers 1) {} }

/-- The threads with another worker in place `w`. -/
def setWorker (p : Pipeline α) (w : Nat) (worker : Worker α) : Pipeline α :=
  { p with workers := p.workers.set w worker }

/-- What can happen while the consumer has not returned. -/
inductive Step (p : Pipeline α) : Pipeline α → Prop where
  /-- The generator hands a job to a worker. -/
  | start {job : Job α} {rest : List (Job α)} {w : Nat} {items : Lane α} {faults : Lane Error}
      (hopen : p.returned? = none) (hsource : p.source? = some (job :: rest))
      (hworker : p.workers[w]? = some ⟨.idle, items, faults⟩) :
      Step p { p.setWorker w ⟨.busy job, items, faults⟩ with source? := some rest }
  /-- The generator ends. -/
  | exhaust (hopen : p.returned? = none) (hsource : p.source? = some []) :
      Step p { p with source? := none }
  /-- Something happens to a worker and its forwarders. -/
  | work {w : Nat} {old new : Worker α} (hopen : p.returned? = none)
      (hworker : p.workers[w]? = some old) (hproceeds : old.Proceeds p.source?.isNone new) :
      Step p (p.setWorker w new)
  /-- The consumer takes an item. -/
  | take {w : Nat} {phase : Phase α} {a : α} {faults : Lane Error} (hopen : p.returned? = none)
      (hitems : p.itemsOpen = true)
      (hworker : p.workers[w]? = some ⟨phase, .carrying a, faults⟩) :
      Step p { p.setWorker w ⟨phase, .empty, faults⟩ with kept := a :: p.kept }
  /-- The consumer takes a failure, cancels the run and returns the failure. -/
  | raise {w : Nat} {phase : Phase α} {items : Lane α} {e : Error} (hopen : p.returned? = none)
      (hfaults : p.faultsOpen = true)
      (hworker : p.workers[w]? = some ⟨phase, items, .carrying e⟩) :
      Step p { p.setWorker w ⟨phase, items, .empty⟩ with
        cancelled := true
        returned? := some (.error e) }
  /-- The consumer learns that no item can come. -/
  | endItems (hopen : p.returned? = none) (hitems : p.itemsOpen = true)
      (hclosed : ∀ worker ∈ p.workers, worker.items.isClosed = true) :
      Step p { p with itemsOpen := false }
  /-- The consumer learns that no failure can come. -/
  | endFaults (hopen : p.returned? = none) (hfaults : p.faultsOpen = true)
      (hclosed : ∀ worker ∈ p.workers, worker.faults.isClosed = true) :
      Step p { p with faultsOpen := false }
  /-- The consumer returns what it has taken, since nothing can come. -/
  | finish (hopen : p.returned? = none) (hitems : p.itemsOpen = false)
      (hfaults : p.faultsOpen = false) :
      Step p { p with returned? := some (.ok p.kept.reverse) }

/-- Any number of steps. -/
inductive Runs : Pipeline α → Pipeline α → Prop where
  | refl (p : Pipeline α) : Runs p p
  | step {p q last : Pipeline α} (hstep : p.Step q) (hrest : Runs q last) : Runs p last

end Pipeline

end ResourceShards
