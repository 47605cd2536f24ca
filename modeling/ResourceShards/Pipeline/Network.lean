import ResourceShards.Error

/-!
# ResourceShards.Pipeline.Network

**Workers between a source and a consumer.** Jobs wait in line for some workers. What a worker finds
it hands on, item by item, over a lane of its own; failures go over a second lane. The consumer
takes from all lanes, and may have items that are ready without any work. The first failure ends the
run. When nothing can come any more the run ends well.

A network is one state of all of these, and a move is one thing that happens; which of the possible
moves comes next is left open. Someone outside may cancel the run: from then on workers and lanes
may give up at any time.

* `Network.step`: what a move does
* `Network.weight`: a number that every move makes smaller, so that every run ends
* `Network.run`: the run in which the first worker that can do something does it
-/

namespace ResourceShards

/-- How a job ends. -/
inductive Ending where
  /-- The worker takes another one. -/
  | done
  /-- The worker stops. -/
  | stop
  /-- The worker reports a failure and takes another one. -/
  | failed (e : Error)
  deriving DecidableEq, Repr

/-- A job, told by what comes of it. -/
structure Job (α : Type) where
  /-- The items that are found, in order. -/
  yields : List α
  /-- How it ends. -/
  ending : Ending := .done
  deriving DecidableEq, Repr

/-- The job of a reader that hands out items and then ends. One that was cancelled stops its
worker. -/
def Job.ofTrace {α : Type} : List α × Except Error Unit → Job α
  | (items, .ok ()) => ⟨items, .done⟩
  | (items, .error e) => ⟨items, if e.isCancelled then .stop else .failed e⟩

/-- What a worker is doing. -/
inductive Phase (α : Type) where
  /-- Nothing. -/
  | idle
  /-- What is left of a job. -/
  | busy (job : Job α)
  /-- It has stopped. -/
  | gone
  deriving DecidableEq, Repr

/-- The way from a worker to the consumer. -/
inductive Lane (α : Type) where
  /-- Nothing is on it. -/
  | empty
  /-- One item is on it. -/
  | carrying (a : α)
  /-- Nothing goes over it any more. -/
  | closed
  deriving DecidableEq, Repr

/-- A worker and its lanes. -/
structure Worker (α : Type) where
  /-- What it is doing. -/
  phase : Phase α := .idle
  /-- The lane for items. -/
  items : Lane α := .empty
  /-- The lane for failures. -/
  faults : Lane Error := .empty
  deriving DecidableEq, Repr

/-- What a consumer in state `σ` does with an item, unless it fails. -/
abbrev Consumer (α σ : Type) := α → σ → Except Error σ

/-- One state of a run. -/
structure Network (α σ : Type) where
  /-- Items that need no work. -/
  ready : List α
  /-- Jobs that wait for a worker. -/
  waiting : List (Job α)
  /-- The workers. -/
  workers : List (Worker α)
  /-- The state of the consumer. -/
  state : σ
  /-- Whether the run is cancelled. -/
  cancelled : Bool := false
  /-- How the run ended. -/
  outcome? : Option (Except Error Unit) := none

/-- Something that happens in a network; numbers are those of workers. -/
inductive Move where
  /-- The consumer takes an item that was ready. -/
  | takeReady
  /-- The consumer takes an item from a lane. -/
  | deliver (w : Nat)
  /-- The consumer takes a failure from a lane. -/
  | raise (w : Nat)
  /-- The consumer ends the run, since nothing can come. -/
  | conclude
  /-- A worker takes the next job. -/
  | start (w : Nat)
  /-- A worker puts an item on its lane. -/
  | hand (w : Nat)
  /-- A worker ends its job. -/
  | finish (w : Nat)
  /-- A worker stops, since no job is waiting. -/
  | retire (w : Nat)
  /-- Someone outside cancels the run. -/
  | cancel
  /-- After that: a worker gives up. -/
  | quit (w : Nat)
  /-- After that: a lane for items gives up. -/
  | closeItems (w : Nat)
  /-- After that: a lane for failures gives up. -/
  | closeFaults (w : Nat)
  /-- After that: waiting jobs are given up. -/
  | dropWaiting
  /-- After that: items that were ready are given up. -/
  | dropReady
  deriving DecidableEq, Repr

namespace Lane

/-- Whether something is on the lane. -/
def isCarrying {α : Type} : Lane α → Bool
  | carrying _ => true
  | _ => false

/-- Whether nothing goes over the lane any more. -/
def isClosed {α : Type} : Lane α → Bool
  | closed => true
  | _ => false

end Lane

namespace Phase

/-- Whether the worker has stopped. -/
def isGone {α : Type} : Phase α → Bool
  | gone => true
  | _ => false

end Phase

namespace Worker

/-- Whether nothing can come from a worker. -/
def isSpent {α : Type} (worker : Worker α) : Bool :=
  worker.phase.isGone && !worker.items.isCarrying && !worker.faults.isCarrying

end Worker

namespace Network

variable {α σ : Type}

/-! ### Moves -/

/-- Changes a worker, if there is one of that number and `change` applies to it. -/
def change (net : Network α σ) (w : Nat) (change : Worker α → Option (Worker α)) :
    Option (Network α σ) :=
  match net.workers[w]? with
  | none => none
  | some worker =>
    match change worker with
    | none => none
    | some changed => some { net with workers := net.workers.set w changed }

/-- The consumer takes an item. -/
def consume (consumer : Consumer α σ) (a : α) (net : Network α σ) : Network α σ :=
  match consumer a net.state with
  | .ok state => { net with state }
  | .error e => { net with cancelled := true, outcome? := some (.error e) }

/-- A worker ends its job: a failure goes on its lane. -/
def endJob (worker : Worker α) : Option (Worker α) :=
  match worker.phase, worker.faults with
  | .busy ⟨[], .done⟩, _ => some { worker with phase := .idle }
  | .busy ⟨[], .stop⟩, _ => some { worker with phase := .gone }
  | .busy ⟨[], .failed e⟩, .empty => some { worker with phase := .idle, faults := .carrying e }
  | _, _ => none

/-- What a move does while the run goes on; `none` if it is not possible. -/
def move (consumer : Consumer α σ) (net : Network α σ) : Move → Option (Network α σ)
  | .takeReady =>
    match net.ready with
    | a :: rest => some (consume consumer a { net with ready := rest })
    | [] => none
  | .deliver w =>
    match net.workers[w]? with
    | some ⟨phase, .carrying a, faults⟩ =>
      some (consume consumer a
        { net with workers := net.workers.set w ⟨phase, .empty, faults⟩ })
    | _ => none
  | .raise w =>
    match net.workers[w]? with
    | some ⟨phase, items, .carrying e⟩ =>
      some { net with
        workers := net.workers.set w ⟨phase, items, .empty⟩
        cancelled := true
        outcome? := some (.error e) }
    | _ => none
  | .conclude =>
    if net.ready.isEmpty && net.workers.all Worker.isSpent then
      some { net with outcome? := some (.ok ()) }
    else none
  | .start w =>
    match net.waiting with
    | [] => none
    | job :: rest =>
      ({ net with waiting := rest } : Network α σ).change w fun worker =>
        match worker.phase with
        | .idle => some { worker with phase := .busy job }
        | _ => none
  | .hand w =>
    net.change w fun worker =>
      match worker.phase, worker.items with
      | .busy ⟨a :: rest, ending⟩, .empty =>
        some { worker with phase := .busy ⟨rest, ending⟩, items := .carrying a }
      | _, _ => none
  | .finish w => net.change w endJob
  | .retire w =>
    if net.waiting.isEmpty then
      net.change w fun worker =>
        match worker.phase with
        | .idle => some { worker with phase := .gone }
        | _ => none
    else none
  | .cancel => if net.cancelled then none else some { net with cancelled := true }
  | .quit w =>
    if net.cancelled then
      net.change w fun worker =>
        if worker.phase.isGone then none else some { worker with phase := .gone }
    else none
  | .closeItems w =>
    if net.cancelled then
      net.change w fun worker =>
        if worker.items.isClosed then none else some { worker with items := .closed }
    else none
  | .closeFaults w =>
    if net.cancelled then
      net.change w fun worker =>
        if worker.faults.isClosed then none else some { worker with faults := .closed }
    else none
  | .dropWaiting =>
    if net.cancelled && !net.waiting.isEmpty then some { net with waiting := [] } else none
  | .dropReady =>
    if net.cancelled && !net.ready.isEmpty then some { net with ready := [] } else none

/-- What a move does. Nothing happens in a run that has ended. -/
def step (consumer : Consumer α σ) (net : Network α σ) (m : Move) : Option (Network α σ) :=
  match net.outcome? with
  | some _ => none
  | none => net.move consumer m

/-! ### How long a run can be -/

/-- What is left to do for a job. -/
def jobWeight (job : Job α) : Nat :=
  2 * job.yields.length + 3

/-- What is left to do for a worker in some phase. -/
def phaseWeight : Phase α → Nat
  | .idle => 1
  | .busy job => jobWeight job
  | .gone => 0

/-- What a lane can still do. -/
def laneWeight {β : Type} : Lane β → Nat
  | .empty => 1
  | .carrying _ => 2
  | .closed => 0

/-- What a worker and its lanes can still do. -/
def workerWeight (worker : Worker α) : Nat :=
  phaseWeight worker.phase + laneWeight worker.items + laneWeight worker.faults

/-- The weights of all items of a list together. -/
def total {β : Type} (weight : β → Nat) (items : List β) : Nat :=
  items.foldr (fun b rest => weight b + rest) 0

/-- A bound for the moves that are left. -/
def weight (net : Network α σ) : Nat :=
  net.ready.length + total (fun job => jobWeight job + 1) net.waiting +
    total workerWeight net.workers +
    (!net.cancelled).toNat + net.outcome?.isNone.toNat

/-! ### Runs -/

/-- What a worker does next if nobody cancels. -/
def nextOf (noneWaiting : Bool) (w : Nat) (worker : Worker α) : Option Move :=
  match worker.faults, worker.items, worker.phase with
  | .carrying _, _, _ => some (.raise w)
  | _, .carrying _, _ => some (.deliver w)
  | _, _, .busy ⟨_ :: _, _⟩ => some (.hand w)
  | _, _, .busy ⟨[], _⟩ => some (.finish w)
  | _, _, .idle => some (if noneWaiting then .retire w else .start w)
  | _, _, .gone => none

/-- The first worker's next move, if one has any; `w` is the number of the first. -/
def nextFrom (noneWaiting : Bool) (w : Nat) : List (Worker α) → Option Move
  | [] => none
  | worker :: rest =>
    match nextOf noneWaiting w worker with
    | some m => some m
    | none => nextFrom noneWaiting (w + 1) rest

/-- The move that comes next: items that are ready first, then the first worker that can do
something. -/
def next (net : Network α σ) : Move :=
  if net.ready.isEmpty then (nextFrom net.waiting.isEmpty 0 net.workers).getD .conclude
  else .takeReady

/-- Up to `moves` moves. -/
def runFor (consumer : Consumer α σ) : (moves : Nat) → Network α σ → Network α σ
  | 0, net => net
  | moves + 1, net =>
    match net.step consumer net.next with
    | some after => runFor consumer moves after
    | none => net

/-- A whole run. -/
def run (consumer : Consumer α σ) (net : Network α σ) : Network α σ :=
  runFor consumer net.weight net

/-- The state of the consumer after a run that ended well, or the failure that ended it. -/
def result (net : Network α σ) : Except Error σ :=
  match net.outcome? with
  | some (.error e) => .error e
  | _ => .ok net.state

/-! ### Networks -/

/-- Jobs for some workers, at least one. -/
def fanOut (workers : Nat) (jobs : List (Job α)) (ready : List α) (state : σ) : Network α σ :=
  { ready, waiting := jobs, workers := List.replicate (max workers 1) {}, state }

/-- Sources that flow together. -/
def fanIn (sources : List (List α)) (state : σ) : Network α σ :=
  { ready := [], waiting := [], state
    workers := sources.map fun items => { phase := .busy ⟨items, .stop⟩ } }

/-- A consumer that keeps what it takes, last one first. -/
def keep : Consumer α (List α) :=
  fun a kept => .ok (a :: kept)

/-- The items that some workers find, in the order of their arrival. -/
def gather (workers : Nat) (jobs : List (Job α)) : Except Error (List α) :=
  (((fanOut workers jobs [] []).run keep).result).map List.reverse

end Network

end ResourceShards
