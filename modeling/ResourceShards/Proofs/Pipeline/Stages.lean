import ResourceShards.Pipeline.Stages
import ResourceShards.Proofs.Pipeline.Failures
import ResourceShards.Proofs.Pipeline.Progress

/-!
# ResourceShards.Proofs.Pipeline.Stages

**The stages do what a network does.** Where the ends of threads are left out, what happens to the
stages is a move of a network that nobody cancels. A network knows nothing of ends: it concludes
where nothing can come. That the consumer returns at the same point is an invariant: a forwarder
ends only behind a worker that has ended, with nothing left to carry, and a shared queue is closed
only when all its forwarders have ended.

* `Pipeline.Sound`: the invariant
* `Pipeline.network`: the network that the stages look like
* `Pipeline.Step.network`: a step is a move of that network, or something ends by it
* `Pipeline.Runs.returned_ok`, `Pipeline.Runs.returned_error`: what the stages return for some jobs,
  in whatever order they proceed
* `Pipeline.Sound.exists_step`, `Pipeline.Step.weight_lt`: they can go on until they return, and
  they cannot go on for ever
-/

namespace ResourceShards

variable {α σ : Type}

/-! ### Forwarders that have ended -/

/-- A lane, whether it has ended or not. -/
def Lane.reopened : Lane α → Lane α
  | .closed => .empty
  | lane => lane

/-- A worker, whether its lanes have ended or not. -/
def Worker.reopened (worker : Worker α) : Worker α :=
  ⟨worker.phase, worker.items.reopened, worker.faults.reopened⟩

theorem Lane.reopened_of_isOpen {lane : Lane α} (h : lane.isClosed = false) :
    lane.reopened = lane := by
  cases lane with
  | empty => rfl
  | carrying a => rfl
  | closed => cases h

theorem Worker.reopened_of_isOpen {worker : Worker α} (h : worker.IsOpen) :
    worker.reopened = worker := by
  rw [Worker.reopened, Lane.reopened_of_isOpen h.1, Lane.reopened_of_isOpen h.2]

/-- How many lanes of a worker have not ended. -/
def Worker.openLanes (worker : Worker α) : Nat :=
  (!worker.items.isClosed).toNat + (!worker.faults.isClosed).toNat

/-- A lane ends only behind a worker that has ended. -/
def Worker.Orderly (worker : Worker α) : Prop :=
  worker.items.isClosed = true ∨ worker.faults.isClosed = true → worker.phase = .gone

theorem Worker.Proceeds.orderly {exhausted : Bool} {old new : Worker α}
    (h : old.Proceeds exhausted new) (hold : old.Orderly) : new.Orderly := by
  cases h with
  | hand => exact fun h => absurd (hold (h.imp_left fun h => by cases h)) nofun
  | done => exact fun h => absurd (hold h) nofun
  | stop => exact fun _ => rfl
  | fail => exact fun h => absurd (hold (h.imp_right fun h => by cases h)) nofun
  | retire hexhausted => exact fun _ => rfl
  | closeItems => exact fun _ => rfl
  | closeFaults => exact fun _ => rfl

/-- A worker whose lanes have ended `isSpent` in the network. -/
theorem Worker.isSpent_reopened {worker : Worker α} (h : worker.Orderly)
    (hitems : worker.items.isClosed = true) (hfaults : worker.faults.isClosed = true) :
    worker.reopened.isSpent = true := by
  have hgone := h (.inl hitems)
  obtain ⟨phase, items, faults⟩ := worker
  cases items <;> cases hitems
  cases faults <;> cases hfaults
  cases hgone
  rfl

/-- A lane that has ended stays so, however the worker `Proceeds`. -/
theorem Worker.Proceeds.isClosed {exhausted : Bool} {old new : Worker α}
    (h : old.Proceeds exhausted new) :
    (old.items.isClosed = true → new.items.isClosed = true) ∧
      (old.faults.isClosed = true → new.faults.isClosed = true) := by
  cases h with
  | hand => exact ⟨(fun h => by cases h), id⟩
  | done => exact ⟨id, id⟩
  | stop => exact ⟨id, id⟩
  | fail => exact ⟨id, fun h => by cases h⟩
  | retire hexhausted => exact ⟨id, id⟩
  | closeItems => exact ⟨fun _ => rfl, id⟩
  | closeFaults => exact ⟨id, fun _ => rfl⟩

/-- However a worker `Proceeds`, it is a move of the worker in the network, or a forwarder ends. -/
theorem Worker.Proceeds.exists_step {exhausted : Bool} {old new : Worker α}
    (h : old.Proceeds exhausted new) (consumer : Consumer α σ) {net : Network α σ} {w : Nat}
    (hopen : net.outcome? = none) (hworker : net.workers[w]? = some old.reopened)
    (hexhausted : exhausted = true → net.waiting = []) :
    (new.reopened = old.reopened ∧ new.openLanes < old.openLanes) ∨
      new.openLanes = old.openLanes ∧ ∃ m, net.step consumer m =
        some { net with workers := net.workers.set w new.reopened } := by
  cases h with
  | hand =>
      refine .inr ⟨rfl, .hand w, ?_⟩
      simp only [Network.step, hopen, Network.move, Network.change, hworker, Worker.reopened,
        Lane.reopened]
  | done =>
      refine .inr ⟨rfl, .finish w, ?_⟩
      simp only [Network.step, hopen, Network.move, Network.change, hworker, Worker.reopened,
        Network.endJob]
  | stop =>
      refine .inr ⟨rfl, .finish w, ?_⟩
      simp only [Network.step, hopen, Network.move, Network.change, hworker, Worker.reopened,
        Network.endJob]
  | fail =>
      refine .inr ⟨rfl, .finish w, ?_⟩
      simp only [Network.step, hopen, Network.move, Network.change, hworker, Worker.reopened,
        Network.endJob, Lane.reopened]
  | retire h =>
      refine .inr ⟨rfl, .retire w, ?_⟩
      simp only [Network.step, hopen, Network.move, hexhausted h, List.isEmpty_nil, if_true,
        Network.change, hworker, Worker.reopened]
  | closeItems =>
      refine .inl ⟨rfl, ?_⟩
      simp only [Worker.openLanes, Lane.isClosed, Bool.not_true, Bool.not_false, Bool.toNat_true,
        Bool.toNat_false]
      omega
  | closeFaults =>
      refine .inl ⟨rfl, ?_⟩
      simp only [Worker.openLanes, Lane.isClosed, Bool.not_true, Bool.not_false, Bool.toNat_true,
        Bool.toNat_false]
      omega

/-- An `Orderly` worker has a forwarder that carries something, waits for a job, `Proceeds`, or both
its forwarders have ended. -/
theorem Worker.proceeds_or {worker : Worker α} (h : worker.Orderly) (exhausted : Bool) :
    (∃ a, worker.items = .carrying a) ∨ (∃ e, worker.faults = .carrying e) ∨
      (worker.phase = .idle ∧ exhausted = false) ∨ (∃ new, worker.Proceeds exhausted new) ∨
      (worker.items.isClosed = true ∧ worker.faults.isClosed = true) := by
  obtain ⟨phase, items, faults⟩ := worker
  cases phase with
  | idle =>
      cases exhausted with
      | false => exact .inr (.inr (.inl ⟨rfl, rfl⟩))
      | true => exact .inr (.inr (.inr (.inl ⟨_, .retire rfl⟩)))
  | busy job =>
      obtain ⟨yields, ending⟩ := job
      cases yields with
      | cons a rest =>
          cases items with
          | empty => exact .inr (.inr (.inr (.inl ⟨_, .hand⟩)))
          | carrying a => exact .inl ⟨a, rfl⟩
          | closed => exact absurd (h (.inl rfl)) nofun
      | nil =>
          cases ending with
          | done => exact .inr (.inr (.inr (.inl ⟨_, .done⟩)))
          | stop => exact .inr (.inr (.inr (.inl ⟨_, .stop⟩)))
          | failed e =>
              cases faults with
              | empty => exact .inr (.inr (.inr (.inl ⟨_, .fail⟩)))
              | carrying e => exact .inr (.inl ⟨e, rfl⟩)
              | closed => exact absurd (h (.inr rfl)) nofun
  | gone =>
      cases items with
      | empty => exact .inr (.inr (.inr (.inl ⟨_, .closeItems⟩)))
      | carrying a => exact .inl ⟨a, rfl⟩
      | closed =>
          cases faults with
          | empty => exact .inr (.inr (.inr (.inl ⟨_, .closeFaults⟩)))
          | carrying e => exact .inr (.inl ⟨e, rfl⟩)
          | closed => exact .inr (.inr (.inr (.inr ⟨rfl, rfl⟩)))

namespace Pipeline

variable {p q last : Pipeline α}

/-! ### What every step keeps -/

/-- Ends come in order, and what is returned is what the consumer has. -/
structure Sound (p : Pipeline α) : Prop where
  /-- A forwarder ends after its worker. -/
  orderly : ∀ worker ∈ p.workers, worker.Orderly
  /-- The queue for items is closed after all its forwarders have ended. -/
  items : p.itemsOpen = false → ∀ worker ∈ p.workers, worker.items.isClosed = true
  /-- The queue for failures is closed after all its forwarders have ended. -/
  faults : p.faultsOpen = false → ∀ worker ∈ p.workers, worker.faults.isClosed = true
  /-- The run is cancelled where a failure is returned, and nowhere else. -/
  cancelled : p.cancelled = true ↔ ∃ e, p.returned? = some (.error e)
  /-- A list that is returned is all that the consumer took. -/
  kept : ∀ arrived, p.returned? = some (.ok arrived) → arrived = p.kept.reverse
  /-- It is returned when both queues are closed. -/
  closed : ∀ arrived, p.returned? = some (.ok arrived) →
    p.itemsOpen = false ∧ p.faultsOpen = false

theorem sound_ofJobs (workers : Nat) (jobs : List (Job α)) : (ofJobs workers jobs).Sound where
  orderly worker hworker := by
    obtain rfl := List.eq_of_mem_replicate hworker
    rintro (h | h) <;> cases h
  items h := by cases h
  faults h := by cases h
  cancelled := ⟨nofun, nofun⟩
  kept _ h := by cases h
  closed _ h := by cases h

/-- `setWorker` keeps stages `Sound` if the worker stays orderly and its lanes stay closed. -/
theorem Sound.setWorker {w : Nat} {old : Worker α} (hp : p.Sound)
    (hworker : p.workers[w]? = some old) (new : Worker α) (horderly : old.Orderly → new.Orderly)
    (hitems : old.items.isClosed = true → new.items.isClosed = true)
    (hfaults : old.faults.isClosed = true → new.faults.isClosed = true) :
    (p.setWorker w new).Sound := by
  have hall : ∀ {P : Worker α → Prop}, (P old → P new) → (∀ worker ∈ p.workers, P worker) →
      ∀ worker ∈ p.workers.set w new, P worker := by
    intro P hnew hbefore
    obtain ⟨Others, hsplit, hset⟩ := exists_forall_workers hworker P
    obtain ⟨hold, hothers⟩ := hsplit.1 hbefore
    exact (hset new).2 ⟨hnew hold, hothers⟩
  exact ⟨hall horderly hp.orderly, fun h => hall hitems (hp.items h),
    fun h => hall hfaults (hp.faults h), hp.cancelled, hp.kept, hp.closed⟩

theorem Step.sound (h : p.Step q) (hp : p.Sound) : q.Sound := by
  cases h with
  | @start job rest w items faults hopen hsource hworker =>
      have hset := hp.setWorker hworker ⟨.busy job, items, faults⟩
        (fun hold h => absurd (hold h) nofun) id id
      exact ⟨hset.orderly, hset.items, hset.faults, hset.cancelled, hset.kept, hset.closed⟩
  | exhaust hopen hsource =>
      exact ⟨hp.orderly, hp.items, hp.faults, hp.cancelled, hp.kept, hp.closed⟩
  | work hopen hworker hproceeds =>
      exact hp.setWorker hworker _ hproceeds.orderly hproceeds.isClosed.1 hproceeds.isClosed.2
  | @take w phase a faults hopen hitems hworker =>
      have hset := hp.setWorker hworker ⟨phase, .empty, faults⟩
        (fun hold h => hold (h.imp_left fun h => by cases h)) (fun h => by cases h) id
      refine ⟨hset.orderly, hset.items, hset.faults, hset.cancelled, ?_, hset.closed⟩
      intro arrived hreturned
      exact absurd (hopen.symm.trans hreturned) nofun
  | @raise w phase items e hopen hfaults hworker =>
      have hset := hp.setWorker hworker ⟨phase, items, .empty⟩
        (fun hold h => hold (h.imp_right fun h => by cases h)) id (fun h => by cases h)
      exact ⟨hset.orderly, hset.items, hset.faults, ⟨fun _ => ⟨e, rfl⟩, fun _ => rfl⟩,
        (fun _ h => by cases h), fun _ h => by cases h⟩
  | endItems hopen hitems hclosed =>
      exact ⟨hp.orderly, fun _ => hclosed, hp.faults, hp.cancelled, hp.kept,
        fun _ h => absurd (hopen.symm.trans h) nofun⟩
  | endFaults hopen hfaults hclosed =>
      exact ⟨hp.orderly, hp.items, fun _ => hclosed, hp.cancelled, hp.kept,
        fun _ h => absurd (hopen.symm.trans h) nofun⟩
  | finish hopen hitems hfaults =>
      refine ⟨hp.orderly, hp.items, hp.faults, ?_, ?_, fun _ _ => ⟨hitems, hfaults⟩⟩
      · rw [hp.cancelled, hopen]
        exact ⟨nofun, nofun⟩
      · rintro arrived ⟨⟩
        rfl

theorem Runs.sound (h : Runs p last) (hp : p.Sound) : last.Sound := by
  induction h with
  | refl p => exact hp
  | step hstep hrest ih => exact ih (hstep.sound hp)

/-! ### What the stages look like -/

/-- The stages, with the ends of threads left out. -/
def network (p : Pipeline α) : Network α (List α) :=
  { ready := []
    waiting := p.source?.getD []
    workers := p.workers.map Worker.reopened
    state := p.kept
    cancelled := p.cancelled
    outcome? := p.returned?.map (Except.map fun _ => ()) }

theorem network_ofJobs (workers : Nat) (jobs : List (Job α)) :
    (ofJobs workers jobs).network = Network.fanOut workers jobs [] [] := by
  simp only [network, ofJobs, Network.fanOut, List.map_replicate]
  rfl

theorem network_setWorker (p : Pipeline α) (w : Nat) (worker : Worker α) :
    (p.setWorker w worker).network =
      { p.network with workers := p.network.workers.set w worker.reopened } := by
  simp only [network, setWorker, List.map_set]

/-- A worker is at the same place in the network, `reopened`. -/
theorem workers_network {w : Nat} {worker : Worker α} (h : p.workers[w]? = some worker) :
    p.network.workers[w]? = some worker.reopened := by
  rw [network, List.getElem?_map, h, Option.map_some]

theorem outcome?_network (h : p.returned? = none) : p.network.outcome? = none := by
  rw [network, h, Option.map_none]

/-- How many have not ended: the generator, the forwarders, and the two shared queues. -/
def unended (p : Pipeline α) : Nat :=
  p.source?.isSome.toNat + Network.total Worker.openLanes p.workers + p.itemsOpen.toNat +
    p.faultsOpen.toNat

theorem unended_setWorker {w : Nat} {old : Worker α} (hworker : p.workers[w]? = some old)
    (new : Worker α) :
    (p.setWorker w new).unended + old.openLanes = p.unended + new.openLanes := by
  have hsum := Network.total_set Worker.openLanes new hworker
  simp only [unended, setWorker]
  omega

/-- A `Step` is a move of the network, or it cannot be seen and something ends by it. -/
theorem Step.network (h : p.Step q) (hp : p.Sound) :
    (q.network = p.network ∧ q.unended < p.unended) ∨
      q.unended = p.unended ∧ ∃ m, p.network.step Network.keep m = some q.network := by
  cases h with
  | @start job rest w items faults hopen hsource hworker =>
      have hcount := unended_setWorker hworker ⟨.busy job, items, faults⟩
      have hat := workers_network hworker
      have hwaiting : p.network.waiting = job :: rest := by rw [Pipeline.network, hsource]; rfl
      refine .inr ⟨?_, .start w, ?_⟩
      · simp only [unended, setWorker, hsource, Option.isSome_some, Worker.openLanes] at hcount ⊢
        omega
      · simp only [Network.step, outcome?_network hopen, Network.move, hwaiting, Network.change,
          hat, Worker.reopened]
        simp only [Pipeline.network, setWorker, List.map_set, Worker.reopened, Option.getD_some,
          hopen, Option.map_none]
  | exhaust hopen hsource =>
      refine .inl ⟨?_, ?_⟩
      · simp only [Pipeline.network, hsource, Option.getD_none, Option.getD_some]
      · simp only [unended, hsource, Option.isSome_none, Option.isSome_some, Bool.toNat_true,
          Bool.toNat_false]
        omega
  | @work w old new hopen hworker hproceeds =>
      have hexhausted : p.source?.isNone = true → p.network.waiting = [] := by
        intro h
        rw [Pipeline.network, Option.isNone_iff_eq_none.1 h, Option.getD_none]
      have hat := workers_network hworker
      have hcount := unended_setWorker hworker new
      rw [network_setWorker]
      rcases hproceeds.exists_step Network.keep (outcome?_network hopen) hat hexhausted with
        ⟨hsame, hlt⟩ | ⟨hsame, hmove⟩
      · -- the worker looks as before
        refine .inl ⟨?_, by omega⟩
        rw [hsame]
        obtain ⟨hlt, hget⟩ := List.getElem?_eq_some_iff.1 hat
        rw [← hget, List.set_getElem_self]
      · exact .inr ⟨by omega, hmove⟩
  | @take w phase a faults hopen hitems hworker =>
      have hcount := unended_setWorker hworker ⟨phase, .empty, faults⟩
      have hat := workers_network hworker
      refine .inr ⟨Nat.add_right_cancel hcount, .deliver w, ?_⟩
      simp only [Network.step, outcome?_network hopen, Network.move, hat, Worker.reopened,
        Lane.reopened, Network.consume, Network.keep]
      simp only [Pipeline.network, setWorker, List.map_set, Worker.reopened, Lane.reopened, hopen,
        Option.map_none]
  | @raise w phase items e hopen hfaults hworker =>
      have hcount := unended_setWorker hworker ⟨phase, items, .empty⟩
      have hat := workers_network hworker
      refine .inr ⟨Nat.add_right_cancel hcount, .raise w, ?_⟩
      simp only [Network.step, outcome?_network hopen, Network.move, hat, Worker.reopened,
        Lane.reopened]
      simp only [Pipeline.network, setWorker, List.map_set, Worker.reopened, Lane.reopened,
        Option.map_some, Except.map]
  | endItems hopen hitems hclosed =>
      refine .inl ⟨rfl, ?_⟩
      simp only [unended, hitems, Bool.toNat_true, Bool.toNat_false]
      omega
  | endFaults hopen hfaults hclosed =>
      refine .inl ⟨rfl, ?_⟩
      simp only [unended, hfaults, Bool.toNat_true, Bool.toNat_false]
      omega
  | finish hopen hitems hfaults =>
      refine .inr ⟨rfl, .conclude, ?_⟩
      have hspent : p.network.workers.all Worker.isSpent = true := by
        rw [List.all_eq_true, Pipeline.network, List.forall_mem_map]
        intro worker hworker
        exact Worker.isSpent_reopened (hp.orderly worker hworker) (hp.items hitems worker hworker)
          (hp.faults hfaults worker hworker)
      simp only [Network.step, outcome?_network hopen, Network.move, hspent]
      rfl

/-- What the stages do is a run that `Delivers` in the network. -/
theorem Runs.delivers (h : p.Runs last) (hp : p.Sound) :
    ∃ items, Network.Delivers Network.keep p.network items last.network := by
  induction h with
  | refl p => exact ⟨[], .refl _⟩
  | step hstep hrest ih =>
      obtain ⟨items, hitems⟩ := ih (hstep.sound hp)
      rcases hstep.network hp with ⟨hsame, -⟩ | ⟨-, m, hmove⟩
      · exact ⟨items, hsame ▸ hitems⟩
      · exact ⟨_, .step hmove hitems⟩

/-! ### What the stages return -/

/-- The network of `Sound` stages ends with what they return. -/
theorem Sound.result_network (hp : p.Sound) {r : Except Error (List α)}
    (hreturned : p.returned? = some r) : p.network.result.map List.reverse = r := by
  cases r with
  | error e =>
      rw [Network.result, network, hreturned]
      rfl
  | ok arrived =>
      rw [hp.kept arrived hreturned, Network.result, network, hreturned]
      rfl

section

variable {workers : Nat} {jobs : List (Job α)}

/-- A list that `ofJobs` returns is what the jobs yield, all of it, each job in its own order. All
jobs are done. -/
theorem Runs.returned_ok {arrived : List α} (h : (ofJobs workers jobs).Runs last)
    (hjobs : ∀ job ∈ jobs, job.ending ≠ .stop) (hreturned : last.returned? = some (.ok arrived)) :
    Interleaves (jobs.map Job.yields) arrived ∧ ∀ job ∈ jobs, job.ending = .done := by
  have hlast := h.sound (sound_ofJobs workers jobs)
  obtain ⟨items, hrun⟩ := h.delivers (sound_ofJobs workers jobs)
  rw [network_ofJobs] at hrun
  have hended : last.network.outcome? = some (.ok ()) := by
    rw [network, hreturned]
    rfl
  have huncancelled : last.network.cancelled = false := by
    rw [Bool.eq_false_iff]
    intro hcancelled
    obtain ⟨e, herror⟩ := hlast.cancelled.1 hcancelled
    rw [hreturned] at herror
    cases herror
  obtain ⟨hdrawn, hdone⟩ := hrun.drawn_fanOut hjobs hended huncancelled
  have hkept : last.kept = items.reverse ++ [] := Network.state_of_keep (hrun.state hended)
  refine ⟨?_, hdone⟩
  rw [hlast.kept arrived hreturned, hkept, List.append_nil, List.reverse_reverse]
  exact hdrawn.of_cons_nil.interleaves

/-- A failure that `ofJobs` returns is one of a job, and the run is cancelled. -/
theorem Runs.returned_error {e : Error} (h : (ofJobs workers jobs).Runs last)
    (hreturned : last.returned? = some (.error e)) :
    last.cancelled = true ∧ ∃ job ∈ jobs, job.ending = .failed e := by
  have hlast := h.sound (sound_ofJobs workers jobs)
  obtain ⟨items, hrun⟩ := h.delivers (sound_ofJobs workers jobs)
  rw [network_ofJobs] at hrun
  refine ⟨hlast.cancelled.2 ⟨e, hreturned⟩, ?_⟩
  have hended : last.network.outcome? = some (.error e) := by
    rw [network, hreturned]
    rfl
  rcases hrun.failure_fanOut hended with hjob | ⟨a, kept, hkeep⟩
  · exact hjob
  · cases hkeep

end

/-! ### The stages return -/

/-- A bound for the steps that are left. -/
def weight (p : Pipeline α) : Nat :=
  p.network.weight + p.unended

theorem Step.weight_lt (h : p.Step q) (hp : p.Sound) : q.weight < p.weight := by
  rcases h.network hp with ⟨hsame, hlt⟩ | ⟨hsame, m, hmove⟩
  · rw [weight, weight, hsame]
    omega
  · have hlt := Network.weight_step hmove
    rw [weight, weight, hsame]
    omega

/-- The consumer of `Sound` stages takes from a queue as long as one of its forwarders has not
ended. -/
theorem Sound.isOpen (hp : p.Sound) {worker : Worker α} (hworker : worker ∈ p.workers) :
    (worker.items.isClosed = false → p.itemsOpen = true) ∧
      (worker.faults.isClosed = false → p.faultsOpen = true) := by
  constructor
  · intro hlane
    by_contra hclosed
    rw [hp.items (Bool.not_eq_true _ ▸ hclosed) worker hworker] at hlane
    cases hlane
  · intro hlane
    by_contra hclosed
    rw [hp.faults (Bool.not_eq_true _ ▸ hclosed) worker hworker] at hlane
    cases hlane

/-- `Sound` stages have a `Step` until the consumer returns. -/
theorem Sound.exists_step (hp : p.Sound) (hopen : p.returned? = none) : ∃ q, p.Step q := by
  by_cases hended : ∀ worker ∈ p.workers,
      worker.items.isClosed = true ∧ worker.faults.isClosed = true
  · cases hitems : p.itemsOpen with
    | true => exact ⟨_, .endItems hopen hitems fun _ h => (hended _ h).1⟩
    | false =>
        cases hfaults : p.faultsOpen with
        | true => exact ⟨_, .endFaults hopen hfaults fun _ h => (hended _ h).2⟩
        | false => exact ⟨_, .finish hopen hitems hfaults⟩
  · simp only [not_forall] at hended
    obtain ⟨worker, hmem, hlanes⟩ := hended
    obtain ⟨w, hworker⟩ := List.mem_iff_getElem?.1 hmem
    obtain ⟨hitems, hfaults⟩ := hp.isOpen hmem
    rcases Worker.proceeds_or (hp.orderly worker hmem) p.source?.isNone with
      ⟨a, ha⟩ | ⟨e, he⟩ | ⟨hidle, hsource⟩ | ⟨new, hproceeds⟩ | hclosed
    · obtain ⟨phase, items, faults⟩ := worker
      cases ha
      exact ⟨_, .take hopen (hitems rfl) hworker⟩
    · obtain ⟨phase, items, faults⟩ := worker
      cases he
      exact ⟨_, .raise hopen (hfaults rfl) hworker⟩
    · obtain ⟨phase, items, faults⟩ := worker
      cases hidle
      obtain ⟨waiting, hwaiting⟩ :=
        Option.isSome_iff_exists.1 (Option.isNone_eq_false_iff.1 hsource)
      cases waiting with
      | nil => exact ⟨_, .exhaust hopen hwaiting⟩
      | cons job rest => exact ⟨_, .start hopen hwaiting hworker⟩
    · exact ⟨_, .work hopen hworker hproceeds⟩
    · exact absurd hclosed hlanes

/-- However far `Sound` stages have got, they can go on until the consumer returns. -/
theorem Sound.exists_runs (hp : p.Sound) : ∃ last, p.Runs last ∧ last.returned?.isSome = true := by
  induction hweight : p.weight using Nat.strongRecOn generalizing p with
  | ind weight ih =>
      subst hweight
      cases hopen : p.returned? with
      | some r => exact ⟨p, .refl p, by rw [hopen]; rfl⟩
      | none =>
          obtain ⟨q, hstep⟩ := hp.exists_step hopen
          obtain ⟨last, hrest, hreturned⟩ := ih q.weight (hstep.weight_lt hp) (hstep.sound hp) rfl
          exact ⟨last, .step hstep hrest, hreturned⟩

end Pipeline

end ResourceShards
