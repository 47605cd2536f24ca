import ResourceShards.Proofs.Pipeline.Deliveries

/-!
# ResourceShards.Proofs.Pipeline.Failures

**Where a failure comes from.** A run invents no failures: the one that ends it is what a job ended
with, or what the consumer made of an item. That holds whoever cancels the run.

* `Network.FailsAs`: every failure that is still to come is of some kind
* `Network.Effect.failsAs`: no move changes that
* `Network.Delivers.failure_fanOut`: the failure that ends a fan-out
-/

namespace ResourceShards

variable {α σ : Type} {P : Error → Prop}

/-- The failures that can come from a worker are of some kind. -/
def Worker.FailsAs (P : Error → Prop) (worker : Worker α) : Prop :=
  (∀ e, worker.faults = .carrying e → P e) ∧
    ∀ job, worker.phase = .busy job → ∀ e, job.ending = .failed e → P e

theorem Worker.Acts.failsAs {cancelled noneWaiting : Bool} {old new : Worker α}
    (h : old.Acts cancelled noneWaiting new) (hold : old.FailsAs P) : new.FailsAs P := by
  obtain ⟨hlane, hphase⟩ := hold
  cases h with
  | hand =>
      refine ⟨hlane, ?_⟩
      rintro job ⟨⟩ e hending
      exact hphase _ rfl e hending
  | done => exact ⟨hlane, fun _ h => by cases h⟩
  | stop => exact ⟨hlane, fun _ h => by cases h⟩
  | fail =>
      refine ⟨?_, fun _ h => by cases h⟩
      rintro e ⟨⟩
      exact hphase _ rfl _ rfl
  | retire hwaiting => exact ⟨hlane, fun _ h => by cases h⟩
  | quit hcancelled => exact ⟨hlane, fun _ h => by cases h⟩
  | closeItems hcancelled => exact ⟨hlane, hphase⟩
  | closeFaults hcancelled => exact ⟨(fun _ h => by cases h), hphase⟩

namespace Network

variable {consumer : Consumer α σ} {net after : Network α σ} {items : List α} {m : Move}

/-- The failures that can come in a run, and the one that has ended it, are of some kind. -/
structure FailsAs (P : Error → Prop) (net : Network α σ) : Prop where
  /-- Those of the jobs that wait. -/
  waiting : ∀ job ∈ net.waiting, ∀ e, job.ending = .failed e → P e
  /-- Those of the workers. -/
  workers : ∀ worker ∈ net.workers, worker.FailsAs P
  /-- The one that has ended the run. -/
  outcome : ∀ e, net.outcome? = some (.error e) → P e

/-- An item that is taken brings a failure of the consumer at most. -/
theorem FailsAs.consume (hconsumer : ∀ a s e, consumer a s = .error e → P e)
    (h : net.FailsAs P) (a : α) : (consume consumer a net).FailsAs P := by
  rcases consume_cases consumer a net with ⟨state, -, heq⟩ | ⟨e, he, heq⟩
  · rw [heq]
    exact ⟨h.waiting, h.workers, h.outcome⟩
  · rw [heq]
    refine ⟨h.waiting, h.workers, ?_⟩
    rintro e' ⟨⟩
    exact hconsumer a _ e he

/-- A worker that changes within its kind. -/
theorem FailsAs.set {w : Nat} {old : Worker α} (h : net.FailsAs P)
    (hworker : net.workers[w]? = some old) (new : Worker α)
    (hnew : old.FailsAs P → new.FailsAs P) :
    ({ net with workers := net.workers.set w new } : Network α σ).FailsAs P := by
  obtain ⟨Others, hbefore, hafter⟩ := exists_forall_workers hworker (Worker.FailsAs P)
  obtain ⟨hold, hothers⟩ := hbefore.1 h.workers
  exact ⟨h.waiting, (hafter _).2 ⟨hnew hold, hothers⟩, h.outcome⟩

theorem Effect.failsAs (hconsumer : ∀ a s e, consumer a s = .error e → P e)
    (h : Effect consumer net m items after) (hnet : net.FailsAs P) : after.FailsAs P := by
  cases h with
  | @takeReady a rest hready =>
      have hbefore : FailsAs P { net with ready := rest } :=
        ⟨hnet.waiting, hnet.workers, hnet.outcome⟩
      exact hbefore.consume hconsumer a
  | @deliver w phase a faults hworker =>
      exact (hnet.set hworker ⟨phase, .empty, faults⟩ id).consume hconsumer _
  | @raise w phase onLane e hworker =>
      have hafter := hnet.set hworker ⟨phase, onLane, .empty⟩
        fun hold => ⟨(fun _ h => by cases h), hold.2⟩
      refine ⟨hafter.waiting, hafter.workers, ?_⟩
      rintro _ ⟨⟩
      exact (hnet.workers _ (List.mem_of_getElem? hworker)).1 _ rfl
  | conclude hready hspent => exact ⟨hnet.waiting, hnet.workers, fun _ h => by cases h⟩
  | @start w job rest onLane faults hwaiting hworker =>
      have hjobs := hnet.waiting
      rw [hwaiting] at hjobs
      obtain ⟨hjob, hrest⟩ := List.forall_mem_cons.1 hjobs
      have hafter := hnet.set hworker ⟨.busy job, onLane, faults⟩
        fun hold => ⟨hold.1, by rintro _ ⟨⟩; exact hjob⟩
      exact ⟨hrest, hafter.workers, hafter.outcome⟩
  | act hmove hworker hacts => exact hnet.set hworker _ hacts.failsAs
  | cancel => exact ⟨hnet.waiting, hnet.workers, hnet.outcome⟩
  | dropWaiting hcancelled =>
      exact ⟨fun _ h => absurd h List.not_mem_nil, hnet.workers, hnet.outcome⟩
  | dropReady hcancelled => exact ⟨hnet.waiting, hnet.workers, hnet.outcome⟩

theorem Delivers.failsAs (hconsumer : ∀ a s e, consumer a s = .error e → P e)
    (h : Delivers consumer net items after) (hnet : net.FailsAs P) : after.FailsAs P := by
  induction h with
  | refl net => exact hnet
  | step hstep hrest ih => exact ih ((effect_of_step hstep).2.failsAs hconsumer hnet)

/-- The failure that ends the work on some jobs is one of theirs, or one of the consumer. -/
theorem Delivers.failure_fanOut {workers : Nat} {jobs : List (Job α)} {ready : List α} {state : σ}
    {e : Error} (h : Delivers consumer (fanOut workers jobs ready state) items after)
    (hended : after.outcome? = some (.error e)) :
    (∃ job ∈ jobs, job.ending = .failed e) ∨ ∃ a s, consumer a s = .error e := by
  refine (h.failsAs (P := fun e => (∃ job ∈ jobs, job.ending = .failed e) ∨
    ∃ a s, consumer a s = .error e) (fun a s e h => .inr ⟨a, s, h⟩) ⟨?_, ?_, ?_⟩).outcome e hended
  · exact fun job hjob e hending => .inl ⟨job, hjob, hending⟩
  · intro worker hworker
    obtain rfl := List.eq_of_mem_replicate hworker
    exact ⟨(fun _ h => by cases h), fun _ h => by cases h⟩
  · exact fun _ h => by cases h

end Network

end ResourceShards
