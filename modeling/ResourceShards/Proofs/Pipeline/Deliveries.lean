import ResourceShards.Proofs.Interleaving
import ResourceShards.Proofs.Pipeline.Moves

/-!
# ResourceShards.Proofs.Pipeline.Deliveries

**What a run hands to its consumer.** A run is any sequence of moves. Until it is cancelled, nothing
is lost and nothing comes twice: what the consumer takes is drawn from the items that are ready and
from what the jobs yield. A run that was cancelled can end at once, and well, with nothing handed
over: giving up looks to the consumer like having nothing more.

* `Network.Delivers`: some moves, and the items that are taken by them
* `Network.tracks`: what is still to come, one list for each place that items come from
* `Network.Delivers.drawn`: what is taken if nobody cancels
* `Network.Delivers.drawn_fanOut`: the same for the jobs of a fan-out
* `Network.exists_delivers_nothing`: what may be taken otherwise
-/

namespace ResourceShards

variable {α σ : Type}

namespace Network

/-- Some moves, and the items that the consumer takes by them. -/
inductive Delivers (consumer : Consumer α σ) : Network α σ → List α → Network α σ → Prop where
  | refl (net : Network α σ) : Delivers consumer net [] net
  | step {net mid after : Network α σ} {m : Move} {items : List α}
      (hstep : net.step consumer m = some mid) (hrest : Delivers consumer mid items after) :
      Delivers consumer net (net.taken m ++ items) after

end Network

/-! ### What is still to come -/

/-- What is on a lane. -/
def Lane.content : Lane α → List α
  | .carrying a => [a]
  | _ => []

/-- What a worker will still find. -/
def Phase.content : Phase α → List α
  | .busy job => job.yields
  | _ => []

/-- What can still come from a worker, in this order. -/
def Worker.content (worker : Worker α) : List α :=
  worker.items.content ++ worker.phase.content

/-- Nothing that a worker `Acts` loses an item, until the run is cancelled. -/
theorem Worker.Acts.content {noneWaiting : Bool} {old new : Worker α}
    (h : old.Acts false noneWaiting new) : new.content = old.content := by
  cases h with
  | hand => rfl
  | done => rfl
  | stop => rfl
  | fail => rfl
  | retire hwaiting => rfl
  | quit hcancelled => cases hcancelled
  | closeItems hcancelled => cases hcancelled
  | closeFaults hcancelled => cases hcancelled

/-- The lists in which items are still to come: those that are ready, the jobs that wait, and the
workers. -/
def Network.tracks (net : Network α σ) : Multiset (List α) :=
  net.ready ::ₘ
    (Multiset.ofList (net.waiting.map Job.yields) +
      Multiset.ofList (net.workers.map Worker.content))

/-- `List.set` changes one worker and keeps the others. -/
theorem exists_others {workers : List (Worker α)} {w : Nat} {old : Worker α}
    (h : workers[w]? = some old) :
    ∃ others, workers.Perm (old :: others) ∧
      ∀ new, (workers.set w new).Perm (new :: others) := by
  obtain ⟨hlt, rfl⟩ := List.getElem?_eq_some_iff.1 h
  have hset : ∀ new, (workers.set w new).Perm
      (new :: (workers.take w ++ workers.drop (w + 1))) := by
    intro new
    rw [List.set_eq_take_append_cons_drop, if_pos hlt]
    exact List.perm_middle
  refine ⟨_, ?_, hset⟩
  have hself := hset workers[w]
  rwa [List.set_getElem_self] at hself

/-- The `content` of a worker that changes, and that of the others. -/
theorem exists_contents {workers : List (Worker α)} {w : Nat} {old : Worker α}
    (h : workers[w]? = some old) :
    ∃ S, Multiset.ofList (workers.map Worker.content) = old.content ::ₘ S ∧
      ∀ new : Worker α,
        Multiset.ofList ((workers.set w new).map Worker.content) = new.content ::ₘ S := by
  obtain ⟨others, hworkers, hset⟩ := exists_others h
  exact ⟨Multiset.ofList (others.map Worker.content),
    Multiset.coe_eq_coe.2 (hworkers.map _), fun new => Multiset.coe_eq_coe.2 ((hset new).map _)⟩

/-- What holds of all workers holds of one that changes, and of the others. -/
theorem exists_forall_workers {workers : List (Worker α)} {w : Nat} {old : Worker α}
    (h : workers[w]? = some old) (P : Worker α → Prop) :
    ∃ Others : Prop, ((∀ worker ∈ workers, P worker) ↔ P old ∧ Others) ∧
      ∀ new, (∀ worker ∈ workers.set w new, P worker) ↔ P new ∧ Others := by
  obtain ⟨others, hworkers, hset⟩ := exists_others h
  refine ⟨∀ worker ∈ others, P worker, ?_, fun new => ?_⟩
  · rw [← List.forall_mem_cons]
    exact forall_congr' fun worker => imp_congr_left hworkers.mem_iff
  · rw [← List.forall_mem_cons]
    exact forall_congr' fun worker => imp_congr_left (hset new).mem_iff

namespace Network

variable {consumer : Consumer α σ} {net mid after : Network α σ} {items : List α} {m : Move}

/-! ### What a run keeps -/

/-- `consume` either changes the state of the consumer alone, or ends the run with the consumer's
failure. -/
theorem consume_cases (consumer : Consumer α σ) (a : α) (net : Network α σ) :
    (∃ state, consumer a net.state = .ok state ∧ consume consumer a net = { net with state }) ∨
      ∃ e, consumer a net.state = .error e ∧
        consume consumer a net = { net with cancelled := true, outcome? := some (.error e) } := by
  unfold consume
  cases h : consumer a net.state with
  | ok state => exact .inl ⟨state, rfl, rfl⟩
  | error e => exact .inr ⟨e, rfl, rfl⟩

/-- `consume` changes the state of the consumer alone, if it does not cancel the run. -/
theorem consume_of_uncancelled {a : α} (h : (consume consumer a net).cancelled = false) :
    ∃ state, consumer a net.state = .ok state ∧ consume consumer a net = { net with state } := by
  rcases consume_cases consumer a net with hok | ⟨e, -, heq⟩
  · exact hok
  · rw [heq] at h
    cases h

/-- No `Effect` takes a cancellation back. -/
theorem Effect.cancelled (h : Effect consumer net m items after)
    (hcancelled : net.cancelled = true) : after.cancelled = true := by
  cases h with
  | takeReady hready =>
      rcases consume_cases consumer _ { net with ready := _ } with ⟨state, -, heq⟩ | ⟨e, -, heq⟩
      · rw [heq]
        exact hcancelled
      · rw [heq]
  | deliver hworker =>
      rcases consume_cases consumer _ { net with workers := _ } with ⟨state, -, heq⟩ | ⟨e, -, heq⟩
      · rw [heq]
        exact hcancelled
      · rw [heq]
  | raise hworker => rfl
  | conclude hready hspent => exact hcancelled
  | start hwaiting hworker => exact hcancelled
  | act hmove hworker hacts => exact hcancelled
  | cancel => rfl
  | dropWaiting hcancelled => exact hcancelled
  | dropReady hcancelled => exact hcancelled

theorem Delivers.cancelled (h : Delivers consumer net items after)
    (hcancelled : net.cancelled = true) : after.cancelled = true := by
  induction h with
  | refl net => exact hcancelled
  | step hstep hrest ih => exact ih ((effect_of_step hstep).2.cancelled hcancelled)

/-- A run that has ended `Delivers` nothing more. -/
theorem Delivers.eq_of_ended (h : Delivers consumer net items after)
    (hended : net.outcome?.isSome = true) : items = [] ∧ after = net := by
  cases h with
  | refl => exact ⟨rfl, rfl⟩
  | step hstep hrest =>
      rw [(effect_of_step hstep).1] at hended
      cases hended

/-- An `Effect` that is no failure gives the consumer the items that are taken by it. -/
theorem Effect.state (h : Effect consumer net m items after)
    (hgood : ∀ e, after.outcome? ≠ some (.error e)) :
    items.foldlM (fun state a => consumer a state) net.state = .ok after.state := by
  cases h with
  | takeReady hready =>
      rcases consume_cases consumer _ { net with ready := _ } with ⟨state, hok, heq⟩ | ⟨e, -, heq⟩
      · rw [heq, List.foldlM_cons, hok]
        rfl
      · exact absurd (congrArg outcome? heq) (hgood e)
  | deliver hworker =>
      rcases consume_cases consumer _ { net with workers := _ } with ⟨state, hok, heq⟩ | ⟨e, -, heq⟩
      · rw [heq, List.foldlM_cons, hok]
        rfl
      · exact absurd (congrArg outcome? heq) (hgood e)
  | raise hworker => exact absurd rfl (hgood _)
  | conclude hready hspent => rfl
  | start hwaiting hworker => rfl
  | act hmove hworker hacts => rfl
  | cancel => rfl
  | dropWaiting hcancelled => rfl
  | dropReady hcancelled => rfl

/-- A run that ends well has the consumer in the state that the items it `Delivers` lead to. -/
theorem Delivers.state (h : Delivers consumer net items after)
    (hended : after.outcome? = some (.ok ())) :
    items.foldlM (fun state a => consumer a state) net.state = .ok after.state := by
  induction h with
  | refl net => rfl
  | step hstep hrest ih =>
      have hfirst := (effect_of_step hstep).2.state ?_
      · rw [List.foldlM_append, hfirst]
        exact ih hended
      · intro e herror
        obtain ⟨-, rfl⟩ := hrest.eq_of_ended (by rw [herror]; rfl)
        rw [herror] at hended
        cases hended

/-- A consumer that does `keep` ends with all items, last one first. -/
theorem state_of_keep {before kept : List α}
    (h : items.foldlM (fun state a => keep a state) before = .ok kept) :
    kept = items.reverse ++ before := by
  induction items generalizing before with
  | nil =>
      cases h
      rfl
  | cons a items ih =>
      rw [ih h, List.reverse_cons, List.append_assoc]
      rfl

/-! ### Nothing is lost -/

/-- An `Effect` that leaves the run uncancelled draws from the `tracks` what the consumer takes by
it. -/
theorem Effect.drawn {later : List α} (h : Effect consumer net m items after)
    (huncancelled : after.cancelled = false) (hlater : Drawn after.tracks later) :
    Drawn net.tracks (items ++ later) := by
  cases h with
  | takeReady hready =>
      obtain ⟨state, -, heq⟩ := consume_of_uncancelled huncancelled
      rw [heq] at hlater
      rw [tracks, hready]
      exact .draw hlater
  | @deliver w phase a faults hworker =>
      obtain ⟨state, -, heq⟩ := consume_of_uncancelled huncancelled
      rw [heq] at hlater
      obtain ⟨S, hbefore, hset⟩ := exists_contents hworker
      simp only [tracks, hbefore, hset, Multiset.add_cons] at hlater ⊢
      rw [Multiset.cons_swap] at hlater ⊢
      exact .draw hlater
  | raise hworker => cases huncancelled
  | conclude hready hspent => exact hlater
  | @start w job rest onLane faults hwaiting hworker =>
      obtain ⟨S, hbefore, hset⟩ := exists_contents hworker
      have hidle : (⟨.idle, onLane, faults⟩ : Worker α).content = onLane.content :=
        List.append_nil _
      have hbusy : (⟨.busy job, onLane, faults⟩ : Worker α).content =
          onLane.content ++ job.yields := rfl
      simp only [tracks, hwaiting, List.map_cons, ← Multiset.cons_coe, hbefore, hset, hidle, hbusy,
        Multiset.add_cons, Multiset.cons_add] at hlater ⊢
      rw [Multiset.cons_swap] at hlater
      -- the job stands behind what its worker handed on before
      have hcut := hlater.cut
      rw [Multiset.cons_swap job.yields, Multiset.cons_swap] at hcut
      exact hcut
  | act hmove hworker hacts =>
      obtain ⟨S, hbefore, hset⟩ := exists_contents hworker
      rw [show net.cancelled = false from huncancelled] at hacts
      simp only [tracks, hbefore, hset, hacts.content] at hlater ⊢
      exact hlater
  | cancel => cases huncancelled
  | dropWaiting hcancelled =>
      rw [show net.cancelled = false from huncancelled] at hcancelled
      cases hcancelled
  | dropReady hcancelled =>
      rw [show net.cancelled = false from huncancelled] at hcancelled
      cases hcancelled

end Network

/-! ### Workers that stop, and failures -/

/-- A worker has stopped only where nothing is waiting, and the job that it does leaves it so. -/
def Worker.Staffs (noneWaiting : Prop) (worker : Worker α) : Prop :=
  match worker.phase with
  | .idle => True
  | .busy job => job.ending ≠ .stop
  | .gone => noneWaiting

/-- A worker has no failure on its lane, and the job that it does will not fail. -/
def Worker.Faultless (worker : Worker α) : Prop :=
  (∀ e, worker.faults ≠ .carrying e) ∧
    match worker.phase with
    | .busy job => ∀ e, job.ending ≠ .failed e
    | _ => True

theorem Worker.Staffs.mono {p q : Prop} {worker : Worker α} (h : worker.Staffs p) (hpq : p → q) :
    worker.Staffs q := by
  obtain ⟨phase, items, faults⟩ := worker
  cases phase with
  | idle => exact h
  | busy job => exact h
  | gone => exact hpq h

theorem Worker.Acts.staffs {noneWaiting : Bool} {old new : Worker α}
    (h : old.Acts false noneWaiting new) (hold : old.Staffs (noneWaiting = true)) :
    new.Staffs (noneWaiting = true) := by
  cases h with
  | hand => exact hold
  | done => trivial
  | stop => exact absurd rfl hold
  | fail => trivial
  | retire hwaiting => exact hwaiting
  | quit hcancelled => cases hcancelled
  | closeItems hcancelled => cases hcancelled
  | closeFaults hcancelled => cases hcancelled

theorem Worker.Acts.faultless {noneWaiting : Bool} {old new : Worker α}
    (h : old.Acts false noneWaiting new) (hnew : new.Faultless) : old.Faultless := by
  cases h with
  | hand => exact hnew
  | done => exact ⟨hnew.1, fun e h => by cases h⟩
  | stop => exact ⟨hnew.1, fun e h => by cases h⟩
  | fail => exact absurd rfl (hnew.1 _)
  | retire hwaiting => exact ⟨hnew.1, trivial⟩
  | quit hcancelled => cases hcancelled
  | closeItems hcancelled => cases hcancelled
  | closeFaults hcancelled => cases hcancelled

namespace Network

variable {consumer : Consumer α σ} {net after : Network α σ} {items : List α} {m : Move}

/-- There are workers, and until the run is cancelled none of them stops while jobs are waiting. -/
structure Staffed (net : Network α σ) : Prop where
  /-- There is a worker. -/
  some : net.workers ≠ []
  /-- No job that waits stops a worker. -/
  waiting : ∀ job ∈ net.waiting, job.ending ≠ .stop
  /-- A worker that has stopped leaves nothing behind. -/
  workers : ∀ worker ∈ net.workers, worker.Staffs (net.waiting.isEmpty = true)

/-- No failure is on its way. -/
structure Faultless (net : Network α σ) : Prop where
  /-- No job that waits fails. -/
  waiting : ∀ job ∈ net.waiting, ∀ e, job.ending ≠ .failed e
  /-- Nor does a worker. -/
  workers : ∀ worker ∈ net.workers, worker.Faultless

theorem Effect.staffed (h : Effect consumer net m items after)
    (huncancelled : after.cancelled = false)
    (hstaffed : net.Staffed) : after.Staffed := by
  obtain ⟨hsome, hwaitingEndings, hworkers⟩ := hstaffed
  have hset : ∀ w new, net.workers.set w new ≠ [] := by
    intro w new h
    exact hsome ((List.set_eq_nil_iff _ _).1 h)
  cases h with
  | takeReady hready =>
      obtain ⟨state, -, heq⟩ := consume_of_uncancelled huncancelled
      rw [heq]
      exact ⟨hsome, hwaitingEndings, hworkers⟩
  | deliver hworker =>
      obtain ⟨state, -, heq⟩ := consume_of_uncancelled huncancelled
      obtain ⟨Others, hbefore, hafter⟩ := exists_forall_workers hworker
        (Worker.Staffs (net.waiting.isEmpty = true))
      rw [heq]
      exact ⟨hset _ _, hwaitingEndings, (hafter _).2 (hbefore.1 hworkers)⟩
  | raise hworker => cases huncancelled
  | conclude hready hspent => exact ⟨hsome, hwaitingEndings, hworkers⟩
  | @start w job rest onLane faults hwaiting hworker =>
      rw [hwaiting] at hwaitingEndings hworkers
      obtain ⟨hending, hrest⟩ := List.forall_mem_cons.1 hwaitingEndings
      refine ⟨hset _ _, hrest, ?_⟩
      obtain ⟨Others, hbefore, hafter⟩ := exists_forall_workers hworker
        (Worker.Staffs (rest.isEmpty = true))
      refine (hafter _).2 ⟨hending, (hbefore.1 ?_).2⟩
      intro worker hmem
      exact (hworkers worker hmem).mono fun h => by cases h
  | act hmove hworker hacts =>
      rw [show net.cancelled = false from huncancelled] at hacts
      obtain ⟨Others, hbefore, hafter⟩ := exists_forall_workers hworker
        (Worker.Staffs (net.waiting.isEmpty = true))
      obtain ⟨hold, hothers⟩ := hbefore.1 hworkers
      exact ⟨hset _ _, hwaitingEndings, (hafter _).2 ⟨hacts.staffs hold, hothers⟩⟩
  | cancel => cases huncancelled
  | dropWaiting hcancelled =>
      rw [show net.cancelled = false from huncancelled] at hcancelled
      cases hcancelled
  | dropReady hcancelled => exact ⟨hsome, hwaitingEndings, hworkers⟩

/-- A network that is `Faultless` after an `Effect` was so before, until the run is cancelled. -/
theorem Effect.faultless (h : Effect consumer net m items after)
    (huncancelled : after.cancelled = false) (hfaultless : after.Faultless) : net.Faultless := by
  cases h with
  | takeReady hready =>
      obtain ⟨state, -, heq⟩ := consume_of_uncancelled huncancelled
      rw [heq] at hfaultless
      exact ⟨hfaultless.waiting, hfaultless.workers⟩
  | deliver hworker =>
      obtain ⟨state, -, heq⟩ := consume_of_uncancelled huncancelled
      rw [heq] at hfaultless
      obtain ⟨Others, hbefore, hafter⟩ := exists_forall_workers hworker Worker.Faultless
      obtain ⟨hnew, hothers⟩ := (hafter _).1 hfaultless.workers
      exact ⟨hfaultless.waiting, hbefore.2 ⟨hnew, hothers⟩⟩
  | raise hworker => cases huncancelled
  | conclude hready hspent => exact ⟨hfaultless.waiting, hfaultless.workers⟩
  | start hwaiting hworker =>
      obtain ⟨Others, hbefore, hafter⟩ := exists_forall_workers hworker Worker.Faultless
      obtain ⟨⟨hlane, hending⟩, hothers⟩ := (hafter _).1 hfaultless.workers
      refine ⟨?_, hbefore.2 ⟨⟨hlane, trivial⟩, hothers⟩⟩
      rw [hwaiting]
      exact List.forall_mem_cons.2 ⟨hending, hfaultless.waiting⟩
  | act hmove hworker hacts =>
      rw [show net.cancelled = false from huncancelled] at hacts
      obtain ⟨Others, hbefore, hafter⟩ := exists_forall_workers hworker Worker.Faultless
      obtain ⟨hnew, hothers⟩ := (hafter _).1 hfaultless.workers
      exact ⟨hfaultless.waiting, hbefore.2 ⟨hacts.faultless hnew, hothers⟩⟩
  | cancel => cases huncancelled
  | dropWaiting hcancelled =>
      rw [show net.cancelled = false from huncancelled] at hcancelled
      cases hcancelled
  | dropReady hcancelled => exact ⟨hfaultless.waiting, hfaultless.workers⟩

/-- Nothing can come any more. -/
def Concluded (net : Network α σ) : Prop :=
  net.ready = [] ∧ ∀ worker ∈ net.workers, worker.isSpent = true

/-- An `Effect` leaves the run open, or ends it with a failure, or ends it where it is `Concluded`.
-/
theorem Effect.outcome (h : Effect consumer net m items after) :
    after.outcome? = net.outcome? ∨ (∃ e, after.outcome? = some (.error e)) ∨ after.Concluded := by
  cases h with
  | takeReady hready =>
      rcases consume_cases consumer _ { net with ready := _ } with ⟨state, -, heq⟩ | ⟨e, -, heq⟩
      · rw [heq]
        exact .inl rfl
      · rw [heq]
        exact .inr (.inl ⟨e, rfl⟩)
  | deliver hworker =>
      rcases consume_cases consumer _ { net with workers := _ } with ⟨state, -, heq⟩ | ⟨e, -, heq⟩
      · rw [heq]
        exact .inl rfl
      · rw [heq]
        exact .inr (.inl ⟨e, rfl⟩)
  | raise hworker => exact .inr (.inl ⟨_, rfl⟩)
  | conclude hready hspent => exact .inr (.inr ⟨hready, hspent⟩)
  | start hwaiting hworker => exact .inl rfl
  | act hmove hworker hacts => exact .inl rfl
  | cancel => exact .inl rfl
  | dropWaiting hcancelled => exact .inl rfl
  | dropReady hcancelled => exact .inl rfl

/-! ### Runs that nobody cancels -/

/-- In a `Concluded` network with workers for all jobs, nothing is left on the `tracks` and nothing
can fail. -/
theorem Concluded.drawn (h : net.Concluded) (hstaffed : net.Staffed) :
    Drawn net.tracks [] ∧ net.Faultless := by
  obtain ⟨hready, hspent⟩ := h
  have hstopped : ∀ worker ∈ net.workers,
      worker.phase = .gone ∧ worker.content = [] ∧ worker.Faultless := by
    intro worker hworker
    have hall := hspent worker hworker
    obtain ⟨phase, items, faults⟩ := worker
    cases phase <;> cases items <;> cases faults <;>
      simp_all [Worker.isSpent, Phase.isGone, Lane.isCarrying, Worker.content, Lane.content,
        Phase.content, Worker.Faultless]
  have hwaiting : net.waiting = [] := by
    obtain ⟨worker, hworker⟩ := List.exists_mem_of_ne_nil _ hstaffed.some
    have hstaffs := hstaffed.workers worker hworker
    rw [Worker.Staffs, (hstopped worker hworker).1] at hstaffs
    exact List.isEmpty_iff.1 hstaffs
  constructor
  · refine .done ?_
    rw [tracks, hready, hwaiting]
    refine Multiset.forall_mem_cons.2 ⟨rfl, ?_⟩
    intro l hl
    obtain ⟨worker, hworker, rfl⟩ : ∃ worker ∈ net.workers, worker.content = l := by
      simpa using hl
    exact (hstopped worker hworker).2.1
  · refine ⟨?_, fun worker hworker => (hstopped worker hworker).2.2⟩
    rw [hwaiting]
    exact fun job hjob => absurd hjob List.not_mem_nil

/-- A run that ends well, and that nobody cancelled, `Delivers` all that was on its `tracks`, and
nothing failed. -/
theorem Delivers.drawn (h : Delivers consumer net items after)
    (hended : after.outcome? = some (.ok ())) (huncancelled : after.cancelled = false)
    (hopen : net.outcome? = some (.ok ()) → net.Concluded) (hstaffed : net.Staffed) :
    Drawn net.tracks items ∧ net.Faultless := by
  induction h with
  | refl net => exact (hopen hended).drawn hstaffed
  | @step net mid after m items hstep hrest ih =>
      obtain ⟨hnone, heffect⟩ := effect_of_step hstep
      have hmid : mid.cancelled = false := by
        by_contra hcancelled
        rw [Bool.not_eq_false] at hcancelled
        exact absurd (hrest.cancelled hcancelled) (Bool.eq_false_iff.1 huncancelled)
      have hconcluded : mid.outcome? = some (.ok ()) → mid.Concluded := by
        intro hok
        rcases heffect.outcome with hsame | ⟨e, herror⟩ | hconcluded
        · rw [hsame, hnone] at hok
          cases hok
        · rw [herror] at hok
          cases hok
        · exact hconcluded
      obtain ⟨hdrawn, hfaultless⟩ :=
        ih hended huncancelled hconcluded (heffect.staffed hmid hstaffed)
      exact ⟨heffect.drawn hmid hdrawn, heffect.faultless hmid hfaultless⟩

/-- A `fanOut` that ends well, and that nobody cancels, `Delivers` the items that were ready and
what the jobs yield, all of it, each job in its own order. All jobs are done. -/
theorem Delivers.drawn_fanOut {workers : Nat} {jobs : List (Job α)} {ready : List α} {state : σ}
    (hjobs : ∀ job ∈ jobs, job.ending ≠ .stop)
    (h : Delivers consumer (fanOut workers jobs ready state) items after)
    (hended : after.outcome? = some (.ok ())) (huncancelled : after.cancelled = false) :
    Drawn (ready ::ₘ Multiset.ofList (jobs.map Job.yields)) items ∧
      ∀ job ∈ jobs, job.ending = .done := by
  have hstaffed : (fanOut workers jobs ready state : Network α σ).Staffed := by
    refine ⟨?_, hjobs, ?_⟩
    · intro hnone
      have hlength := congrArg List.length hnone
      simp only [fanOut, List.length_replicate, List.length_nil] at hlength
      omega
    · intro worker hworker
      obtain rfl := List.eq_of_mem_replicate hworker
      trivial
  obtain ⟨hdrawn, hfaultless⟩ := h.drawn hended huncancelled (fun h => by cases h) hstaffed
  constructor
  · have hidle : (List.replicate (max workers 1) ({} : Worker α)).map Worker.content =
        List.replicate (max workers 1) [] := List.map_replicate
    simp only [tracks, fanOut, hidle, Multiset.coe_replicate, ← Multiset.cons_add] at hdrawn
    exact hdrawn.of_add_replicate_nil
  · intro job hjob
    cases hending : job.ending with
    | done => rfl
    | stop => exact absurd hending (hjobs job hjob)
    | failed e => exact absurd hending (hfaultless.waiting job hjob e)

/-! ### Runs that are cancelled -/

/-- A cancelled network that is not `Concluded` has a move that asks nothing of the consumer. -/
theorem exists_step_of_cancelled (consumer : Consumer α σ) (hopen : net.outcome? = none)
    (hcancelled : net.cancelled = true) (hmore : ¬ net.Concluded) :
    ∃ m mid, net.step consumer m = some mid ∧ net.taken m = [] ∧ mid.outcome? = none ∧
      mid.cancelled = true ∧ mid.state = net.state := by
  by_cases hready : net.ready = []
  · obtain ⟨worker, hmem, hspent⟩ : ∃ worker ∈ net.workers, ¬ worker.isSpent = true := by
      by_contra hall
      push Not at hall
      exact hmore ⟨hready, hall⟩
    obtain ⟨w, hworker⟩ := List.mem_iff_getElem?.1 hmem
    obtain ⟨phase, items, faults⟩ := worker
    -- the worker gives up first, then its lanes
    have hgiveUp : ∀ (m : Move) (new : Worker α), net.taken m = [] →
        net.step consumer m = some { net with workers := net.workers.set w new } →
        ∃ m mid, net.step consumer m = some mid ∧ net.taken m = [] ∧ mid.outcome? = none ∧
          mid.cancelled = true ∧ mid.state = net.state :=
      fun m new htaken hstep => ⟨m, _, hstep, htaken, hopen, hcancelled, rfl⟩
    cases hphase : phase.isGone with
    | false =>
        refine hgiveUp (.quit w) ⟨.gone, items, faults⟩ rfl ?_
        simp only [step, hopen, move, hcancelled, change, hworker, hphase]
        rfl
    | true =>
        cases hitems : items.isClosed with
        | false =>
            refine hgiveUp (.closeItems w) ⟨phase, .closed, faults⟩ rfl ?_
            simp only [step, hopen, move, hcancelled, change, hworker, hitems]
            rfl
        | true =>
            have hfaults : faults.isClosed = false := by
              cases items <;> cases faults <;>
                simp_all [Worker.isSpent, Lane.isCarrying, Lane.isClosed]
            refine hgiveUp (.closeFaults w) ⟨phase, items, .closed⟩ rfl ?_
            simp only [step, hopen, move, hcancelled, change, hworker, hfaults]
            rfl
  · have hsome : net.ready.isEmpty = false := by simpa using hready
    refine ⟨.dropReady, { net with ready := [] }, ?_, rfl, hopen, hcancelled, rfl⟩
    simp only [step, hopen, move, hcancelled, hsome]
    rfl

/-- A cancelled run may end well although it `Delivers` nothing. -/
theorem exists_delivers_of_cancelled (consumer : Consumer α σ) (hopen : net.outcome? = none)
    (hcancelled : net.cancelled = true) :
    ∃ after, Delivers consumer net [] after ∧ after.outcome? = some (.ok ()) ∧
      after.state = net.state := by
  induction hweight : net.weight using Nat.strongRecOn generalizing net with
  | ind weight ih =>
      subst hweight
      by_cases hconcluded : net.Concluded
      · have hstep : net.step consumer .conclude =
            some { net with outcome? := some (.ok ()) } := by
          obtain ⟨hready, hspent⟩ := hconcluded
          simp only [step, hopen, move, hready, List.isEmpty_nil, Bool.true_and,
            List.all_eq_true.2 hspent, if_true]
        exact ⟨_, .step hstep (.refl _), rfl, rfl⟩
      · obtain ⟨m, mid, hstep, htaken, hmidOpen, hmidCancelled, hstate⟩ :=
          exists_step_of_cancelled consumer hopen hcancelled hconcluded
        obtain ⟨after, hrest, hended, hkept⟩ :=
          ih mid.weight (weight_step hstep) hmidOpen hmidCancelled rfl
        refine ⟨after, ?_, hended, hkept.trans hstate⟩
        have hall := Delivers.step hstep hrest
        rw [htaken] at hall
        exact hall

/-- A run that is cancelled before it begins may end well although it `Delivers` nothing. -/
theorem exists_delivers_nothing (consumer : Consumer α σ) (hopen : net.outcome? = none)
    (huncancelled : net.cancelled = false) :
    ∃ after, Delivers consumer net [] after ∧ after.outcome? = some (.ok ()) ∧
      after.cancelled = true ∧ after.state = net.state := by
  have hstep : net.step consumer .cancel = some { net with cancelled := true } := by
    simp only [step, hopen, move, huncancelled]
    rfl
  have hopen' : ({ net with cancelled := true } : Network α σ).outcome? = none := hopen
  obtain ⟨after, hrest, hended, hstate⟩ := exists_delivers_of_cancelled consumer hopen' rfl
  exact ⟨after, .step hstep hrest, hended, hrest.cancelled rfl, hstate⟩

end Network

end ResourceShards
