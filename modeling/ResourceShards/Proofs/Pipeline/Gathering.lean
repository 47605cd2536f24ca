import ResourceShards.Proofs.Pipeline.Stages

/-!
# ResourceShards.Proofs.Pipeline.Gathering

**The run that is made is a run of the stages.** A network leaves out how threads end; the stages
can catch up on it where the network concludes, and until then no forwarder has to end. So every
move of a network that nobody cancels can be made by the stages, and what the run that is made comes
to is something that the stages can return.

* `Pipeline.Unclosed`: nothing has ended but the generator and workers
* `Pipeline.Runs.closeLanes`, `Pipeline.Runs.finish`: behind workers that have ended the forwarders
  can end, and then the consumer returns
* `Pipeline.Unclosed.exists_runs`: the stages can follow a move
* `Pipeline.exists_runs_gather`: what gathering comes to
-/

namespace ResourceShards

variable {α : Type}

/-- What a worker `Acts` while nobody cancels happens to it in the stages as well. -/
theorem Worker.Acts.proceeds {noneWaiting exhausted : Bool} {old new : Worker α}
    (h : old.Acts false noneWaiting new) (hexhausted : noneWaiting = true → exhausted = true) :
    old.Proceeds exhausted new := by
  cases h with
  | hand => exact .hand
  | done => exact .done
  | stop => exact .stop
  | fail => exact .fail
  | retire hwaiting => exact .retire (hexhausted hwaiting)
  | quit hcancelled => cases hcancelled
  | closeItems hcancelled => cases hcancelled
  | closeFaults hcancelled => cases hcancelled

namespace Pipeline

variable {p q last : Pipeline α} {m : Move} {items : List α} {after : Network α (List α)}

theorem Runs.trans (h : p.Runs q) (hrest : q.Runs last) : p.Runs last := by
  induction h with
  | refl p => exact hrest
  | step hstep _ ih => exact .step hstep (ih hrest)

/-- The forwarders of workers that have ended can end, one after the other. -/
theorem Runs.closeLanes (ended : List (Worker α)) {rest : List (Worker α)}
    (hopen : p.returned? = none) (hworkers : p.workers = ended ++ rest)
    (hrest : ∀ worker ∈ rest, worker = ⟨.gone, .empty, .empty⟩) :
    p.Runs { p with workers := ended ++ rest.map fun _ => ⟨.gone, .closed, .closed⟩ } := by
  induction rest generalizing p ended with
  | nil =>
      rw [List.map_nil, ← hworkers]
      exact .refl p
  | cons worker rest ih =>
      obtain ⟨rfl, hothers⟩ := List.forall_mem_cons.1 hrest
      have hset : ∀ old new : Worker α, (ended ++ old :: rest).set ended.length new =
          ended ++ new :: rest := by
        intro old new
        rw [List.set_append_right _ _ (Nat.le_refl _), Nat.sub_self, List.set_cons_zero]
      have hat : ∀ worker : Worker α, (ended ++ worker :: rest)[ended.length]? = some worker := by
        intro worker
        rw [List.getElem?_append_right (Nat.le_refl _), Nat.sub_self, List.getElem?_cons_zero]
      have hitems : p.Step (p.setWorker ended.length ⟨.gone, .closed, .empty⟩) :=
        .work hopen (by rw [hworkers]; exact hat _) .closeItems
      have hfaults : (p.setWorker ended.length ⟨.gone, .closed, .empty⟩).Step
          ((p.setWorker ended.length ⟨.gone, .closed, .empty⟩).setWorker ended.length
            ⟨.gone, .closed, .closed⟩) :=
        .work hopen (by rw [setWorker, hworkers, hset]; exact hat _) .closeFaults
      refine .step hitems (.step hfaults ?_)
      have hruns := ih (p := (p.setWorker ended.length ⟨.gone, .closed, .empty⟩).setWorker
        ended.length ⟨.gone, .closed, .closed⟩) (ended ++ [⟨.gone, .closed, .closed⟩])
        hopen (by simp only [setWorker, hworkers, hset, List.append_assoc, List.singleton_append])
        hothers
      rw [List.append_assoc] at hruns
      exact hruns

/-- When all forwarders have ended the consumer learns so from both queues and returns. -/
theorem Runs.finish (hopen : p.returned? = none) (hitems : p.itemsOpen = true)
    (hfaults : p.faultsOpen = true)
    (hclosed : ∀ worker ∈ p.workers, worker.items.isClosed = true ∧ worker.faults.isClosed = true) :
    p.Runs { p with
      itemsOpen := false
      faultsOpen := false
      returned? := some (.ok p.kept.reverse) } := by
  have hstep : p.Step { p with itemsOpen := false } :=
    .endItems hopen hitems fun _ h => (hclosed _ h).1
  have hnext : Step { p with itemsOpen := false }
      { p with itemsOpen := false, faultsOpen := false } :=
    .endFaults hopen hfaults fun _ h => (hclosed _ h).2
  exact .step hstep (.step hnext (.step (.finish hopen rfl rfl) (.refl _)))

/-- No forwarder has ended, and the consumer takes from both queues. -/
structure Unclosed (p : Pipeline α) : Prop where
  /-- The consumer has not returned. -/
  returned : p.returned? = none
  /-- No forwarder has ended. -/
  lanes : ∀ worker ∈ p.workers, worker.IsOpen
  /-- The consumer takes items. -/
  items : p.itemsOpen = true
  /-- The consumer takes failures. -/
  faults : p.faultsOpen = true

theorem unclosed_ofJobs (workers : Nat) (jobs : List (Job α)) : (ofJobs workers jobs).Unclosed where
  returned := rfl
  lanes worker hworker := by
    obtain rfl := List.eq_of_mem_replicate hworker
    exact ⟨rfl, rfl⟩
  items := rfl
  faults := rfl

namespace Unclosed

/-- The network of `Unclosed` stages has the same workers. -/
theorem workers_network (hp : p.Unclosed) : p.network.workers = p.workers :=
  (List.map_congr_left fun worker h => Worker.reopened_of_isOpen (hp.lanes worker h)).trans
    (List.map_id _)

/-- `setWorker` keeps stages `Unclosed` if the lanes of the worker stay in use. -/
theorem setWorker {w : Nat} {old : Worker α} (hp : p.Unclosed)
    (hworker : p.workers[w]? = some old) (new : Worker α) (hnew : old.IsOpen → new.IsOpen) :
    (p.setWorker w new).Unclosed ∧
      (p.setWorker w new).network =
        { p.network with workers := p.network.workers.set w new } := by
  obtain ⟨Others, hbefore, hafter⟩ := exists_forall_workers hworker Worker.IsOpen
  obtain ⟨hold, hothers⟩ := hbefore.1 hp.lanes
  refine ⟨⟨hp.returned, (hafter new).2 ⟨hnew hold, hothers⟩, hp.items, hp.faults⟩, ?_⟩
  rw [network_setWorker, Worker.reopened_of_isOpen (hnew hold)]

/-- A generator that has no jobs can end before anything else happens. -/
theorem exists_exhausted (hp : p.Unclosed) :
    ∃ q, p.Runs q ∧ q.Unclosed ∧ q.network = p.network ∧
      (p.network.waiting.isEmpty = true → q.source?.isNone = true) := by
  cases hsource : p.source? with
  | none => exact ⟨p, .refl p, hp, rfl, fun _ => by rw [hsource]; rfl⟩
  | some jobs =>
      cases jobs with
      | nil =>
          refine ⟨{ p with source? := none }, .step (.exhaust hp.returned hsource) (.refl _),
            ⟨hp.returned, hp.lanes, hp.items, hp.faults⟩, ?_, fun _ => rfl⟩
          simp only [network, hsource, Option.getD_none, Option.getD_some]
      | cons job rest =>
          refine ⟨p, .refl p, hp, rfl, fun h => ?_⟩
          rw [network, hsource] at h
          cases h

/-- `Unclosed` stages in which nothing can come can return. -/
theorem exists_runs_concluded (hp : p.Unclosed)
    (hspent : ∀ worker ∈ p.network.workers, worker.isSpent = true) :
    ∃ q, p.Runs q ∧ q.network = { p.network with outcome? := some (.ok ()) } ∧
      q.returned?.isSome = true := by
  have hgone : ∀ worker ∈ p.workers, worker = ⟨.gone, .empty, .empty⟩ := by
    intro worker hworker
    obtain ⟨hitems, hfaults⟩ := hp.lanes worker hworker
    have hnone := hspent worker (hp.workers_network.symm ▸ hworker)
    obtain ⟨phase, items, faults⟩ := worker
    cases phase <;> cases items <;> cases faults <;>
      simp_all [Worker.isSpent, Phase.isGone, Lane.isCarrying, Lane.isClosed]
  have hclosed : ∀ worker ∈ p.workers.map fun _ => (⟨.gone, .closed, .closed⟩ : Worker α),
      worker.items.isClosed = true ∧ worker.faults.isClosed = true :=
    List.forall_mem_map.2 fun _ _ => ⟨rfl, rfl⟩
  have hlanes := Runs.closeLanes [] hp.returned rfl hgone
  refine ⟨_, hlanes.trans (Runs.finish hp.returned hp.items hp.faults hclosed), ?_, rfl⟩
  have hsame : (p.workers.map fun _ => (⟨.gone, .closed, .closed⟩ : Worker α)).map
      Worker.reopened = p.workers.map Worker.reopened := by
    rw [List.map_map]
    exact List.map_congr_left fun worker h => by rw [hgone worker h]; rfl
  simp only [network, List.nil_append, hsame]
  rfl

/-- `Unclosed` stages can follow every `Effect` of their network. -/
theorem exists_runs (hp : p.Unclosed) (huncancelled : p.network.cancelled = false)
    (h : Network.Effect Network.keep p.network m items after) (hmove : m ≠ .cancel) :
    ∃ q, p.Runs q ∧ q.network = after ∧ (q.Unclosed ∨ q.returned?.isSome = true) := by
  cases h with
  | takeReady hready => cases hready
  | @deliver w phase a faults hworker =>
      rw [hp.workers_network] at hworker
      obtain ⟨hset, hnetwork⟩ := hp.setWorker hworker ⟨phase, .empty, faults⟩
        fun hold => ⟨rfl, hold.2⟩
      exact ⟨_, .step (.take hp.returned hp.items hworker) (.refl _),
        congrArg (fun net : Network α (List α) => { net with state := a :: p.kept }) hnetwork,
        .inl ⟨hset.returned, hset.lanes, hset.items, hset.faults⟩⟩
  | @raise w phase onLane e hworker =>
      rw [hp.workers_network] at hworker
      obtain ⟨-, hnetwork⟩ := hp.setWorker hworker ⟨phase, onLane, .empty⟩
        fun hold => ⟨hold.1, rfl⟩
      exact ⟨_, .step (.raise hp.returned hp.faults hworker) (.refl _),
        congrArg (fun net : Network α (List α) =>
          { net with cancelled := true, outcome? := some (.error e) }) hnetwork, .inr rfl⟩
  | conclude hready hspent =>
      obtain ⟨q, hruns, hnetwork, hreturned⟩ := hp.exists_runs_concluded hspent
      exact ⟨q, hruns, hnetwork, .inr hreturned⟩
  | @start w job rest onLane faults hwaiting hworker =>
      rw [hp.workers_network] at hworker
      have hsource : p.source? = some (job :: rest) := by
        cases hsource : p.source? with
        | none =>
            rw [network, hsource] at hwaiting
            cases hwaiting
        | some jobs =>
            rw [network, hsource] at hwaiting
            exact congrArg some hwaiting
      obtain ⟨hset, hnetwork⟩ := hp.setWorker hworker ⟨.busy job, onLane, faults⟩ id
      exact ⟨_, .step (.start hp.returned hsource hworker) (.refl _),
        congrArg (fun net : Network α (List α) => { net with waiting := rest }) hnetwork,
        .inl ⟨hset.returned, hset.lanes, hset.items, hset.faults⟩⟩
  | @act m w old new hmove hworker hacts =>
      obtain ⟨q, hruns, hq, hsame, hexhausted⟩ := hp.exists_exhausted
      rw [← hsame, hq.workers_network] at hworker
      rw [huncancelled] at hacts
      obtain ⟨hset, hnetwork⟩ := hq.setWorker hworker new hacts.isOpen
      refine ⟨_, hruns.trans
        (.step (.work hq.returned hworker (hacts.proceeds hexhausted)) (.refl _)), ?_, .inl hset⟩
      rw [hnetwork, hsame]
  | cancel => exact absurd rfl hmove
  | dropWaiting hcancelled =>
      rw [huncancelled] at hcancelled
      cases hcancelled
  | dropReady hcancelled =>
      rw [huncancelled] at hcancelled
      cases hcancelled

end Unclosed

/-- The run of `Network.runFor` is a run of the stages, and the consumer returns in it. -/
theorem exists_runs_runFor {moves : Nat} (hmoves : p.network.weight ≤ moves) (hp : p.Unclosed)
    (hsound : p.Sound) :
    ∃ last, p.Runs last ∧ last.network = Network.runFor Network.keep moves p.network ∧
      last.returned?.isSome = true := by
  have hopen := outcome?_network hp.returned
  induction moves generalizing p with
  | zero =>
      simp only [Network.weight, hopen, Option.isNone_none, Bool.toNat_true] at hmoves
      omega
  | succ moves ih =>
      have huncancelled : p.network.cancelled = false := by
        rw [Bool.eq_false_iff]
        intro hcancelled
        obtain ⟨e, herror⟩ := hsound.cancelled.1 hcancelled
        rw [hp.returned] at herror
        cases herror
      have hundisturbed : p.network.Undisturbed :=
        ⟨huncancelled, by rw [hp.workers_network]; exact hp.lanes⟩
      obtain ⟨hmove, mid, hstep⟩ := Network.exists_step_next Network.keep hopen hundisturbed
      have hgo : Network.runFor Network.keep (moves + 1) p.network =
          Network.runFor Network.keep moves mid := by
        simp only [Network.runFor, hstep]
      rw [hgo]
      obtain ⟨q, hruns, rfl, hq⟩ :=
        hp.exists_runs huncancelled (Network.effect_of_step hstep).2 hmove
      rcases hq with hq | hreturned
      · have hlighter := Network.weight_step hstep
        obtain ⟨last, hrest, hlast, hreturned⟩ :=
          ih (by omega) hq (hruns.sound hsound) (outcome?_network hq.returned)
        exact ⟨last, hruns.trans hrest, hlast, hreturned⟩
      · refine ⟨q, hruns, (Network.runFor_of_ended moves ?_).symm, hreturned⟩
        rw [network, Option.isSome_map]
        exact hreturned

/-- What `Network.gather` comes to is something that the stages can return. -/
theorem exists_runs_gather (workers : Nat) (jobs : List (Job α)) :
    ∃ last, (ofJobs workers jobs).Runs last ∧
      last.returned? = some (Network.gather workers jobs) := by
  obtain ⟨last, hruns, hlast, hreturned⟩ := exists_runs_runFor (Nat.le_refl _)
    (unclosed_ofJobs workers jobs) (sound_ofJobs workers jobs)
  obtain ⟨r, hr⟩ := Option.isSome_iff_exists.1 hreturned
  refine ⟨last, hruns, ?_⟩
  rw [hr, ← (hruns.sound (sound_ofJobs workers jobs)).result_network hr, hlast, network_ofJobs]
  rfl

end Pipeline

end ResourceShards
