import ResourceShards.Proofs.Pipeline.Deliveries

/-!
# ResourceShards.Proofs.Pipeline.Progress

**The run that is made.** While nobody cancels, there is always a next move until the run has ended,
and every move uses something up. So the run that takes the first possible move each time ends; it
is one of the runs that are possible, and it is cancelled by a failure at most.

* `Network.Undisturbed`: no lane was given up
* `Network.exists_step_next`: the next move is possible
* `Network.exists_delivers_run`: the run that is made
-/

namespace ResourceShards

variable {α σ : Type}

/-- Both lanes of a worker are in use. -/
def Worker.IsOpen (worker : Worker α) : Prop :=
  worker.items.isClosed = false ∧ worker.faults.isClosed = false

theorem Worker.Acts.isOpen {noneWaiting : Bool} {old new : Worker α}
    (h : old.Acts false noneWaiting new) (hold : old.IsOpen) : new.IsOpen := by
  cases h with
  | hand => exact ⟨rfl, hold.2⟩
  | done => exact hold
  | stop => exact hold
  | fail => exact ⟨hold.1, rfl⟩
  | retire hwaiting => exact hold
  | quit hcancelled => cases hcancelled
  | closeItems hcancelled => cases hcancelled
  | closeFaults hcancelled => cases hcancelled

namespace Network

variable {consumer : Consumer α σ} {net after : Network α σ} {items : List α} {m : Move}

/-- Nobody cancelled the run, and no lane was given up. -/
structure Undisturbed (net : Network α σ) : Prop where
  /-- Nobody cancelled it. -/
  uncancelled : net.cancelled = false
  /-- Every lane is in use. -/
  lanes : ∀ worker ∈ net.workers, worker.IsOpen

/-- Of all effects but a cancellation, only a failure leaves a run that is not `Undisturbed`. -/
theorem Effect.undisturbed (h : Effect consumer net m items after) (hmove : m ≠ .cancel)
    (hnet : net.Undisturbed) : (∃ e, after.outcome? = some (.error e)) ∨ after.Undisturbed := by
  obtain ⟨huncancelled, hlanes⟩ := hnet
  cases h with
  | @takeReady a rest hready =>
      rcases consume_cases consumer a { net with ready := rest } with ⟨state, -, heq⟩ | ⟨e, -, heq⟩
      · rw [heq]
        exact .inr ⟨huncancelled, hlanes⟩
      · rw [heq]
        exact .inl ⟨e, rfl⟩
  | @deliver w phase a faults hworker =>
      rcases consume_cases consumer a
        { net with workers := net.workers.set w ⟨phase, .empty, faults⟩ } with
        ⟨state, -, heq⟩ | ⟨e, -, heq⟩
      · rw [heq]
        obtain ⟨Others, hbefore, hafter⟩ := exists_forall_workers hworker Worker.IsOpen
        obtain ⟨hold, hothers⟩ := hbefore.1 hlanes
        exact .inr ⟨huncancelled, (hafter _).2 ⟨⟨rfl, hold.2⟩, hothers⟩⟩
      · rw [heq]
        exact .inl ⟨e, rfl⟩
  | raise hworker => exact .inl ⟨_, rfl⟩
  | conclude hready hspent => exact .inr ⟨huncancelled, hlanes⟩
  | start hwaiting hworker =>
      obtain ⟨Others, hbefore, hafter⟩ := exists_forall_workers hworker Worker.IsOpen
      obtain ⟨hold, hothers⟩ := hbefore.1 hlanes
      exact .inr ⟨huncancelled, (hafter _).2 ⟨hold, hothers⟩⟩
  | act hmove hworker hacts =>
      rw [huncancelled] at hacts
      obtain ⟨Others, hbefore, hafter⟩ := exists_forall_workers hworker Worker.IsOpen
      obtain ⟨hold, hothers⟩ := hbefore.1 hlanes
      exact .inr ⟨huncancelled, (hafter _).2 ⟨hacts.isOpen hold, hothers⟩⟩
  | cancel => exact absurd rfl hmove
  | dropWaiting hcancelled => exact .inr ⟨huncancelled, hlanes⟩
  | dropReady hcancelled => exact .inr ⟨huncancelled, hlanes⟩

/-! ### The next move -/

/-- `nextFrom` gives a move of the first worker that has one, or all workers are spent. -/
theorem nextFrom_cases (noneWaiting : Bool) (w : Nat) (workers : List (Worker α)) :
    (∃ i worker m, workers[i]? = some worker ∧ nextOf noneWaiting (w + i) worker = some m ∧
      nextFrom noneWaiting w workers = some m) ∨
    nextFrom noneWaiting w workers = none ∧ ∀ worker ∈ workers, worker.isSpent = true := by
  induction workers generalizing w with
  | nil => exact .inr ⟨rfl, fun worker h => absurd h List.not_mem_nil⟩
  | cons worker rest ih =>
      cases hnext : nextOf noneWaiting w worker with
      | some m =>
          refine .inl ⟨0, worker, m, rfl, hnext, ?_⟩
          rw [nextFrom, hnext]
      | none =>
          have hspent : worker.isSpent = true := by
            obtain ⟨phase, items, faults⟩ := worker
            unfold nextOf at hnext
            split at hnext <;> simp_all [Worker.isSpent, Phase.isGone, Lane.isCarrying]
          rw [nextFrom, hnext]
          rcases ih (w + 1) with ⟨i, found, m, hfound, hm, hfrom⟩ | ⟨hfrom, hall⟩
          · refine .inl ⟨i + 1, found, m, hfound, ?_, hfrom⟩
            rw [← hm, Nat.add_assoc, Nat.add_comm 1 i]
          · exact .inr ⟨hfrom, List.forall_mem_cons.2 ⟨hspent, hall⟩⟩

/-- A `step` with what `nextOf` gives is possible, and it is no cancellation. -/
theorem exists_step_nextOf (consumer : Consumer α σ) {w : Nat} {worker : Worker α}
    (hopen : net.outcome? = none) (hworker : net.workers[w]? = some worker)
    (hlanes : worker.IsOpen) (hnext : nextOf net.waiting.isEmpty w worker = some m) :
    m ≠ .cancel ∧ ∃ after, net.step consumer m = some after := by
  -- a change of the worker that applies to it
  have hchange : ∀ (f : Worker α → Option (Worker α)) (new : Worker α), f worker = some new →
      net.change w f = some { net with workers := net.workers.set w new } := by
    intro f new hnew
    simp only [change, hworker, hnew]
  obtain ⟨phase, items, faults⟩ := worker
  obtain ⟨hitems, hfaults⟩ := hlanes
  unfold nextOf at hnext
  cases faults with
  | closed => cases hfaults
  | carrying e =>
      cases hnext
      refine ⟨Move.noConfusion, ?_⟩
      simp only [step, hopen, move, hworker]
      exact ⟨_, rfl⟩
  | empty =>
      cases items with
      | closed => cases hitems
      | carrying a =>
          cases hnext
          refine ⟨Move.noConfusion, ?_⟩
          simp only [step, hopen, move, hworker]
          exact ⟨_, rfl⟩
      | empty =>
          cases phase with
          | gone => cases hnext
          | idle =>
              cases hwaiting : net.waiting with
              | nil =>
                  rw [hwaiting, List.isEmpty_nil, if_pos rfl] at hnext
                  cases hnext
                  refine ⟨Move.noConfusion, ?_⟩
                  simp only [step, hopen, move, hwaiting]
                  exact ⟨_, hchange _ ⟨.gone, .empty, .empty⟩ rfl⟩
              | cons job rest =>
                  rw [hwaiting, List.isEmpty_cons, if_neg Bool.false_ne_true] at hnext
                  cases hnext
                  refine ⟨Move.noConfusion, ?_⟩
                  simp only [step, hopen, move, hwaiting, change, hworker]
                  exact ⟨_, rfl⟩
          | busy job =>
              obtain ⟨yields, ending⟩ := job
              cases yields with
              | cons a rest =>
                  cases hnext
                  refine ⟨Move.noConfusion, ?_⟩
                  simp only [step, hopen, move]
                  exact ⟨_, hchange _ ⟨.busy ⟨rest, ending⟩, .carrying a, .empty⟩ rfl⟩
              | nil =>
                  cases hnext
                  obtain ⟨new, hnew⟩ : ∃ new, endJob (⟨.busy ⟨[], ending⟩, .empty, .empty⟩ :
                      Worker α) = some new := by
                    cases ending <;> exact ⟨_, rfl⟩
                  refine ⟨Move.noConfusion, ?_⟩
                  simp only [step, hopen, move]
                  exact ⟨_, hchange _ new hnew⟩

/-- A `step` with `next` is possible in an `Undisturbed` run, and it is no cancellation. -/
theorem exists_step_next (consumer : Consumer α σ) (hopen : net.outcome? = none)
    (hnet : net.Undisturbed) :
    net.next ≠ .cancel ∧ ∃ after, net.step consumer net.next = some after := by
  unfold next
  cases hready : net.ready with
  | cons a rest =>
      refine ⟨Move.noConfusion, consume consumer a { net with ready := rest }, ?_⟩
      simp only [List.isEmpty_cons, Bool.false_eq_true, if_false, step, hopen, move, hready]
  | nil =>
      rcases nextFrom_cases net.waiting.isEmpty 0 net.workers with
        ⟨i, worker, m, hworker, hm, hfrom⟩ | ⟨hfrom, hspent⟩
      · rw [hfrom]
        rw [Nat.zero_add] at hm
        exact exists_step_nextOf consumer hopen hworker
          (hnet.lanes worker (List.mem_of_getElem? hworker)) hm
      · rw [hfrom]
        refine ⟨Move.noConfusion, { net with outcome? := some (.ok ()) }, ?_⟩
        simp only [List.isEmpty_nil, if_true, Option.getD_none, step, hopen, move, hready,
          List.all_eq_true.2 hspent, Bool.and_self]

/-! ### The whole run -/

/-- `runFor` leaves a run that has ended as it is. -/
theorem runFor_of_ended (moves : Nat) (hended : net.outcome?.isSome = true) :
    runFor consumer moves net = net := by
  obtain ⟨outcome, houtcome⟩ := Option.isSome_iff_exists.1 hended
  cases moves with
  | zero => rfl
  | succ moves => simp only [runFor, step, houtcome]

/-- `runFor` makes one of the runs that are possible. It ends if it may make as many moves as the
`weight` of the network, and it ends well only where nobody cancels. -/
theorem exists_delivers_runFor (consumer : Consumer α σ) {moves : Nat}
    (hmoves : net.weight ≤ moves) (hnet : net.Undisturbed) :
    ∃ items, Delivers consumer net items (runFor consumer moves net) ∧
      (runFor consumer moves net).outcome?.isSome = true ∧
      ((runFor consumer moves net).outcome? = some (.ok ()) →
        (runFor consumer moves net).cancelled = false) := by
  induction moves generalizing net with
  | zero =>
      refine ⟨[], .refl net, ?_, fun _ => hnet.uncancelled⟩
      cases hopen : net.outcome? with
      | some outcome => simp only [runFor, hopen, Option.isSome_some]
      | none =>
          simp only [weight, hopen, Option.isNone_none, Bool.toNat_true] at hmoves
          omega
  | succ moves ih =>
      cases hopen : net.outcome? with
      | some outcome =>
          rw [runFor_of_ended _ (by rw [hopen]; rfl)]
          exact ⟨[], .refl net, by rw [hopen]; rfl, fun _ => hnet.uncancelled⟩
      | none =>
          obtain ⟨hmove, mid, hstep⟩ := exists_step_next consumer hopen hnet
          have hgo : runFor consumer (moves + 1) net = runFor consumer moves mid := by
            simp only [runFor, hstep]
          rw [hgo]
          rcases (effect_of_step hstep).2.undisturbed hmove hnet with ⟨e, herror⟩ | hmid
          · -- a failure ends the run
            rw [runFor_of_ended _ (by rw [herror]; rfl)]
            refine ⟨_, .step hstep (.refl mid), by rw [herror]; rfl, fun hok => ?_⟩
            rw [herror] at hok
            cases hok
          · obtain ⟨items, hrest, hended, hgood⟩ :=
              ih (Nat.le_of_lt_succ (Nat.lt_of_lt_of_le (weight_step hstep) hmoves)) hmid
            exact ⟨_, .step hstep hrest, hended, hgood⟩

/-- `run` makes one of the runs that are possible from some jobs, up to an end. -/
theorem exists_delivers_run (consumer : Consumer α σ) (workers : Nat) (jobs : List (Job α))
    (ready : List α) (state : σ) :
    ∃ items, Delivers consumer (fanOut workers jobs ready state) items
        ((fanOut workers jobs ready state).run consumer) ∧
      ((fanOut workers jobs ready state).run consumer).outcome?.isSome = true ∧
      (((fanOut workers jobs ready state).run consumer).outcome? = some (.ok ()) →
        ((fanOut workers jobs ready state).run consumer).cancelled = false) := by
  refine exists_delivers_runFor consumer (Nat.le_refl _) ⟨rfl, ?_⟩
  intro worker hworker
  obtain rfl := List.eq_of_mem_replicate hworker
  exact ⟨rfl, rfl⟩

end Network

end ResourceShards
