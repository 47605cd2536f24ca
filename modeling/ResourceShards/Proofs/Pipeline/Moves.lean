import ResourceShards.Pipeline.Network

/-!
# ResourceShards.Proofs.Pipeline.Moves

**What can happen in a network.** A move is possible in one way only, and then it does one of a few
things: the consumer takes an item or a failure, the run is concluded, a job is started, one worker
does something on its own, or something is given up because the run is cancelled. Everything that is
proved about runs is read off this list, and not off the moves.

* `Worker.Acts`: what a worker does on its own
* `Network.Effect`: what a move does, with the items that the consumer takes
* `Network.effect_of_move`, `Network.effect_of_step`: there is nothing else
* `Network.weight_step`: every move makes the weight of the network smaller
-/

namespace ResourceShards

variable {α σ : Type}

/-- Something that a worker does and that the consumer takes no part in. -/
inductive Worker.Acts (cancelled noneWaiting : Bool) : Worker α → Worker α → Prop where
  /-- An item goes on the lane. -/
  | hand {a : α} {rest : List α} {ending : Ending} {faults : Lane Error} :
      Acts cancelled noneWaiting ⟨.busy ⟨a :: rest, ending⟩, .empty, faults⟩
        ⟨.busy ⟨rest, ending⟩, .carrying a, faults⟩
  /-- A job ends well. -/
  | done {items : Lane α} {faults : Lane Error} :
      Acts cancelled noneWaiting ⟨.busy ⟨[], .done⟩, items, faults⟩ ⟨.idle, items, faults⟩
  /-- A job ends and stops the worker. -/
  | stop {items : Lane α} {faults : Lane Error} :
      Acts cancelled noneWaiting ⟨.busy ⟨[], .stop⟩, items, faults⟩ ⟨.gone, items, faults⟩
  /-- A job fails, and the failure goes on its lane. -/
  | fail {e : Error} {items : Lane α} :
      Acts cancelled noneWaiting ⟨.busy ⟨[], .failed e⟩, items, .empty⟩
        ⟨.idle, items, .carrying e⟩
  /-- There is nothing to do any more. -/
  | retire {items : Lane α} {faults : Lane Error} (hwaiting : noneWaiting = true) :
      Acts cancelled noneWaiting ⟨.idle, items, faults⟩ ⟨.gone, items, faults⟩
  /-- The worker gives up. -/
  | quit {worker : Worker α} (hcancelled : cancelled = true)
      (hpresent : worker.phase.isGone = false) :
      Acts cancelled noneWaiting worker { worker with phase := .gone }
  /-- Its lane for items gives up. -/
  | closeItems {worker : Worker α} (hcancelled : cancelled = true)
      (hopen : worker.items.isClosed = false) :
      Acts cancelled noneWaiting worker { worker with items := .closed }
  /-- Its lane for failures gives up. -/
  | closeFaults {worker : Worker α} (hcancelled : cancelled = true)
      (hopen : worker.faults.isClosed = false) :
      Acts cancelled noneWaiting worker { worker with faults := .closed }

namespace Network

/-- What a move does to a network that has not ended, and the items that the consumer takes. -/
inductive Effect (consumer : Consumer α σ) (net : Network α σ) :
    Move → List α → Network α σ → Prop where
  /-- The consumer takes an item that was ready. -/
  | takeReady {a : α} {rest : List α} (hready : net.ready = a :: rest) :
      Effect consumer net .takeReady [a] (consume consumer a { net with ready := rest })
  /-- The consumer takes an item from a lane. -/
  | deliver {w : Nat} {phase : Phase α} {a : α} {faults : Lane Error}
      (hworker : net.workers[w]? = some ⟨phase, .carrying a, faults⟩) :
      Effect consumer net (.deliver w) [a]
        (consume consumer a { net with workers := net.workers.set w ⟨phase, .empty, faults⟩ })
  /-- The consumer takes a failure, which ends the run. -/
  | raise {w : Nat} {phase : Phase α} {items : Lane α} {e : Error}
      (hworker : net.workers[w]? = some ⟨phase, items, .carrying e⟩) :
      Effect consumer net (.raise w) []
        { net with
          workers := net.workers.set w ⟨phase, items, .empty⟩
          cancelled := true
          outcome? := some (.error e) }
  /-- The run ends since nothing can come. -/
  | conclude (hready : net.ready = []) (hspent : ∀ worker ∈ net.workers, worker.isSpent = true) :
      Effect consumer net .conclude [] { net with outcome? := some (.ok ()) }
  /-- A worker takes the next job. -/
  | start {w : Nat} {job : Job α} {rest : List (Job α)} {items : Lane α} {faults : Lane Error}
      (hwaiting : net.waiting = job :: rest)
      (hworker : net.workers[w]? = some ⟨.idle, items, faults⟩) :
      Effect consumer net (.start w) []
        { net with waiting := rest, workers := net.workers.set w ⟨.busy job, items, faults⟩ }
  /-- A worker does something on its own. -/
  | act {m : Move} {w : Nat} {old new : Worker α} (hmove : m ≠ .cancel)
      (hworker : net.workers[w]? = some old)
      (hacts : old.Acts net.cancelled net.waiting.isEmpty new) :
      Effect consumer net m [] { net with workers := net.workers.set w new }
  /-- Someone outside cancels the run. -/
  | cancel (huncancelled : net.cancelled = false) :
      Effect consumer net .cancel [] { net with cancelled := true }
  /-- The waiting jobs are given up. -/
  | dropWaiting (hcancelled : net.cancelled = true) (hwaiting : net.waiting ≠ []) :
      Effect consumer net .dropWaiting [] { net with waiting := [] }
  /-- The items that were ready are given up. -/
  | dropReady (hcancelled : net.cancelled = true) (hready : net.ready ≠ []) :
      Effect consumer net .dropReady [] { net with ready := [] }

/-- The items that the consumer takes by a move. -/
def taken (net : Network α σ) : Move → List α
  | .takeReady => net.ready.take 1
  | .deliver w =>
    match net.workers[w]? with
    | some ⟨_, .carrying a, _⟩ => [a]
    | _ => []
  | _ => []

/-- `change` is made to a worker that is there, and that it applies to. -/
theorem change_eq_some {net after : Network α σ} {w : Nat} {f : Worker α → Option (Worker α)}
    (h : net.change w f = some after) :
    ∃ old new, net.workers[w]? = some old ∧ f old = some new ∧
      after = { net with workers := net.workers.set w new } := by
  unfold change at h
  cases hworker : net.workers[w]? with
  | none =>
      rw [hworker] at h
      cases h
  | some old =>
      rw [hworker] at h
      cases hnew : f old with
      | none =>
          simp only [hnew] at h
          cases h
      | some new =>
          simp only [hnew] at h
          exact ⟨old, new, rfl, hnew, (Option.some.inj h).symm⟩

/-- `endJob` is one of the `Worker.Acts`. -/
theorem acts_of_endJob {cancelled noneWaiting : Bool} {old new : Worker α}
    (h : endJob old = some new) : old.Acts cancelled noneWaiting new := by
  obtain ⟨phase, items, faults⟩ := old
  unfold endJob at h
  split at h
  · rename_i hphase
    cases hphase
    cases h
    exact .done
  · rename_i hphase
    cases hphase
    cases h
    exact .stop
  · rename_i hphase hfaults
    cases hphase
    cases hfaults
    cases h
    exact .fail
  · cases h

/-- A `change` that is one of the `Worker.Acts` is an `Effect`. -/
theorem effect_of_change {consumer : Consumer α σ} {net after : Network α σ} {m : Move} {w : Nat}
    {f : Worker α → Option (Worker α)} (hmove : m ≠ .cancel) (h : net.change w f = some after)
    (hf : ∀ old new, f old = some new → old.Acts net.cancelled net.waiting.isEmpty new) :
    Effect consumer net m [] after := by
  obtain ⟨old, new, hworker, hnew, rfl⟩ := change_eq_some h
  exact .act hmove hworker (hf old new hnew)

/-- A change made `unless` it was made `before` is an `Effect.act`, if it is one of the
`Worker.Acts` where it is made. -/
theorem effect_of_change_unless {consumer : Consumer α σ} {net after : Network α σ} {m : Move}
    {w : Nat} {before : Worker α → Bool} {f : Worker α → Worker α} (hmove : m ≠ .cancel)
    (h : net.change w (fun worker => if before worker then none else some (f worker)) = some after)
    (hf : ∀ old, before old = false →
      Worker.Acts net.cancelled net.waiting.isEmpty old (f old)) :
    Effect consumer net m [] after := by
  refine effect_of_change hmove h fun old new hnew => ?_
  obtain ⟨hbefore, hnew⟩ := Option.ite_none_left_eq_some.1 hnew
  cases hnew
  exact hf old (eq_false_of_ne_true hbefore)

/-- A `move` that is possible has an `Effect`, and no other one. -/
theorem effect_of_move {consumer : Consumer α σ} {net after : Network α σ} {m : Move}
    (h : net.move consumer m = some after) : Effect consumer net m (net.taken m) after := by
  cases m with
  | takeReady =>
      simp only [move] at h
      split at h
      · rename_i a rest hready
        cases h
        rw [taken, hready]
        exact .takeReady hready
      · cases h
  | deliver w =>
      simp only [move] at h
      split at h
      · rename_i phase a faults hworker
        cases h
        rw [taken, hworker]
        exact .deliver hworker
      · cases h
  | raise w =>
      simp only [move] at h
      split at h
      · rename_i phase items e hworker
        cases h
        exact .raise hworker
      · cases h
  | conclude =>
      obtain ⟨hspent, h⟩ := Option.ite_none_right_eq_some.1 h
      cases h
      obtain ⟨hready, hall⟩ := (Bool.and_eq_true _ _).mp hspent
      exact .conclude (List.isEmpty_iff.1 hready) (List.all_eq_true.1 hall)
  | start w =>
      simp only [move] at h
      split at h
      · cases h
      · rename_i job rest hwaiting
        obtain ⟨⟨phase, items, faults⟩, new, hworker, hnew, rfl⟩ := change_eq_some h
        cases phase with
        | idle =>
            cases hnew
            exact .start hwaiting hworker
        | busy job => cases hnew
        | gone => cases hnew
  | hand w =>
      refine effect_of_change Move.noConfusion h fun old new hnew => ?_
      obtain ⟨phase, items, faults⟩ := old
      split at hnew
      · rename_i a rest ending hphase hitems
        cases hphase
        cases hitems
        cases hnew
        exact .hand
      · cases hnew
  | finish w => exact effect_of_change Move.noConfusion h fun old new hnew => acts_of_endJob hnew
  | retire w =>
      obtain ⟨hwaiting, h⟩ := Option.ite_none_right_eq_some.1 h
      refine effect_of_change Move.noConfusion h fun old new hnew => ?_
      obtain ⟨phase, items, faults⟩ := old
      cases phase with
      | idle =>
          cases hnew
          exact .retire hwaiting
      | busy job => cases hnew
      | gone => cases hnew
  | cancel =>
      obtain ⟨huncancelled, h⟩ := Option.ite_none_left_eq_some.1 h
      cases h
      exact .cancel (eq_false_of_ne_true huncancelled)
  | quit w =>
      obtain ⟨hcancelled, h⟩ := Option.ite_none_right_eq_some.1 h
      exact effect_of_change_unless Move.noConfusion h fun _ => .quit hcancelled
  | closeItems w =>
      obtain ⟨hcancelled, h⟩ := Option.ite_none_right_eq_some.1 h
      exact effect_of_change_unless Move.noConfusion h fun _ => .closeItems hcancelled
  | closeFaults w =>
      obtain ⟨hcancelled, h⟩ := Option.ite_none_right_eq_some.1 h
      exact effect_of_change_unless Move.noConfusion h fun _ => .closeFaults hcancelled
  | dropWaiting =>
      obtain ⟨hallowed, h⟩ := Option.ite_none_right_eq_some.1 h
      cases h
      obtain ⟨hcancelled, hwaiting⟩ := (Bool.and_eq_true _ _).mp hallowed
      exact .dropWaiting hcancelled (List.isEmpty_eq_false_iff.1 (Bool.not_eq_true' _ ▸ hwaiting))
  | dropReady =>
      obtain ⟨hallowed, h⟩ := Option.ite_none_right_eq_some.1 h
      cases h
      obtain ⟨hcancelled, hready⟩ := (Bool.and_eq_true _ _).mp hallowed
      exact .dropReady hcancelled (List.isEmpty_eq_false_iff.1 (Bool.not_eq_true' _ ▸ hready))

/-- A `step` that is possible has an `Effect`, and the run has not ended before it. -/
theorem effect_of_step {consumer : Consumer α σ} {net after : Network α σ} {m : Move}
    (h : net.step consumer m = some after) :
    net.outcome? = none ∧ Effect consumer net m (net.taken m) after := by
  unfold step at h
  cases houtcome : net.outcome? with
  | some outcome =>
      rw [houtcome] at h
      cases h
  | none =>
      rw [houtcome] at h
      exact ⟨rfl, effect_of_move h⟩

end Network

/-! ### Every move uses something up -/

namespace Network

theorem phaseWeight_pos {phase : Phase α} (h : phase.isGone = false) : 0 < phaseWeight phase := by
  cases phase with
  | idle => exact Nat.one_pos
  | busy job => exact Nat.succ_pos _
  | gone => cases h

theorem laneWeight_pos {β : Type} {lane : Lane β} (h : lane.isClosed = false) :
    0 < laneWeight lane := by
  cases lane with
  | empty => exact Nat.one_pos
  | carrying b => exact Nat.two_pos
  | closed => cases h

end Network

open Network in
/-- Whatever a worker `Acts`, its `workerWeight` gets smaller. -/
theorem Worker.Acts.weight_lt {cancelled noneWaiting : Bool} {old new : Worker α}
    (h : old.Acts cancelled noneWaiting new) : workerWeight new < workerWeight old := by
  cases h with
  | hand =>
      -- one item less to hand counts 2, and the item on the lane counts 1 more than an empty lane
      simp only [workerWeight, phaseWeight, jobWeight, laneWeight, List.length_cons]
      omega
  | done =>
      simp only [workerWeight, phaseWeight, jobWeight]
      omega
  | stop =>
      simp only [workerWeight, phaseWeight, jobWeight]
      omega
  | fail =>
      simp only [workerWeight, phaseWeight, jobWeight, laneWeight]
      omega
  | retire hwaiting =>
      simp only [workerWeight, phaseWeight]
      omega
  | quit hcancelled hpresent =>
      have hphase : phaseWeight (.gone : Phase α) < phaseWeight old.phase :=
        phaseWeight_pos hpresent
      exact Nat.add_lt_add_right (Nat.add_lt_add_right hphase _) _
  | closeItems hcancelled hopen =>
      have hlane : laneWeight (.closed : Lane α) < laneWeight old.items := laneWeight_pos hopen
      exact Nat.add_lt_add_right (Nat.add_lt_add_left hlane _) _
  | closeFaults hcancelled hopen =>
      have hlane : laneWeight (.closed : Lane Error) < laneWeight old.faults := laneWeight_pos hopen
      exact Nat.add_lt_add_left hlane _

namespace Network

variable {consumer : Consumer α σ} {net after : Network α σ} {m : Move} {items : List α}

theorem total_set {β : Type} (f : β → Nat) {l : List β} {i : Nat} {old : β} (new : β)
    (h : l[i]? = some old) : total f (l.set i new) + f old = total f l + f new := by
  induction l generalizing i with
  | nil => cases h
  | cons b rest ih =>
      cases i with
      | zero =>
          cases h
          simp only [List.set_cons_zero, total, List.foldr_cons]
          omega
      | succ i =>
          have hrest := ih (List.getElem?_cons_succ ▸ h)
          simp only [List.set_cons_succ, total, List.foldr_cons] at hrest ⊢
          omega

/-- A worker with a smaller `workerWeight` makes the `weight` of the network smaller. -/
theorem weight_set {w : Nat} {old new : Worker α} (hworker : net.workers[w]? = some old)
    (hlt : workerWeight new < workerWeight old) :
    ({ net with workers := net.workers.set w new } : Network α σ).weight < net.weight := by
  have hsum := total_set workerWeight new hworker
  simp only [weight]
  omega

/-- A failure that ends the run adds nothing to the `weight`. -/
theorem weight_fail_le (e : Error) (net : Network α σ) :
    ({ net with cancelled := true, outcome? := some (.error e) } : Network α σ).weight ≤
      net.weight := by
  simp only [weight, Option.isNone_some, Bool.not_true, Bool.toNat_false]
  omega

theorem weight_consume_le (consumer : Consumer α σ) (a : α) (net : Network α σ) :
    (consume consumer a net).weight ≤ net.weight := by
  unfold consume
  split
  · exact Nat.le_refl _
  · exact weight_fail_le _ net

/-- A job counts more while it waits than when a worker has begun it. -/
theorem weight_start {w : Nat} {job : Job α} {rest : List (Job α)} {items : Lane α}
    {faults : Lane Error} (hwaiting : net.waiting = job :: rest)
    (hworker : net.workers[w]? = some ⟨.idle, items, faults⟩) :
    ({ net with
        waiting := rest
        workers := net.workers.set w ⟨.busy job, items, faults⟩ } : Network α σ).weight <
      net.weight := by
  have hsum := total_set workerWeight ⟨.busy job, items, faults⟩ hworker
  simp only [weight, hwaiting, total, List.foldr_cons, workerWeight, phaseWeight] at hsum ⊢
  omega

/-- Every `Effect` makes the `weight` of a run that goes on smaller. -/
theorem Effect.weight_lt (h : Effect consumer net m items after) (hgoing : net.outcome? = none) :
    after.weight < net.weight := by
  cases h with
  | takeReady hready =>
      refine Nat.lt_of_le_of_lt (weight_consume_le _ _ _) ?_
      simp only [weight, hready, List.length_cons]
      omega
  | deliver hworker =>
      refine Nat.lt_of_le_of_lt (weight_consume_le _ _ _) (weight_set hworker ?_)
      simp only [workerWeight, laneWeight]
      omega
  | raise hworker =>
      refine Nat.lt_of_le_of_lt
        (weight_fail_le _ { net with workers := net.workers.set _ _ }) (weight_set hworker ?_)
      simp only [workerWeight, laneWeight]
      omega
  | conclude hready hspent =>
      simp only [weight, hgoing, Option.isNone_none, Option.isNone_some, Bool.toNat_true,
        Bool.toNat_false]
      omega
  | start hwaiting hworker => exact weight_start hwaiting hworker
  | act hmove hworker hacts => exact weight_set hworker hacts.weight_lt
  | cancel huncancelled =>
      simp only [weight, huncancelled, Bool.not_true, Bool.not_false, Bool.toNat_true,
        Bool.toNat_false]
      omega
  | dropWaiting hcancelled hwaiting =>
      obtain ⟨job, rest, hwaiting⟩ := List.exists_cons_of_ne_nil hwaiting
      simp only [weight, hwaiting, total, List.foldr_cons, List.foldr_nil]
      omega
  | dropReady hcancelled hready =>
      have := List.length_pos_iff.2 hready
      simp only [weight, List.length_nil]
      omega

/-- Every `step` makes the `weight` smaller. -/
theorem weight_step (h : net.step consumer m = some after) : after.weight < net.weight := by
  obtain ⟨hgoing, heffect⟩ := effect_of_step h
  exact heffect.weight_lt hgoing

end Network

end ResourceShards
