import ResourceShards.Reading

/-!
# ResourceShards.Proofs.Runs

**Runs.** A run is taken apart at its binds: where the whole succeeds, each part does, and nothing
after a failure does. What holds of all runs of a program is put together in the same way, from what
holds of its parts. The steps of a reader that succeed say what they did to its progress.

* `exists_of_bind_ok`, `bind_eq_error_iff`, `forM_eq_error_iff`: runs taken apart
* `Spares`: what no run of a program changes, and what all its failures have in common
* `InStep`: two programs whose runs stay in a relation
-/

namespace ResourceShards

open Markup (Document View)

variable {ε σ τ α β γ : Type}

/-! ### Runs taken apart -/

/-- `x >>= f` succeeds through a state between `x` and `f`. -/
theorem exists_of_bind_ok {x : EStateM ε σ α} {f : α → EStateM ε σ β} {s s' : σ}
    {b : β} (h : (x >>= f) s = .ok b s') : ∃ a t, x s = .ok a t ∧ f a t = .ok b s' := by
  change EStateM.bind x f s = .ok b s' at h
  unfold EStateM.bind at h
  cases hx : x s with
  | ok a t =>
      rw [hx] at h
      exact ⟨a, t, rfl, h⟩
  | error e t =>
      rw [hx] at h
      cases h

/-- `throw e >>= f` does not succeed. -/
theorem not_ok_of_throw {e : ε} {f : α → EStateM ε σ β} {s s' : σ} {b : β} :
    ((throw e : EStateM ε σ α) >>= f) s ≠ .ok b s' := by
  intro h
  cases h

/-- `forM` succeeds over a list if `f` does for its first item, and then `forM` for the others. -/
theorem exists_of_forM_cons_ok {a : α} {items : List α} {f : α → EStateM ε σ PUnit} {s s' : σ}
    (h : (a :: items).forM f s = .ok () s') :
    ∃ t, f a s = .ok () t ∧ items.forM f t = .ok () s' := by
  obtain ⟨u, t, hfirst, hrest⟩ := exists_of_bind_ok h
  exact ⟨t, hfirst, hrest⟩

/-- `x >>= f` goes on with `f` where `x` succeeds. -/
theorem bind_of_ok {x : EStateM ε σ α} {s t : σ} {a : α} (h : x s = .ok a t)
    (f : α → EStateM ε σ β) : (x >>= f) s = f a t := by
  change EStateM.bind x f s = f a t
  unfold EStateM.bind
  rw [h]

/-- `x >>= f` fails where `x` does, or where `f` does behind `x`. -/
theorem bind_eq_error_iff {x : EStateM ε σ α} {f : α → EStateM ε σ β} {s s' : σ} {e : ε} :
    (x >>= f) s = .error e s' ↔
      x s = .error e s' ∨ ∃ a t, x s = .ok a t ∧ f a t = .error e s' := by
  cases hx : x s with
  | ok a t =>
      rw [bind_of_ok hx]
      constructor
      · intro h
        exact .inr ⟨a, t, rfl, h⟩
      · rintro (h | ⟨b, u, h, hf⟩)
        · cases h
        · cases h
          exact hf
  | error e₀ t =>
      change EStateM.bind x f s = .error e s' ↔ _
      unfold EStateM.bind
      rw [hx]
      constructor
      · intro h
        cases h
        exact .inl rfl
      · rintro (h | ⟨b, u, h, hf⟩)
        · cases h
          rfl
        · cases h

/-- `forM` fails at one of the items, and all before it succeed. -/
theorem forM_eq_error_iff {items : List α} {f : α → EStateM ε σ PUnit} {s s' : σ} {e : ε} :
    items.forM f s = .error e s' ↔
      ∃ done a rest t, items = done ++ a :: rest ∧ done.forM f s = .ok () t ∧
        f a t = .error e s' := by
  induction items generalizing s with
  | nil =>
      constructor
      · intro h
        cases h
      · rintro ⟨done, a, rest, t, hitems, -, -⟩
        cases done <;> cases hitems
  | cons first items ih =>
      change (f first >>= fun _ => items.forM f) s = .error e s' ↔ _
      rw [bind_eq_error_iff]
      constructor
      · rintro (h | ⟨u, t, hfirst, hrest⟩)
        · exact ⟨[], first, items, s, rfl, rfl, h⟩
        · obtain ⟨done, a, rest, v, rfl, hdone, ha⟩ := ih.1 hrest
          refine ⟨first :: done, a, rest, v, rfl, ?_, ha⟩
          exact (bind_of_ok hfirst _).trans hdone
      · rintro ⟨done, a, rest, t, hitems, hdone, ha⟩
        cases done with
        | nil =>
            cases hitems
            cases hdone
            exact .inl ha
        | cons b done =>
            cases hitems
            obtain ⟨v, hfirst, hdone⟩ := exists_of_forM_cons_ok hdone
            exact .inr ⟨(), v, hfirst, ih.2 ⟨done, a, rest, t, rfl, hdone, ha⟩⟩

/-! ### What a program spares -/

/-- However a run of `act` ends, it leaves `part` of the state as it is, and if it fails, its
failure is one that is `allowed`. -/
structure Spares (part : σ → γ) (allowed : ε → Prop) (act : EStateM ε σ α) : Prop where
  /-- When it succeeds. -/
  ok : ∀ {s t : σ} {a : α}, act s = .ok a t → part t = part s
  /-- When it fails. -/
  error : ∀ {s t : σ} {e : ε}, act s = .error e t → part t = part s ∧ allowed e

namespace Spares

variable {part : σ → γ} {allowed : ε → Prop}

theorem ret (a : α) : Spares part allowed (pure a : EStateM ε σ α) where
  ok h := by
    cases h
    rfl
  error h := by cases h

/-- What would be done after a failure does not matter: `throw e >>= f` is `throw e`. -/
theorem fail {e : ε} (h : allowed e) : Spares part allowed (throw e : EStateM ε σ α) where
  ok h := by cases h
  error heq := by
    cases heq
    exact ⟨rfl, h⟩

theorem read : Spares part allowed (get : EStateM ε σ σ) where
  ok h := by
    cases h
    rfl
  error h := by cases h

theorem update {f : σ → σ} (h : ∀ s, part (f s) = part s) :
    Spares part allowed (modify f : EStateM ε σ PUnit) where
  ok heq := by
    cases heq
    exact h _
  error heq := by cases heq

/-- `x >>= f` `Spares` what `x` and each `f a` does. -/
theorem seq {x : EStateM ε σ α} {f : α → EStateM ε σ β} (hx : Spares part allowed x)
    (hf : ∀ a, Spares part allowed (f a)) : Spares part allowed (x >>= f) where
  ok hrun := by
    obtain ⟨a, t, hfirst, hrest⟩ := exists_of_bind_ok hrun
    exact ((hf a).ok hrest).trans (hx.ok hfirst)
  error hrun := by
    rcases bind_eq_error_iff.1 hrun with hfirst | ⟨a, t, hfirst, hrest⟩
    · exact hx.error hfirst
    · obtain ⟨hkept, hallowed⟩ := (hf a).error hrest
      exact ⟨hkept.trans (hx.ok hfirst), hallowed⟩

theorem each {f : α → EStateM ε σ PUnit} (h : ∀ a, Spares part allowed (f a)) (items : List α) :
    Spares part allowed (items.forM f) := by
  induction items with
  | nil => exact ret _
  | cons a items ih => exact seq (h a) fun _ => ih

end Spares

/-! ### Two programs next to each other -/

/-- Two runs end in the same way, in states that are in the relation `R`. -/
def SameEnd (R : σ → τ → Prop) : EStateM.Result ε σ α → EStateM.Result ε τ α → Prop
  | .ok a s, .ok b r => a = b ∧ R s r
  | .error e s, .error f r => e = f ∧ R s r
  | _, _ => False

/-- Runs of `x` and `y` that begin in states in the relation `R` end in the same way, in such states
again. -/
def InStep (R : σ → τ → Prop) (x : EStateM ε σ α) (y : EStateM ε τ α) : Prop :=
  ∀ s r, R s r → SameEnd R (x s) (y r)

namespace InStep

variable {R : σ → τ → Prop}

theorem ret (a : α) : InStep R (pure a : EStateM ε σ α) (pure a) :=
  fun _ _ h => ⟨rfl, h⟩

theorem fail (e : ε) : InStep R (throw e : EStateM ε σ α) (throw e) :=
  fun _ _ h => ⟨rfl, h⟩

/-- `x >>= f` and `y >>= g` stay `InStep` if `x` and `y` do, and `f a` and `g a` for every `a`. -/
theorem seq {x : EStateM ε σ α} {y : EStateM ε τ α} {f : α → EStateM ε σ β}
    {g : α → EStateM ε τ β} (hx : InStep R x y) (hf : ∀ a, InStep R (f a) (g a)) :
    InStep R (x >>= f) (y >>= g) := by
  intro s r h
  have hfirst := hx s r h
  change SameEnd R (EStateM.bind x f s) (EStateM.bind y g r)
  unfold EStateM.bind
  cases hxs : x s with
  | ok a s' =>
      cases hyr : y r with
      | ok b r' =>
          rw [hxs, hyr] at hfirst
          obtain ⟨rfl, hrelated⟩ := hfirst
          exact hf a s' r' hrelated
      | error e r' =>
          rw [hxs, hyr] at hfirst
          exact hfirst.elim
  | error e s' =>
      cases hyr : y r with
      | ok b r' =>
          rw [hxs, hyr] at hfirst
          exact hfirst.elim
      | error e' r' =>
          rw [hxs, hyr] at hfirst
          exact hfirst

/-- What is done next may depend on the states, if it stays `InStep` for all states that are
related. -/
theorem read {f : σ → EStateM ε σ α} {g : τ → EStateM ε τ α}
    (h : ∀ s r, R s r → InStep R (f s) (g r)) : InStep R (get >>= f) (get >>= g) :=
  fun s r hrelated => h s r hrelated s r hrelated

theorem write {s : σ} {r : τ} (h : R s r) :
    InStep R (set s : EStateM ε σ PUnit) (set r : EStateM ε τ PUnit) :=
  fun _ _ _ => ⟨rfl, h⟩

theorem update {f : σ → σ} {g : τ → τ} (h : ∀ s r, R s r → R (f s) (g r)) :
    InStep R (modify f : EStateM ε σ PUnit) (modify g : EStateM ε τ PUnit) :=
  fun s r hrelated => ⟨rfl, h s r hrelated⟩

theorem each {f : α → EStateM ε σ PUnit} {g : α → EStateM ε τ PUnit}
    (h : ∀ a, InStep R (f a) (g a)) (items : List α) :
    InStep R (items.forM f) (items.forM g) := by
  induction items with
  | nil => exact ret _
  | cons a items ih => exact seq (h a) fun _ => ih

end InStep

/-- `labelling` is for failures only. -/
theorem Error.eq_ok_of_labelling {label : String} {x : Except Error α} {a : α}
    (h : Error.labelling label x = .ok a) : x = .ok a := by
  cases x with
  | ok b => exact h
  | error e => cases h

/-! ### Readings -/

namespace Reading

variable {part : Progress σ → γ} {allowed : Error → Prop}

/-- `ofExcept` goes on with what is there, or fails with a label. -/
theorem spares_ofExcept {x : Except Error α} {label : String}
    (h : ∀ e, x = .error e → allowed (e.withLabel label)) :
    Spares part allowed (ofExcept label x : Reading σ α) := by
  cases x with
  | ok a => exact .ret a
  | error e => exact .fail (h e rfl)

/-- `exhaust` leaves the listener as it is. -/
theorem exhaust_ok {v : View} {p q : Progress σ} {u : Unit}
    (h : exhaust v p = .ok u q) : q.listener = p.listener := by
  unfold exhaust at h
  split at h
  · cases h
    rfl
  · cases h
    rfl

/-- `exhaust` notes that the end of a document was passed. -/
theorem ranOut_of_exhaust {v : View} {p q : Progress σ} {u : Unit}
    (h : exhaust v p = .ok u q) (hfinal : v.final = true) : q.ranOut = true := by
  unfold exhaust at h
  rw [if_pos hfinal] at h
  cases h
  rfl

/-- A `tell` that succeeds has the item kept by the `collecting` listener. -/
theorem tell_collecting {a : α} {p q : Progress (List α)} {u : Unit}
    (h : tell (Listener.collecting a) p = .ok u q) : q.listener = a :: p.listener := by
  cases h
  rfl

/-- An `ofExcept` that succeeds goes on with what is there, and costs nothing. -/
theorem ofExcept_ok {label : String} {x : Except Error α} {a : α} {p q : Progress σ}
    (h : ofExcept label x p = .ok a q) : x = .ok a ∧ q = p := by
  cases x with
  | error e => cases h
  | ok b =>
      cases h
      exact ⟨rfl, rfl⟩

/-- `document` succeeds if its walk does, and if the document has no fault where the walk runs out
of events. The listener ends where the walk leaves it. -/
theorem document_ok {doc : Document} {onFault : Error → Error} {walk : View → Reading σ Unit}
    {before after : σ} {u : Unit} (h : document doc onFault walk before = .ok u after) :
    ∃ u' p, walk (.whole doc.events) { listener := before } = .ok u' p ∧ p.listener = after ∧
      (p.ranOut = true → doc.fault? = none) := by
  unfold document at h
  cases hwalk : walk (.whole doc.events) { listener := before } with
  | error e p =>
      simp only [hwalk] at h
      split at h <;> simp_all
  | ok u' p =>
      simp only [hwalk] at h
      split at h
      · cases h
      · cases h
      · rename_i hfault
        cases h
        refine ⟨u', p, rfl, rfl, fun hran => ?_⟩
        rw [Option.eq_none_iff_forall_ne_some]
        exact fun fault => hfault fault hran

end Reading

/-- A reader whose `trace` ends well has told the `collecting` listener its items one after the
other. -/
theorem trace_ok {read : Listener α (List α) → Listening (List α) Unit} {items : List α}
    (h : Listening.trace read = (items, .ok ())) :
    ∃ u, read Listener.collecting [] = .ok u items.reverse := by
  unfold Listening.trace at h
  cases hrun : read Listener.collecting [] with
  | error e s =>
      rw [hrun] at h
      cases h
  | ok u s =>
      rw [hrun] at h
      obtain ⟨rfl, -⟩ := Prod.mk.inj h
      exact ⟨u, by rw [List.reverse_reverse]⟩

end ResourceShards
