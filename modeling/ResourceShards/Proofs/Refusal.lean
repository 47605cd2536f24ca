import ResourceShards.Payload.Collect
import ResourceShards.Proofs.Listing.Declared

/-!
# ResourceShards.Proofs.Refusal

**A refusal stops the reading.** A reader does not look at what its listener makes of the items. So
with any listener it hands out the same items as when all are taken, one after the other, up to the
first that is refused; nothing is handed out after that one. The reader ends with the refusal as it
is, without a label. Only what is wrong with the document comes before it, if the walk had asked for
more events than the document has by then.

* `Reading.Heeds`: a reading next to the same one with every item taken
* `Listening.Heeds`: the same for readers of whole files
* `Payload.heeds_ofDocument`, `Listing.heeds_file`: both readers
* `refusal_stops`: what comes of them when the item after the first few is refused
-/

namespace ResourceShards

open Markup (Attribute Document Encoder Event StartTag View)

variable {α β γ σ : Type}

/-! ### Listeners -/

namespace Listener

/-- Offers items to a listener, up to the first that is refused. -/
def offer (emit : Listener α σ) (items : List α) : Listening σ Unit :=
  items.forM emit

theorem offer_append (emit : Listener α σ) (items more : List α) :
    emit.offer (items ++ more) = emit.offer items >>= fun _ => emit.offer more :=
  List.forM_append

theorem offer_singleton {emit : Listener α σ} {a : α} {s s' : σ} (h : emit a s = .ok () s') :
    emit.offer [a] s = .ok () s' :=
  bind_of_ok h _

/-- `offer` gives items that are taken, and then the items behind them. -/
theorem offer_append_ok {emit : Listener α σ} {items more : List α} {s t : σ}
    (h : emit.offer items s = .ok () t) : emit.offer (items ++ more) s = emit.offer more t := by
  rw [offer_append]
  exact bind_of_ok h _

/-- `collecting` takes all items. -/
theorem offer_collecting (items before : List α) :
    offer collecting items before = .ok () (items.reverse ++ before) := by
  induction items generalizing before with
  | nil => rfl
  | cons a items ih =>
      refine (ih (a :: before)).trans ?_
      rw [List.reverse_cons, List.append_assoc, List.singleton_append]

/-- Nothing is offered after a refusal: `offer` ends with the first one. -/
theorem offer_append_error {emit : Listener α σ} {items more : List α} {s t : σ} {e : Error}
    (h : emit.offer items s = .error e t) : emit.offer (items ++ more) s = .error e t := by
  rw [offer_append]
  exact bind_eq_error_iff.2 (.inl h)

end Listener

/-- What a listener has been offered. -/
structure Takings (α : Type) where
  /-- The items it has taken, last one first. -/
  taken : List α := []
  /-- The items it has refused, last one first. -/
  refused : List α := []
  deriving DecidableEq, Repr

namespace Listener

/-- Takes the first `limit` items and refuses all others. -/
def refusingAfter (limit : Nat) (refusal : Error) : Listener α (Takings α) := fun a => do
  let before ← get
  if before.taken.length < limit then
    set { before with taken := a :: before.taken }
  else
    set { before with refused := a :: before.refused }
    throw refusal

/-- `refusingAfter` takes the first items up to its limit, and refuses one at most. -/
theorem offer_refusingAfter (limit : Nat) (refusal : Error) (items : List α) (taken : List α)
    (hroom : taken.length ≤ limit) :
    (refusingAfter limit refusal).offer items { taken } =
      match items.drop (limit - taken.length) with
      | [] => .ok () { taken := items.reverse ++ taken }
      | a :: _ => .error refusal
          { taken := (items.take (limit - taken.length)).reverse ++ taken, refused := [a] } := by
  induction items generalizing taken with
  | nil =>
      rw [List.drop_nil]
      rfl
  | cons a items ih =>
      by_cases hlt : taken.length < limit
      · have hstep : refusingAfter limit refusal a { taken } = .ok () { taken := a :: taken } := by
          unfold refusingAfter
          rw [bind_of_ok (show (get : Listening (Takings α) _) { taken } = .ok _ _ from rfl),
            if_pos hlt]
          rfl
        have hleft : limit - taken.length = limit - (a :: taken).length + 1 := by
          rw [List.length_cons]
          omega
        rw [hleft, List.drop_succ_cons, List.take_succ_cons]
        refine (bind_of_ok hstep _).trans ((ih (a :: taken) hlt).trans ?_)
        cases items.drop (limit - (a :: taken).length) with
        | nil => simp
        | cons b rest => simp
      · have hstep : refusingAfter limit refusal a { taken } =
            .error refusal { taken, refused := [a] } := by
          unfold refusingAfter
          rw [bind_of_ok (show (get : Listening (Takings α) _) { taken } = .ok _ _ from rfl),
            if_neg hlt]
          rfl
        have hnone : limit - taken.length = 0 := by omega
        rw [hnone]
        exact bind_eq_error_iff.2 (.inl hstep)

/-- A listener that is `refusingAfter` some limit and refuses nothing was offered no more than that,
and has taken all of it. -/
theorem of_offer_ok {limit : Nat} {refusal : Error} {items : List α} {t : Takings α}
    (h : (refusingAfter limit refusal).offer items {} = .ok () t) :
    items.length ≤ limit ∧ t = { taken := items.reverse } := by
  rw [offer_refusingAfter limit refusal items [] (Nat.zero_le _)] at h
  split at h
  · rename_i hdrop
    cases h
    exact ⟨List.drop_eq_nil_iff.1 hdrop, by rw [List.append_nil]⟩
  · cases h

/-- A listener that is `refusingAfter` some limit and refuses an item was offered more than that,
has taken the first items up to the limit and refused the next one. -/
theorem of_offer_error {limit : Nat} {refusal e : Error} {items : List α} {t : Takings α}
    (h : (refusingAfter limit refusal).offer items {} = .error e t) :
    limit < items.length ∧ e = refusal ∧
      t = { taken := (items.take limit).reverse, refused := (items.drop limit).take 1 } := by
  rw [offer_refusingAfter limit refusal items [] (Nat.zero_le _)] at h
  split at h
  · cases h
  · rename_i a rest hdrop
    cases h
    refine ⟨?_, rfl, ?_⟩
    · rw [← Nat.not_le, ← List.drop_eq_nil_iff]
      exact fun hnil => List.cons_ne_nil _ _ (hdrop.symm.trans hnil)
    · rw [List.append_nil]
      exact congrArg (Takings.mk _) (congrArg (List.take 1) hdrop).symm

end Listener

/-! ### Readings -/

/-- Where a run stands when it ends, however it ends. -/
def stateAfter {ε : Type} : EStateM.Result ε σ β → σ
  | .ok _ s => s
  | .error _ s => s

/-- Items that are kept last one first, behind others. -/
theorem reverse_behind (more items before : List α) :
    more.reverse ++ (items.reverse ++ before) = (items ++ more).reverse ++ before := by
  rw [List.reverse_append, List.append_assoc]

namespace Reading

/-- How a reading that begins with the progress `p` ends with a listener in state `s`, next to how
it ends when every item is taken. -/
inductive Follows (emit : Listener α σ) (p : Progress (List α)) (s : σ) :
    EStateM.Result Error (Progress (List α)) β → EStateM.Result Error (Progress σ) β → Prop
  /-- All items are taken, and the reading succeeds. -/
  | returned (items : List α) {b : β} {ran : Bool} {s' : σ}
      (taken : emit.offer items s = .ok () s') (later : p.ranOut = true → ran = true) :
      Follows emit p s (.ok b ⟨items.reverse ++ p.listener, ran⟩) (.ok b ⟨s', ran⟩)
  /-- All items are taken, and the reading fails. -/
  | failed (items : List α) {e : Error} {ran : Bool} {s' : σ}
      (taken : emit.offer items s = .ok () s') (later : p.ranOut = true → ran = true) :
      Follows emit p s (.error e ⟨items.reverse ++ p.listener, ran⟩) (.error e ⟨s', ran⟩)
  /-- One of the items is refused. Had all been taken, the reading would have gone on. -/
  | refused (items : List α) {e : Error} {ran : Bool} {s' : σ}
      {r : EStateM.Result Error (Progress (List α)) β}
      (refusal : emit.offer items s = .error e s')
      (taken : (stateAfter r).listener = items.reverse ++ p.listener)
      (later : p.ranOut = true → ran = true)
      (last : ran = true → (stateAfter r).ranOut = true) :
      Follows emit p s r (.error e ⟨s', ran⟩)

namespace Follows

variable {emit : Listener α σ} {p : Progress (List α)} {s s' : σ} {ran : Bool} {items : List α}
  {r : EStateM.Result Error (Progress (List α)) β} {r' : EStateM.Result Error (Progress σ) β}

/-- A reading that `Follows` another one: with a listener that takes every item it only adds to what
it has. -/
theorem grows (h : Follows emit p s r r') :
    ∃ items : List α, (stateAfter r).listener = items.reverse ++ p.listener ∧
      (p.ranOut = true → (stateAfter r).ranOut = true) := by
  cases h with
  | returned items taken later => exact ⟨_, rfl, later⟩
  | failed items taken later => exact ⟨_, rfl, later⟩
  | refused items refusal taken later last => exact ⟨_, taken, last ∘ later⟩

/-- `Follows` goes on behind items that the listener has taken. -/
theorem behind (htaken : emit.offer items s = .ok () s') (hlater : p.ranOut = true → ran = true)
    (h : Follows emit ⟨items.reverse ++ p.listener, ran⟩ s' r r') : Follows emit p s r r' := by
  have hboth (more : List α) := reverse_behind more items p.listener
  cases h with
  | returned items taken later =>
      rw [hboth]
      exact .returned _ ((Listener.offer_append_ok htaken).trans taken) (later ∘ hlater)
  | failed items taken later =>
      rw [hboth]
      exact .failed _ ((Listener.offer_append_ok htaken).trans taken) (later ∘ hlater)
  | refused items refusal taken later last =>
      exact .refused _ ((Listener.offer_append_ok htaken).trans refusal) (taken.trans (hboth _))
        (later ∘ hlater) last

end Follows

/-- A reading with a listener hands out what the same reading hands out when every item is taken, up
to the first item that is refused. `InStep` does not tell this, for only one of the two ends there.
-/
def Heeds (emit : Listener α σ) (all : Reading (List α) β) (x : Reading σ β) : Prop :=
  ∀ p s, Follows emit p s (all p) (x ⟨s, p.ranOut⟩)

namespace Heeds

variable {emit : Listener α σ}

theorem ret (b : β) : Heeds emit (pure b) (pure b) := fun _ _ => .returned [] rfl id

theorem fail (e : Error) : Heeds emit (throw e : Reading (List α) β) (throw e) :=
  fun _ _ => .failed [] rfl id

theorem ofExcept (label : String) (x : Except Error β) :
    Heeds emit (Reading.ofExcept label x) (Reading.ofExcept label x) := by
  cases x with
  | ok b => exact ret b
  | error e => exact fail _

theorem exhaust (v : View) : Heeds emit (Reading.exhaust v) (Reading.exhaust v) := by
  intro p s
  unfold Reading.exhaust
  split
  · exact .returned [] rfl fun _ => rfl
  · exact .returned [] rfl id

/-- `Reading.tell` heeds the listener that it hands the item to. -/
theorem tell (a : α) :
    Heeds emit (Reading.tell (Listener.collecting a)) (Reading.tell (emit a)) := by
  intro p s
  unfold Reading.tell
  cases h : emit a s with
  | ok u s' => exact .returned [a] (Listener.offer_singleton h) id
  | error e s' =>
      exact .refused [a] (bind_eq_error_iff.2 (.inl h)) rfl id id

/-- If `x` and all `f b` heed a listener, `x >>= f` does. -/
theorem seq {all : Reading (List α) β} {x : Reading σ β} {f : β → Reading (List α) γ}
    {g : β → Reading σ γ} (h : Heeds emit all x) (hf : ∀ b, Heeds emit (f b) (g b)) :
    Heeds emit (all >>= f) (x >>= g) := by
  intro p s
  have hfirst := h p s
  change Follows emit p s (EStateM.bind all f p) (EStateM.bind x g ⟨s, p.ranOut⟩)
  unfold EStateM.bind
  generalize all p = r at hfirst
  generalize x ⟨s, p.ranOut⟩ = r' at hfirst
  cases hfirst with
  | returned items taken later => exact .behind taken later (hf _ _ _)
  | failed items taken later => exact .failed _ taken later
  | refused items refusal taken later last =>
      rename_i e ran s'
      cases r with
      | error e₀ q => exact .refused _ refusal taken later last
      | ok b q =>
          -- had the item been taken, more might have been handed out
          obtain ⟨more, hmore, hran⟩ := (hf b q s').grows
          have hrefusal : emit.offer (items ++ more) s = .error e s' :=
            Listener.offer_append_error refusal
          refine .refused _ hrefusal (hmore.trans ?_) later (hran ∘ last)
          rw [show q.listener = _ from taken, reverse_behind]

end Heeds

end Reading

open Reading (Heeds)

/-! ### Listing -/

namespace Listing

variable {emit : Listener Resource σ}

theorem heeds_enumsAndFlags (label : String) (v : View) (events : List Event) :
    Heeds emit (enumsAndFlags label Listener.collecting v events)
      (enumsAndFlags label emit v events) := by
  induction events with
  | nil => exact .exhaust v
  | cons e rest ih =>
      unfold enumsAndFlags
      split
      · split
        · exact (Heeds.ofExcept _ _).seq fun key => (Heeds.ofExcept _ _).seq fun name =>
            (Heeds.tell _).seq fun _ => ih
        · exact ih
      · exact ih

theorem heeds_styleableAttributes (label : String) (v : View) (listed : List String)
    (events : List Event) :
    Heeds emit (styleableAttributes label Listener.collecting v listed events)
      (styleableAttributes label emit v listed events) := by
  fun_induction styleableAttributes label emit v listed events with
  | case1 listed =>
      rw [styleableAttributes]
      exact (Heeds.exhaust v).seq fun _ => .ret _
  | case2 listed e rest hkey ih =>
      rw [styleableAttributes, hkey]
      exact ih
  | case3 listed e rest start key hkey ih =>
      rw [styleableAttributes, hkey]
      refine (Heeds.ofExcept label (attributeName key)).seq fun name => ?_
      simp only
      split
      · exact (Heeds.exhaust _).seq fun _ => ih name
      · exact (heeds_enumsAndFlags _ _ _).seq fun _ => (Heeds.tell _).seq fun _ => ih name

theorem heeds_declaration (label : String) (start : StartTag) (type : ResourceType) (v : View) :
    Heeds emit (declaration label Listener.collecting start type v)
      (declaration label emit start type v) := by
  unfold declaration
  refine (Heeds.ofExcept _ _).seq fun key => (Heeds.ofExcept _ _).seq fun name => ?_
  split
  · exact (heeds_styleableAttributes _ _ _ _).seq fun listed => .tell _
  · exact (heeds_enumsAndFlags _ _ _).seq fun _ => .tell _
  · exact .tell _

theorem heeds_children (label : String) (v : View) (events : List Event) :
    Heeds emit (children label Listener.collecting v events) (children label emit v events) := by
  fun_induction children label emit v events with
  | case1 =>
      rw [children]
      exact .exhaust v
  | case2 e rest hnone ih =>
      rw [children, hnone]
      exact ih
  | case3 e rest start hstart place element skip type htype ih =>
      rw [children, hstart]
      simp only [htype]
      exact (heeds_declaration _ _ _ _).seq fun _ => (Heeds.exhaust _).seq fun _ => ih
  | case4 e rest start hstart place element skip hnone hitem ih =>
      rw [children, hstart]
      simp only [hnone, if_pos hitem]
      exact (Heeds.ofExcept _ _).seq fun name => (Heeds.tell _).seq fun _ =>
        (Heeds.exhaust _).seq fun _ => ih
  | case5 e rest start hstart place element hnone hitem ih =>
      rw [children, hstart]
      simp only [hnone, if_neg hitem]
      exact (Heeds.exhaust _).seq fun _ => ih

theorem heeds_declared (label : String) (v : View) :
    Heeds emit (declared label Listener.collecting v) (declared label emit v) := by
  unfold declared
  split
  · exact .exhaust v
  · exact heeds_children _ _ _

theorem heeds_attributeIds (label : String) (attributes : List Attribute) :
    Heeds emit (attributeIds label Listener.collecting attributes)
      (attributeIds label emit attributes) := by
  induction attributes with
  | nil => exact .ret ()
  | cons a rest ih =>
      unfold attributeIds
      split
      · exact (Heeds.ofExcept _ _).seq fun name => (Heeds.tell _).seq fun _ => ih
      · exact ih

theorem heeds_inlineIds (label : String) (v : View) (events : List Event) :
    Heeds emit (inlineIds label Listener.collecting v events) (inlineIds label emit v events) := by
  induction events with
  | nil => exact .exhaust v
  | cons e rest ih => exact (heeds_attributeIds _ _).seq fun _ => ih

end Listing

/-! ### Cutting payloads -/

namespace Payload

variable {emit : Listener Collected σ}

theorem heeds_payload (label : String) (shadow : Encoder) (e : Event) (start : StartTag)
    (element : View) :
    Heeds emit (payload label shadow e start element) (payload label shadow e start element) := by
  unfold payload
  simp only
  split
  · exact .fail _
  · refine (Heeds.exhaust _).seq fun _ => ?_
    split
    · exact .fail _
    · split
      · exact .fail _
      · exact .ret _

theorem heeds_follow (shadow : Encoder) (token : Markup.Token) :
    Heeds emit (follow shadow token) (follow shadow token) := by
  unfold follow
  simp only
  split
  · exact .ret _
  · exact .fail _

theorem heeds_declarations (label : String) (shadow : Encoder) (v : View) (events : List Event) :
    Heeds emit (declarations label Listener.collecting shadow v events)
      (declarations label emit shadow v events) := by
  fun_induction declarations label emit shadow v events with
  | case1 =>
      rw [declarations]
      exact (Heeds.exhaust _).seq fun _ => .ret _
  | case2 shadow v e rest hnone ih =>
      rw [declarations, hnone]
      exact ih
  | case3 shadow v e rest start hstart element hskipped ih =>
      rw [declarations, hstart]
      simp only [if_pos hskipped]
      exact (Heeds.exhaust _).seq fun _ => ih
  | case4 shadow v e rest start hstart element hskipped hinner houter hnext =>
      rw [declarations, hstart]
      simp only [if_neg hskipped]
      refine (Heeds.ofExcept _ _).seq fun name => (heeds_payload _ _ _ _ _).seq fun bytes =>
        (Heeds.tell _).seq fun _ => ?_
      split
      · exact (heeds_follow _ _).seq fun inner => (hinner inner).seq fun inner =>
          (heeds_follow _ _).seq fun outer => houter outer
      · exact hnext

theorem heeds_rootAttributes (attributes : List Attribute) :
    Heeds emit (rootAttributes Listener.collecting attributes)
      (rootAttributes emit attributes) := by
  induction attributes with
  | nil => exact .ret ()
  | cons a rest ih => exact (Heeds.tell _).seq fun _ => ih

theorem heeds_collectFrom (label : String) (shadow : Encoder) (v : View) (events : List Event) :
    Heeds emit (collectFrom label Listener.collecting shadow v events)
      (collectFrom label emit shadow v events) := by
  induction events generalizing shadow with
  | nil => exact .exhaust v
  | cons e rest ih =>
      unfold collectFrom
      simp only
      split
      · exact .fail _
      · split
        · exact ih _
        · split
          · refine (heeds_rootAttributes _).seq fun _ =>
              (heeds_declarations _ _ _ _).seq fun _ => ?_
            split
            · exact .fail _
            · exact .ret _
          · exact ih _

end Payload

/-! ### Whole documents -/

namespace Reading

/-- A walk that has asked for more events than there are by its end has come upon what is wrong with
the document. -/
def Finds (doc : Document) (r : EStateM.Result Error (Progress σ) Unit) (fault : Error) : Prop :=
  doc.fault? = some fault ∧ (stateAfter r).ranOut = true

/-- How a document is read, by the end of its walk. -/
def conclude (doc : Document) (onFault : Error → Error)
    (r : EStateM.Result Error (Progress σ) Unit) : EStateM.Result Error σ Unit :=
  match (stateAfter r).ranOut, doc.fault?, r with
  | true, some fault, _ => .error (onFault fault) (stateAfter r).listener
  | _, _, .error e p => .error e p.listener
  | _, _, .ok _ p => .ok () p.listener

theorem document_eq (doc : Document) (onFault : Error → Error) (walk : View → Reading σ Unit)
    (s : σ) :
    document doc onFault walk s =
      conclude doc onFault (walk (.whole doc.events) { listener := s }) := by
  unfold document conclude
  cases walk (.whole doc.events) { listener := s } with
  | ok u p =>
      obtain ⟨listener, ran⟩ := p
      cases ran <;> cases doc.fault? <;> rfl
  | error e p =>
      obtain ⟨listener, ran⟩ := p
      cases ran <;> cases doc.fault? <;> rfl

theorem stateAfter_conclude (doc : Document) (onFault : Error → Error)
    (r : EStateM.Result Error (Progress σ) Unit) :
    stateAfter (conclude doc onFault r) = (stateAfter r).listener := by
  unfold conclude
  split <;> rfl

theorem conclude_of_finds {doc : Document} (onFault : Error → Error)
    {r : EStateM.Result Error (Progress σ) Unit} {fault : Error} (h : Finds doc r fault) :
    conclude doc onFault r = .error (onFault fault) (stateAfter r).listener := by
  unfold conclude
  rw [h.1, h.2]

/-- `conclude` leaves the failure of a walk that `Finds` nothing wrong with the document. -/
theorem conclude_of_not_finds {doc : Document} (onFault : Error → Error) {e : Error}
    {p : Progress σ} (h : ∀ fault, ¬Finds doc (.error e p : EStateM.Result _ _ Unit) fault) :
    conclude doc onFault (.error e p) = .error e p.listener := by
  unfold conclude
  split
  · rename_i fault hran hfault
    exact absurd ⟨hfault, hran⟩ (h fault)
  · rename_i heq _
    cases heq
    rfl
  · rename_i heq _
    cases heq

end Reading

open Reading (Finds)

namespace Listening

/-- How a reader of a file ends with a listener in state `s`, next to how it ends when every item is
taken. `late` holds of what the reader comes upon by the time of a refusal. -/
inductive Follows (emit : Listener α σ) (late : Error → Prop) (before : List α) (s : σ) :
    EStateM.Result Error (List α) Unit → EStateM.Result Error σ Unit → Prop
  /-- All items are taken, and the reader succeeds. -/
  | returned (items : List α) {u : Unit} {s' : σ} (taken : emit.offer items s = .ok () s') :
      Follows emit late before s (.ok u (items.reverse ++ before)) (.ok u s')
  /-- All items are taken, and the reader fails. -/
  | failed (items : List α) {e : Error} {s' : σ} (taken : emit.offer items s = .ok () s') :
      Follows emit late before s (.error e (items.reverse ++ before)) (.error e s')
  /-- One of the items is refused. -/
  | refused (items : List α) {e : Error} {s' : σ} {r : EStateM.Result Error (List α) Unit}
      (refusal : emit.offer items s = .error e s')
      (taken : stateAfter r = items.reverse ++ before) (notLate : ∀ fault, ¬late fault) :
      Follows emit late before s r (.error e s')
  /-- One of the items is refused, but the reader has come upon a fault. -/
  | overruled (items : List α) {e fault : Error} {s' : σ}
      (refusal : emit.offer items s = .error e s') (isLate : late fault) :
      Follows emit late before s (.error fault (items.reverse ++ before)) (.error fault s')

/-- The outcomes of `conclude` follow each other as the outcomes of the walks do. -/
theorem follows_conclude {emit : Listener α σ} {p : Progress (List α)} {s : σ}
    {r : EStateM.Result Error (Progress (List α)) Unit}
    {r' : EStateM.Result Error (Progress σ) Unit} (h : Reading.Follows emit p s r r')
    (doc : Document) (onFault : Error → Error) :
    Follows emit (fun fault => ∃ cause, Finds doc r' cause ∧ fault = onFault cause) p.listener s
      (Reading.conclude doc onFault r) (Reading.conclude doc onFault r') := by
  cases h with
  | returned items taken later =>
      rename_i b ran s'
      cases ran with
      | false => exact .returned _ taken
      | true =>
          unfold Reading.conclude
          cases doc.fault? with
          | none => exact .returned _ taken
          | some fault => exact .failed _ taken
  | failed items taken later =>
      rename_i e ran s'
      cases ran with
      | false => exact .failed _ taken
      | true =>
          unfold Reading.conclude
          cases doc.fault? with
          | none => exact .failed _ taken
          | some fault => exact .failed _ taken
  | refused items refusal taken later last =>
      rename_i e ran s'
      have hstate := Reading.stateAfter_conclude doc onFault r
      by_cases hfound : ∃ cause, Finds doc (.error e ⟨s', ran⟩ : EStateM.Result _ _ Unit) cause
      · -- the walk would have run out of events anyway
        obtain ⟨cause, hcause⟩ := hfound
        rw [Reading.conclude_of_finds onFault hcause,
          Reading.conclude_of_finds onFault ⟨hcause.1, last hcause.2⟩, taken]
        exact .overruled _ refusal ⟨cause, hcause, rfl⟩
      · rw [Reading.conclude_of_not_finds onFault (not_exists.1 hfound)]
        exact .refused _ refusal (hstate.trans taken) fun _ ⟨cause, hcause, _⟩ =>
          hfound ⟨cause, hcause⟩

/-- A run that another one `Follows` only adds to what was handed out. -/
theorem Follows.grows {emit : Listener α σ} {late : Error → Prop} {before : List α} {s : σ}
    {r : EStateM.Result Error (List α) Unit} {r' : EStateM.Result Error σ Unit}
    (h : Follows emit late before s r r') :
    ∃ items : List α, stateAfter r = items.reverse ++ before := by
  cases h with
  | returned items taken => exact ⟨_, rfl⟩
  | failed items taken => exact ⟨_, rfl⟩
  | refused items refusal taken notLate => exact ⟨_, taken⟩
  | overruled items refusal isLate => exact ⟨_, rfl⟩

/-- `Follows` goes on behind items that the listener has taken, for a reader of a whole document. -/
theorem Follows.behind {emit : Listener α σ} {late late' : Error → Prop} {before : List α}
    {s s' : σ} (items : List α) {r : EStateM.Result Error (List α) Unit}
    {r' : EStateM.Result Error σ Unit}
    (htaken : emit.offer items s = .ok () s') (hlate : ∀ fault, late' fault ↔ late fault)
    (h : Follows emit late' (items.reverse ++ before) s' r r') :
    Follows emit late before s r r' := by
  have hboth (more : List α) := reverse_behind more items before
  cases h with
  | returned items taken =>
      rw [hboth]
      exact .returned _ ((Listener.offer_append_ok htaken).trans taken)
  | failed items taken =>
      rw [hboth]
      exact .failed _ ((Listener.offer_append_ok htaken).trans taken)
  | refused items refusal taken notLate =>
      exact .refused _ ((Listener.offer_append_ok htaken).trans refusal) (taken.trans (hboth _))
        fun fault h => notLate fault ((hlate fault).2 h)
  | overruled items refusal isLate =>
      rw [hboth]
      exact .overruled _ ((Listener.offer_append_ok htaken).trans refusal) ((hlate _).1 isLate)

/-- What a reader hands out when the items after the first `limit` are refused, and how it ends. -/
def refusedTrace (limit : Nat) (refusal : Error)
    (read : Listener α (Takings α) → Listening (Takings α) Unit) : Takings α × Except Error Unit :=
  match read (Listener.refusingAfter limit refusal) {} with
  | .ok _ takings => (takings, .ok ())
  | .error e takings => (takings, .error e)

/-- A run that stops at the first refusal, next to the run in which every item is taken. `late`
holds of what is wrong with the document if the run has come upon that by then. -/
structure StopsAtRefusal (limit : Nat) (refusal : Error) (late : Error → Prop)
    (all : List α × Except Error Unit) (run : Takings α × Except Error Unit) : Prop where
  /-- The first items are taken. -/
  taken : run.1.taken.reverse = all.1.take limit
  /-- The next one is refused, if there is one, and none is offered after it. -/
  refused : run.1.refused = (all.1.drop limit).take 1
  /-- If none is refused, the run ends as the other does. -/
  undisturbed : all.1.length ≤ limit → run.2 = all.2
  /-- Otherwise it ends with the refusal itself, or with what is wrong with the document; then the
  other run ends with that too. -/
  ends : limit < all.1.length →
    ((∀ fault, ¬late fault) ∧ run.2 = .error refusal) ∨
      ∃ fault, late fault ∧ run.2 = .error fault ∧ all.2 = .error fault

namespace StopsAtRefusal

variable {limit : Nat} {refusal : Error} {late : Error → Prop} {items : List α}

/-- `StopsAtRefusal` where no item is too much: nothing is refused, and the outcome is the same. -/
theorem of_taken {outcome : Except Error Unit} (h : items.length ≤ limit) :
    StopsAtRefusal limit refusal late (items, outcome)
      ({ taken := items.reverse }, outcome) where
  taken := by rw [List.reverse_reverse, List.take_of_length_le h]
  refused := by rw [List.drop_eq_nil_of_le h, List.take_nil]
  undisturbed := fun _ => rfl
  ends := fun hlt => absurd h (Nat.not_le.2 hlt)

/-- `StopsAtRefusal` where one item is too much: the first items are taken, the next one is refused.
-/
theorem of_refused {outcome ending : Except Error Unit} (h : limit < items.length)
    (hends : ((∀ fault, ¬late fault) ∧ ending = .error refusal) ∨
      ∃ fault, late fault ∧ ending = .error fault ∧ outcome = .error fault) :
    StopsAtRefusal limit refusal late (items, outcome)
      ({ taken := (items.take limit).reverse, refused := (items.drop limit).take 1 }, ending) where
  taken := List.reverse_reverse _
  refused := rfl
  undisturbed := fun hle => absurd hle (Nat.not_le.2 h)
  ends := fun _ => hends

end StopsAtRefusal

/-- A reader `StopsAtRefusal` if it hands out with any listener what it would, up to the item that
is refused. -/
theorem Follows.stopsAtRefusal {limit : Nat} {refusal : Error} {late : Error → Prop}
    {all : Listener α (List α) → Listening (List α) Unit}
    {read : Listener α (Takings α) → Listening (Takings α) Unit}
    (h : Follows (Listener.refusingAfter limit refusal) late [] {} (all Listener.collecting [])
      (read (Listener.refusingAfter limit refusal) {})) :
    StopsAtRefusal limit refusal late (trace all) (refusedTrace limit refusal read) := by
  unfold trace refusedTrace
  generalize all Listener.collecting [] = r at h
  generalize read (Listener.refusingAfter limit refusal) {} = r' at h
  cases h with
  | returned items taken =>
      obtain ⟨hle, rfl⟩ := Listener.of_offer_ok taken
      simpa using StopsAtRefusal.of_taken hle
  | failed items taken =>
      obtain ⟨hle, rfl⟩ := Listener.of_offer_ok taken
      simpa using StopsAtRefusal.of_taken hle
  | refused items refusal taken notLate =>
      obtain ⟨hlt, rfl, rfl⟩ := Listener.of_offer_error refusal
      cases r with
      | ok u kept =>
          obtain rfl : kept = _ := taken
          simpa using StopsAtRefusal.of_refused hlt (.inl ⟨notLate, rfl⟩)
      | error e kept =>
          obtain rfl : kept = _ := taken
          simpa using StopsAtRefusal.of_refused hlt (.inl ⟨notLate, rfl⟩)
  | overruled items refusal isLate =>
      obtain ⟨hlt, rfl, rfl⟩ := Listener.of_offer_error refusal
      simpa using StopsAtRefusal.of_refused hlt (.inr ⟨_, isLate, rfl, rfl⟩)

end Listening

open Listening (StopsAtRefusal refusedTrace trace)

/-! ### Both readers -/

/-- What the walk of a values document has come upon by the time it ends. -/
def Payload.Late (label : String) (doc : Document) (emit : Listener Collected σ) (s : σ)
    (fault : Error) : Prop :=
  ∃ cause, Finds doc (Payload.collect label emit (.whole doc.events) { listener := s }) cause ∧
    fault = (cause.withLabel "token failed: ").withLabel label

theorem Payload.follows_ofDocument (label : String) (doc : Document) (emit : Listener Collected σ)
    (s : σ) :
    Listening.Follows emit (Payload.Late label doc emit s) [] s
      (ofDocument label doc Listener.collecting []) (ofDocument label doc emit s) := by
  unfold ofDocument
  rw [Reading.document_eq, Reading.document_eq]
  exact Listening.follows_conclude
    (heeds_collectFrom label {} (.whole doc.events) doc.events { listener := [] } s) doc _

namespace Listing

/-- The walk of a file that is read as a document. -/
def walk (place : String) (f : ResourceFile) (emit : Listener Resource σ) : View → Reading σ Unit :=
  if f.isValues then declared (place ++ "mini-values-parse: ") emit
  else madeIds (place ++ "mini-non-values-parse: ") emit

theorem heeds_walk {emit : Listener Resource σ} (place : String) (f : ResourceFile) (v : View) :
    Heeds emit (walk place f Listener.collecting v) (walk place f emit v) := by
  unfold walk
  split
  · exact heeds_declared _ _
  · exact heeds_inlineIds _ _ _

/-- The part of a file's listing behind the resource that the file is. -/
def contents (label : String) (f : ResourceFile) (opened : Opened) (emit : Listener Resource σ) :
    Listening σ Unit :=
  match needsReading f opened with
  | .error e => throw (e.withLabel label)
  | .ok false => pure ()
  | .ok true =>
    match document f opened with
    | .error e => throw (e.withLabel (label ++ f.path.display ++ " xml-parse: "))
    | .ok doc =>
      Reading.document doc (Error.withLabel (label ++ f.path.display ++ " xml-parse: "))
        (walk (label ++ f.path.display ++ " xml-parse: ") f emit)

/-- What the walk of a file has come upon by the time it ends, if it is read as a document. -/
def ContentsLate (label : String) (f : ResourceFile) (opened : Opened) (emit : Listener Resource σ)
    (s : σ) (fault : Error) : Prop :=
  ∃ doc cause, needsReading f opened = .ok true ∧ document f opened = .ok doc ∧
    Finds doc (walk (label ++ f.path.display ++ " xml-parse: ") f emit (.whole doc.events)
      { listener := s }) cause ∧
    fault = cause.withLabel (label ++ f.path.display ++ " xml-parse: ")

/-- What the listing of a file has come upon by the time it ends. The walk begins where the listener
has taken the resource that the file is. -/
def Late (label : String) (f : ResourceFile) (opened : Opened) (emit : Listener Resource σ) (s : σ)
    (fault : Error) : Prop :=
  ∃ self? s', f.resource? = .ok self? ∧
    emit.offer (self?.toList.map fun name => { name }) s = .ok () s' ∧
    ContentsLate label f opened emit s' fault

theorem follows_contents (label : String) (f : ResourceFile) (opened : Opened)
    (emit : Listener Resource σ) (before : List Resource) (s : σ) :
    Listening.Follows emit (ContentsLate label f opened emit s) before s
      (contents label f opened Listener.collecting before) (contents label f opened emit s) := by
  unfold contents
  cases hneeds : needsReading f opened with
  | error e => exact .failed [] rfl
  | ok needs =>
      cases needs with
      | false => exact .returned [] rfl
      | true =>
          cases hdoc : document f opened with
          | error e => exact .failed [] rfl
          | ok doc =>
              simp only
              rw [Reading.document_eq, Reading.document_eq]
              have hheeds : Heeds emit _ _ :=
                heeds_walk (label ++ f.path.display ++ " xml-parse: ") f (.whole doc.events)
              have hwalk := hheeds { listener := before } s
              have hfollows := Listening.follows_conclude hwalk doc
                (Error.withLabel (label ++ f.path.display ++ " xml-parse: "))
              refine Listening.Follows.behind [] rfl (fun fault => ?_) hfollows
              constructor
              · rintro ⟨cause, hcause, rfl⟩
                exact ⟨doc, cause, hneeds, hdoc, hcause, rfl⟩
              · rintro ⟨doc', cause, -, hdoc', hcause, rfl⟩
                obtain rfl := Except.ok.inj (hdoc.symm.trans hdoc')
                exact ⟨cause, hcause, rfl⟩

theorem file_eq (label : String) (f : ResourceFile) (opened : Opened) (emit : Listener Resource σ) :
    file label f opened emit =
      match f.resource? with
      | .error e => throw (e.withLabel label)
      | .ok self? =>
        emit.offer (self?.toList.map fun name => { name }) >>= fun _ =>
          contents label f opened emit := by
  unfold file
  cases f.resource? with
  | error e => rfl
  | ok self? =>
      cases self? with
      | none => rfl
      | some name =>
          funext s
          change EStateM.bind _ _ s = EStateM.bind (EStateM.bind _ _) _ s
          unfold EStateM.bind
          cases emit { name } s <;> rfl

theorem follows_file (label : String) (f : ResourceFile) (opened : Opened)
    (emit : Listener Resource σ) (s : σ) :
    Listening.Follows emit (Late label f opened emit s) [] s
      (file label f opened Listener.collecting []) (file label f opened emit s) := by
  rw [file_eq, file_eq]
  cases hself : f.resource? with
  | error e => exact .failed [] rfl
  | ok self? =>
      simp only
      generalize hown : (self?.toList.map fun name => ({ name } : Resource)) = own
      rw [bind_of_ok (Listener.offer_collecting own [])]
      cases htaken : emit.offer own s with
      | ok u s' =>
          rw [bind_of_ok htaken]
          refine (follows_contents label f opened emit _ s').behind own htaken fun fault => ?_
          constructor
          · exact fun hlate => ⟨self?, s', hself, hown ▸ htaken, hlate⟩
          · rintro ⟨self?', s'', hself', htaken', hlate⟩
            obtain rfl := Except.ok.inj (hself.symm.trans hself')
            rw [hown, htaken] at htaken'
            cases htaken'
            exact hlate
      | error e s' =>
          rw [bind_eq_error_iff.2 (.inl htaken)]
          -- the document is not opened, but would be had the resource been taken
          obtain ⟨more, hmore⟩ :=
            (follows_contents label f opened emit (own.reverse ++ []) s').grows
          have hrefusal : emit.offer (own ++ more) s = .error e s' :=
            Listener.offer_append_error htaken
          refine .refused _ hrefusal (hmore.trans (reverse_behind more own [])) ?_
          rintro fault ⟨self?', s'', hself', htaken', -⟩
          obtain rfl := Except.ok.inj (hself.symm.trans hself')
          rw [hown, htaken] at htaken'
          cases htaken'

end Listing

/-- **A refusal stops both readers.** Whatever the document, a listener that is `refusingAfter` some
items gets the items that it would have been handed anyway, and none after the refusal. If there are
more items than it takes, the reader ends with that very error, unless it is `Late`: it had come
upon what is wrong with the document. -/
theorem refusal_stops (limit : Nat) (refusal : Error) :
    (∀ label doc, StopsAtRefusal limit refusal
      (Payload.Late label doc (Listener.refusingAfter limit refusal) {})
      (trace (Payload.ofDocument label doc))
      (refusedTrace limit refusal (Payload.ofDocument label doc))) ∧
    ∀ label f opened, StopsAtRefusal limit refusal
      (Listing.Late label f opened (Listener.refusingAfter limit refusal) {})
      (trace (Listing.file label f opened))
      (refusedTrace limit refusal (Listing.file label f opened)) :=
  ⟨fun label doc => (Payload.follows_ofDocument label doc _ _).stopsAtRefusal,
    fun label f opened => (Listing.follows_file label f opened _ _).stopsAtRefusal⟩

/-- An attribute is handed out behind its enum and flag elements. Where a document breaks off among
them, the attribute is refused too late. -/
theorem refusal_stops_late :
    let opened := Opened.given (Bytes.ofString "<resources><string name=\"s\"/><attr name=\"a\">")
    let string : Resource := { name := ⟨ResourceName.defaultPackage, .string, "s" ⟩ }
    let attr : Resource := { name := ⟨ResourceName.defaultPackage, .attr, "a" ⟩ }
    ∃ fault, trace (Listing.file "" Listing.mixedFile opened) = ([string, attr], .error fault) ∧
      Listing.Late "" Listing.mixedFile opened (Listener.refusingAfter 1 .cancelled) {} fault ∧
      refusedTrace 1 .cancelled (Listing.file "" Listing.mixedFile opened) =
        ({ taken := [string], refused := [attr] }, .error fault) := by
  intro opened string attr
  have hall : (trace (Listing.file "" Listing.mixedFile opened)).1 = [string, attr] := by
    decide +kernel
  have hrun : (refusedTrace 1 .cancelled (Listing.file "" Listing.mixedFile opened)).1 =
      { taken := [string], refused := [attr] } := by
    decide +kernel
  have hother : (refusedTrace 1 .cancelled (Listing.file "" Listing.mixedFile opened)).2 ≠
      .error .cancelled := by
    decide +kernel
  have hstops := (refusal_stops 1 .cancelled).2 "" Listing.mixedFile opened
  rcases hstops.ends (by rw [hall]; decide) with ⟨-, hown⟩ | ⟨fault, hlate, hrefused, hends⟩
  · exact absurd hown hother
  · exact ⟨fault, Prod.ext hall hends, hlate, Prod.ext hrun hrefused⟩

end ResourceShards
