import ResourceShards.Listing.Set
import ResourceShards.Payload.Collect
import ResourceShards.Proofs.Runs

/-!
# ResourceShards.Proofs.Causes

**Why a file fails.** A run tells a file that failed from a file that was given up by the cause of
the failure. So nothing that goes wrong in a file may have a cancellation as its cause, however its
labels read; only a listener that refuses an item says that.

* `Error.Genuine`: a failure that is no cancellation
* `FailsGenuinely`, `RunsGenuinely`: what fails so at most
* `Listing.genuine_ofFile`, `Payload.genuine_trace`: files fail so
-/

namespace ResourceShards

open Markup (Attribute Decoder Document Encoder Event Name StartTag Strictness Token View)

variable {α β σ : Type}

/-- Something went wrong; nobody cancelled the run. -/
def Error.Genuine (e : Error) : Prop := e.isCancelled = false

theorem Error.Genuine.withLabel {e : Error} (h : e.Genuine) (label : String) :
    (e.withLabel label).Genuine := by
  unfold Genuine isCancelled at h ⊢
  rw [root_withLabel]
  exact h

/-- What is there, or went wrong. -/
def FailsGenuinely (x : Except Error α) : Prop :=
  ∀ e, x = .error e → e.Genuine

namespace FailsGenuinely

theorem ok (a : α) : FailsGenuinely (.ok a) := fun _ h => by cases h

theorem error {e : Error} (h : e.Genuine) : FailsGenuinely (.error e : Except Error α) :=
  fun _ heq => Except.error.inj heq ▸ h

theorem bind {x : Except Error α} {f : α → Except Error β} (hx : FailsGenuinely x)
    (hf : ∀ a, FailsGenuinely (f a)) : FailsGenuinely (x >>= f) := by
  cases x with
  | ok a => exact hf a
  | error e => exact error (hx e rfl)

theorem labelling {x : Except Error α} (h : FailsGenuinely x) (label : String) :
    FailsGenuinely (Error.labelling label x) := by
  cases x with
  | ok a => exact ok a
  | error e => exact error ((h e rfl).withLabel label)

end FailsGenuinely

/-- Every failure of `act` has gone wrong, and cancels nothing. -/
abbrev RunsGenuinely (act : EStateM Error σ α) : Prop :=
  Spares (fun _ => ()) Error.Genuine act

theorem RunsGenuinely.of_error {act : EStateM Error σ α}
    (h : ∀ s e t, act s = .error e t → e.Genuine) : RunsGenuinely act where
  ok _ := rfl
  error hrun := ⟨rfl, h _ _ _ hrun⟩

/-! ### Names -/

theorem ResourceName.genuine_readType (chars : List Char) : FailsGenuinely (readType chars) := by
  unfold readType
  split
  · exact .ok _
  · exact .error rfl

theorem ResourceName.genuine_parts (raw : String) (context : ResourceType) :
    FailsGenuinely (parts raw context) := by
  unfold parts
  simp only
  split
  · exact .error rfl
  · exact .error rfl
  · exact .ok _
  · exact .ok _
  · exact (genuine_readType _).bind fun _ => .ok _
  · split
    · exact (genuine_readType _).bind fun _ => .ok _
    · refine (genuine_readType _).bind fun _ => ?_
      split
      · exact .error rfl
      · exact .ok _

theorem ResourceName.genuine_read (raw : String) (context : ResourceType) :
    FailsGenuinely (read raw context) := by
  refine (genuine_parts raw context).bind ?_
  rintro ⟨package, type, name⟩
  simp only
  split
  · exact .error rfl
  · split
    · exact .error rfl
    · exact .ok _

theorem Tag.genuine_required (start : StartTag) (key : String) :
    FailsGenuinely (required start key) := by
  unfold required
  split
  · split
    · exact .error rfl
    · exact .ok _
  · exact .error rfl

theorem ResourceFile.genuine_resource? (file : ResourceFile) : FailsGenuinely file.resource? := by
  unfold resource?
  split
  · exact .ok _
  · split
    · exact .ok _
    · rename_i e he
      exact .error ((ResourceName.genuine_read _ _ e he).withLabel _)

/-! ### Documents -/

/-- A fault that `Decoder.step` finds in a document is `Genuine`: it was not cancelled. -/
theorem Markup.Decoder.genuine_step {mode : Strictness} {d : Decoder} {e : Error}
    (h : d.step mode = .failed e) : e.Genuine := by
  unfold Decoder.step at h
  split at h
  · cases h
  · split at h
    · unfold Decoder.atEnd at h
      split at h
      · cases h
      · cases h
        rfl
    · cases h
      rfl
    · unfold Decoder.piece Decoder.plainEvent at h
      split at h
      case h_1 =>
        simp only at h
        split at h
        · cases h
        · cases h
          rfl
      case h_6 =>
        split at h
        · cases h
          rfl
        · split at h <;> cases h
      case h_7 =>
        split at h
        · cases h
          rfl
        · cases h
      all_goals cases h

theorem Markup.Decoder.genuine_run (mode : Strictness) (d : Decoder)
    (seen : List Event) : ∀ e, (d.run mode seen).2 = some e → e.Genuine := by
  fun_induction Decoder.run mode d seen with
  | case1 d seen hstep => exact fun e h => by cases h
  | case2 d seen e hstep =>
      intro e' h
      cases h
      exact genuine_step hstep
  | case3 d seen e d' hstep ih => exact ih

theorem Markup.Document.genuine_ofDecoder (mode : Strictness) (d : Decoder) :
    ∀ e, (Document.ofDecoder mode d).fault? = some e → e.Genuine :=
  Decoder.genuine_run mode d []

theorem Markup.Document.genuine_read (mode : Strictness) (answer : Except OsError Bytes) :
    ∀ e, (Document.read mode answer).fault? = some e → e.Genuine := by
  cases answer with
  | ok bytes => exact genuine_ofDecoder mode _
  | error reason =>
      intro e h
      cases h
      rfl

/-! ### Readings -/

namespace Reading

theorem genuine_ofExcept {x : Except Error α} (h : FailsGenuinely x) (label : String) :
    RunsGenuinely (ofExcept label x : Reading σ α) :=
  spares_ofExcept fun e hx => (h e hx).withLabel label

theorem genuine_exhaust (v : View) : RunsGenuinely (exhaust v : Reading σ Unit) := by
  unfold exhaust
  split
  · exact .update fun _ => rfl
  · exact .ret _

theorem genuine_tell {listening : Listening σ α} (h : RunsGenuinely listening) :
    RunsGenuinely (tell listening) := by
  refine .of_error fun p e q hrun => ?_
  unfold tell at hrun
  cases hlistening : listening p.listener with
  | ok a s =>
      rw [hlistening] at hrun
      cases hrun
  | error e' s =>
      rw [hlistening] at hrun
      cases hrun
      exact (h.error hlistening).2

/-- A document that is walked fails as the walk does, or since it is wrong. -/
theorem genuine_document {doc : Document} (hdoc : ∀ e, doc.fault? = some e → e.Genuine)
    {onFault : Error → Error} (hfault : ∀ e : Error, e.Genuine → (onFault e).Genuine)
    {walk : View → Reading σ Unit} (hwalk : ∀ v, RunsGenuinely (walk v)) :
    RunsGenuinely (document doc onFault walk) := by
  refine .of_error fun s e t hrun => ?_
  unfold document at hrun
  cases hwalked : walk (.whole doc.events) { listener := s } with
  | ok u p =>
      simp only [hwalked] at hrun
      split at hrun
      · rename_i fault _ hsome
        cases hrun
        exact hfault fault (hdoc fault hsome)
      · rename_i heq _
        cases heq
      · cases hrun
  | error e' p =>
      simp only [hwalked] at hrun
      split at hrun
      · rename_i fault _ hsome
        cases hrun
        exact hfault fault (hdoc fault hsome)
      · rename_i heq _
        cases heq
        cases hrun
        exact ((hwalk _).error hwalked).2
      · cases hrun

end Reading

/-! ### Listings -/

namespace Listing

variable {emit : Listener Resource σ}

theorem genuine_enumsAndFlags (hemit : ∀ r, RunsGenuinely (emit r)) (label : String) (v : View)
    (events : List Event) : RunsGenuinely (enumsAndFlags label emit v events) := by
  induction events with
  | nil => exact Reading.genuine_exhaust v
  | cons e rest ih =>
      unfold enumsAndFlags
      split
      · split
        · exact (Reading.genuine_ofExcept (Tag.genuine_required _ _) _).seq fun key =>
            (Reading.genuine_ofExcept (ResourceName.genuine_read _ _) _).seq fun name =>
              (Reading.genuine_tell (hemit _)).seq fun _ => ih
        · exact ih
      · exact ih

theorem genuine_attributeName (key : String) : FailsGenuinely (attributeName key) := by
  refine ((ResourceName.genuine_read key .attr).labelling _).bind fun name => ?_
  split
  · exact .ok _
  · exact .error rfl

theorem genuine_styleableAttributes (hemit : ∀ r, RunsGenuinely (emit r)) (label : String)
    (v : View) (listed : List String) (events : List Event) :
    RunsGenuinely (styleableAttributes label emit v listed events) := by
  fun_induction styleableAttributes label emit v listed events with
  | case1 listed => exact (Reading.genuine_exhaust v).seq fun _ => .ret _
  | case2 listed e rest hkey ih => exact ih
  | case3 listed e rest start key hkey ih =>
      refine (Reading.genuine_ofExcept (genuine_attributeName key) label).seq fun name => ?_
      simp only
      split
      · exact (Reading.genuine_exhaust _).seq fun _ => ih name
      · exact (genuine_enumsAndFlags hemit _ _ _).seq fun _ =>
          (Reading.genuine_tell (hemit _)).seq fun _ => ih name

theorem genuine_declaration (hemit : ∀ r, RunsGenuinely (emit r)) (label : String)
    (start : StartTag) (type : ResourceType) (v : View) :
    RunsGenuinely (declaration label emit start type v) := by
  unfold declaration
  refine (Reading.genuine_ofExcept (Tag.genuine_required _ _) _).seq fun key =>
    (Reading.genuine_ofExcept ((ResourceName.genuine_read _ _).labelling _) _).seq fun name => ?_
  split
  · exact (genuine_styleableAttributes hemit _ _ _ _).seq fun listed =>
      Reading.genuine_tell (hemit _)
  · exact (genuine_enumsAndFlags hemit _ _ _).seq fun _ => Reading.genuine_tell (hemit _)
  · exact Reading.genuine_tell (hemit _)

theorem genuine_itemName (start : StartTag) : FailsGenuinely (itemName start) :=
  (Tag.genuine_required _ _).bind fun _ => (Tag.genuine_required _ _).bind fun _ =>
    (ResourceName.genuine_readType _).bind fun _ => (ResourceName.genuine_read _ _).labelling _

theorem genuine_children (hemit : ∀ r, RunsGenuinely (emit r)) (label : String) (v : View)
    (events : List Event) : RunsGenuinely (children label emit v events) := by
  fun_induction children label emit v events with
  | case1 => exact Reading.genuine_exhaust v
  | case2 e rest hnone ih => exact ih
  | case3 e rest start hstart place element skip type htype ih =>
      exact (genuine_declaration hemit _ _ _ _).seq fun _ =>
        (Reading.genuine_exhaust _).seq fun _ => ih
  | case4 e rest start hstart place element skip hnone hitem ih =>
      exact (Reading.genuine_ofExcept (genuine_itemName _) _).seq fun name =>
        (Reading.genuine_tell (hemit _)).seq fun _ => (Reading.genuine_exhaust _).seq fun _ => ih
  | case5 e rest start hstart place element hnone hitem ih =>
      exact (Reading.genuine_exhaust _).seq fun _ => ih

theorem genuine_declared (hemit : ∀ r, RunsGenuinely (emit r)) (label : String) (v : View) :
    RunsGenuinely (declared label emit v) := by
  unfold declared
  split
  · exact Reading.genuine_exhaust v
  · exact genuine_children hemit _ _ _

theorem genuine_attributeIds (hemit : ∀ r, RunsGenuinely (emit r)) (label : String)
    (attributes : List Attribute) :
    RunsGenuinely (attributeIds label emit attributes) := by
  induction attributes with
  | nil => exact .ret _
  | cons a rest ih =>
      unfold attributeIds
      split
      · rename_i made hmade
        have hgenuine : FailsGenuinely made := by
          unfold madeId? at hmade
          split at hmade
          · cases hmade
            exact (ResourceName.genuine_read _ _).labelling _
          · cases hmade
        exact (Reading.genuine_ofExcept hgenuine _).seq fun name =>
          (Reading.genuine_tell (hemit _)).seq fun _ => ih
      · exact ih

theorem genuine_inlineIds (hemit : ∀ r, RunsGenuinely (emit r)) (label : String) (v : View)
    (events : List Event) : RunsGenuinely (inlineIds label emit v events) := by
  induction events with
  | nil => exact Reading.genuine_exhaust v
  | cons e rest ih => exact (genuine_attributeIds hemit _ _).seq fun _ => ih

theorem genuine_needsReading (file : ResourceFile) (opened : Opened) :
    FailsGenuinely (needsReading file opened) := by
  unfold needsReading
  split
  · exact .ok _
  · split
    · exact .ok _
    · split
      · exact .ok _
      · exact .error rfl
      · split
        · exact .error rfl
        · exact .ok _

/-- What is read of a file's contents. -/
theorem genuine_document (hemit : ∀ r, RunsGenuinely (emit r)) (label : String) (f : ResourceFile)
    {doc : Document} (hdoc : ∀ e, doc.fault? = some e → e.Genuine) :
    RunsGenuinely (Reading.document doc (Error.withLabel label)
      (if f.isValues then declared (label ++ "mini-values-parse: ") emit
        else madeIds (label ++ "mini-non-values-parse: ") emit)) := by
  refine Reading.genuine_document hdoc (fun e he => he.withLabel label) fun v => ?_
  split
  · exact genuine_declared hemit _ _
  · exact genuine_inlineIds hemit _ _ _

/-- `Listing.file` `RunsGenuinely` if its listener does. -/
theorem genuine_file (hemit : ∀ r, RunsGenuinely (emit r)) (label : String) (f : ResourceFile)
    (opened : Opened) : RunsGenuinely (file label f opened emit) := by
  unfold file
  extract_lets place content
  have hcontent : ∀ u, RunsGenuinely (content u) := by
    intro u
    unfold content
    split
    · rename_i e he
      exact .fail ((genuine_needsReading _ _ e he).withLabel _)
    · exact .ret _
    · cases opened with
      | given bytes => exact genuine_document hemit _ _ (Document.genuine_ofDecoder _ _)
      | looked answer =>
          cases answer with
          | error reason =>
              exact .fail (Error.Genuine.withLabel (e := .io .openFile f.path reason.message) rfl _)
          | ok found =>
              exact genuine_document hemit _ _ (Document.genuine_read .lenient found.contents)
  cases hresource : f.resource? with
  | error e =>
      have hlabelled := (ResourceFile.genuine_resource? f e hresource).withLabel label
      exact .fail hlabelled
  | ok name? =>
      cases name? with
      | none => exact hcontent ()
      | some name => exact (hemit _).seq hcontent

end Listing

/-! ### Payloads -/

namespace Markup.Encoder

/-- `qualify` `FailsGenuinely`: a name that it can not write is in a namespace without a prefix. -/
theorem genuine_qualify (e : Encoder) (forAttribute : Bool) (name : Name) :
    FailsGenuinely (e.qualify forAttribute name) := by
  unfold qualify
  split
  · exact .ok _
  · split
    · exact .ok _
    · split
      · exact .ok _
      · split
        · exact .ok _
        · split
          · exact .ok _
          · exact .error rfl

theorem genuine_attributesText (e : Encoder) (attributes : List Attribute) :
    FailsGenuinely (e.attributesText attributes).2 := by
  induction attributes with
  | nil => exact .ok _
  | cons a rest ih =>
      unfold attributesText
      cases hname : e.qualify true a.name with
      | error err => exact .error (genuine_qualify _ _ _ err hname)
      | ok name => exact ih

theorem genuine_encode (e : Encoder) (token : Token) : FailsGenuinely (e.encode token).outcome := by
  cases token with
  | start tag =>
      unfold encode encodeStart
      simp only
      split
      · rename_i err herr
        exact .error (genuine_qualify _ _ _ err herr)
      · split
        · exact .ok _
        · rename_i text err htext
          exact .error (genuine_attributesText _ tag.attributes err (congrArg Prod.snd htext))
  | finish name =>
      unfold encode encodeEnd
      simp only
      split
      · rename_i err herr
        exact .error (genuine_qualify _ _ _ err herr)
      · split
        · exact .error rfl
        · split
          · exact .ok _
          · exact .error rfl
  | text content => exact .ok _
  | cdata content => exact .ok _
  | comment content => exact .ok _
  | instruction content => exact .ok _
  | doctype content => exact .ok _

theorem genuine_encodeAll (e : Encoder) (tokens : List Token) :
    FailsGenuinely (e.encodeAll tokens).outcome := by
  induction tokens generalizing e with
  | nil => exact .ok _
  | cons token rest ih =>
      have hfirst := genuine_encode e token
      unfold encodeAll
      split
      · exact ih _
      · exact hfirst

end Markup.Encoder

namespace Payload

variable {emit : Listener Collected σ}

theorem genuine_declarationName (start : StartTag) : FailsGenuinely (declarationName start) := by
  refine (Tag.genuine_required _ _).bind fun key => ?_
  split
  · exact (Tag.genuine_required _ _).bind fun _ =>
      (ResourceName.genuine_readType _).bind fun _ => ResourceName.genuine_read _ _
  · split
    · exact ResourceName.genuine_read _ _
    · exact .error rfl

theorem genuine_unclosed (start : StartTag) (offset : Nat) : (unclosed start offset).Genuine :=
  Error.Genuine.withLabel (e := .truncated offset 1) rfl _

theorem genuine_payload (label : String) (shadow : Encoder) (e : Event) (start : StartTag)
    (element : View) : RunsGenuinely (payload label shadow e start element : Reading σ Bytes) := by
  have hplace : ∀ {err : Error}, err.Genuine →
      ((Error.withLabel label ∘ Error.withLabel "extracting element failed: ") err).Genuine :=
    fun h => (h.withLabel _).withLabel _
  have hbody := Encoder.genuine_encodeAll shadow.child (e.token :: element.events.map Event.token)
  have hclosing := Encoder.genuine_encode
    (shadow.child.encodeAll (e.token :: element.events.map Event.token)).encoder
    (.finish start.name)
  unfold payload
  simp only
  split
  · rename_i err herr
    exact .fail (hplace (hbody err herr))
  · refine (Reading.genuine_exhaust _).seq fun _ => ?_
    split
    · exact .fail ((genuine_unclosed _ _).withLabel _)
    · split
      · rename_i err herr
        exact .fail (hplace (hclosing err herr))
      · exact .ret _

theorem genuine_follow (shadow : Encoder) (token : Token) :
    RunsGenuinely (follow shadow token : Reading σ Encoder) := by
  have hencode := Encoder.genuine_encode shadow token
  unfold follow
  simp only
  split
  · exact .ret _
  · rename_i err herr
    exact .fail (hencode err herr)

theorem genuine_declarations (hemit : ∀ c, RunsGenuinely (emit c)) (label : String)
    (shadow : Encoder) (v : View) (events : List Event) :
    RunsGenuinely (declarations label emit shadow v events) := by
  fun_induction declarations label emit shadow v events with
  | case1 => exact (Reading.genuine_exhaust _).seq fun _ => .ret _
  | case2 shadow v e rest hnone ih => exact ih
  | case3 shadow v e rest start hstart element hskipped ih =>
      exact (Reading.genuine_exhaust _).seq fun _ => ih
  | case4 shadow v e rest start hstart element hskipped hinner houter hnext =>
      refine (Reading.genuine_ofExcept ((genuine_declarationName _).labelling _) _).seq
        fun name => (genuine_payload _ _ _ _ _).seq fun bytes =>
          (Reading.genuine_tell (hemit _)).seq fun _ => ?_
      split
      · exact (genuine_follow _ _).seq fun inner => (hinner inner).seq fun inner =>
          (genuine_follow _ _).seq fun outer => houter outer
      · exact hnext

theorem genuine_rootAttributes (hemit : ∀ c, RunsGenuinely (emit c))
    (attributes : List Attribute) : RunsGenuinely (rootAttributes emit attributes) := by
  induction attributes with
  | nil => exact .ret _
  | cons a rest ih => exact (Reading.genuine_tell (hemit _)).seq fun _ => ih

theorem genuine_collectFrom (hemit : ∀ c, RunsGenuinely (emit c)) (label : String)
    (shadow : Encoder) (v : View) (events : List Event) :
    RunsGenuinely (collectFrom label emit shadow v events) := by
  induction events generalizing shadow with
  | nil => exact Reading.genuine_exhaust v
  | cons e rest ih =>
      have hencode := Encoder.genuine_encode shadow e.token
      unfold collectFrom
      simp only
      split
      · rename_i err herr
        exact .fail (((hencode err herr).withLabel _).withLabel _)
      · split
        · exact ih _
        · split
          · refine (genuine_rootAttributes hemit _).seq fun _ =>
              (genuine_declarations hemit _ _ _ _).seq fun _ => ?_
            split
            · exact .fail ((genuine_unclosed _ _).withLabel _)
            · exact .ret _
          · exact ih _

theorem genuine_ofDocument (hemit : ∀ c, RunsGenuinely (emit c)) (label : String) {doc : Document}
    (hdoc : ∀ e, doc.fault? = some e → e.Genuine) : RunsGenuinely (ofDocument label doc emit) :=
  Reading.genuine_document hdoc (fun _ he => (he.withLabel _).withLabel _) fun v =>
    genuine_collectFrom hemit _ _ v v.events

/-- `Payload.ofFile` `RunsGenuinely` if its listener does. -/
theorem genuine_ofFile (hemit : ∀ c, RunsGenuinely (emit c)) (label : String)
    (file : ResourceFile) (answer : Except OsError (Tree Bytes)) :
    RunsGenuinely (ofFile label file answer emit) := by
  unfold ofFile
  split
  · exact .fail (Error.Genuine.withLabel (e := .io .openFile file.path _) rfl _)
  · rename_i found
    exact genuine_ofDocument hemit _ (Document.genuine_read .strict found.contents)

end Payload

/-! ### Jobs -/

/-- The outcome of a `trace` `FailsGenuinely`, if the reader runs genuinely with every listener that
does. -/
theorem Listening.genuine_trace {read : Listener α (List α) → Listening (List α) Unit}
    (h : ∀ emit : Listener α (List α), (∀ a, RunsGenuinely (emit a)) → RunsGenuinely (read emit)) :
    FailsGenuinely (Listening.trace read).2 := by
  have hread := h Listener.collecting fun a => .update fun _ => rfl
  unfold Listening.trace
  split
  · exact .ok _
  · rename_i e items hrun
    exact .error (hread.error hrun).2

/-- The job of a reader that `FailsGenuinely` does not stop its worker. -/
theorem Job.ending_ofTrace_ne_stop {items : List α} {outcome : Except Error Unit}
    (h : FailsGenuinely outcome) : (Job.ofTrace (items, outcome)).ending ≠ .stop := by
  cases outcome with
  | ok u => exact nofun
  | error e =>
      have hgenuine : e.isCancelled = false := h e rfl
      simp [Job.ofTrace, hgenuine]

/-- The job of a reader is `done` exactly if the reader succeeds. -/
theorem Job.ending_ofTrace_eq_done {items : List α} {outcome : Except Error Unit} :
    (Job.ofTrace (items, outcome)).ending = .done ↔ outcome = .ok () := by
  cases outcome with
  | ok u => simp [Job.ofTrace]
  | error e => cases hcancelled : e.isCancelled <;> simp [Job.ofTrace, hcancelled]

@[simp] theorem Job.yields_ofTrace (items : List α) (outcome : Except Error Unit) :
    (Job.ofTrace (items, outcome)).yields = items := by
  cases outcome <;> rfl

/-- The `job` of listing a file stops no worker. -/
theorem ResourceSet.ending_job_ne_stop (label : String) (source : Source) :
    (job label source).ending ≠ .stop :=
  Job.ending_ofTrace_ne_stop
    (Listening.genuine_trace fun _ hemit => Listing.genuine_file hemit _ _ _)

end ResourceShards
