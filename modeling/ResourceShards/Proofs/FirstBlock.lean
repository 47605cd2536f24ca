import ResourceShards.Proofs.Causes
import ResourceShards.Proofs.Markup.Continuation
import ResourceShards.Proofs.Truncation

/-!
# ResourceShards.Proofs.FirstBlock

**Nothing behind the first block of resources matters.** Reading a values document comes to its
first `<resources>` element and stops with the end tag of that element, whether it fails inside or
not. It asks for no event behind the end tag, so that neither the events that follow nor what ends
them make a difference: malformed markup, unknown references and further blocks are never read.

* `Markup.EndsFirst`: bytes that end with the first element of some kind
* `Reading.StaysInside`: readings that ask for no more events than a view has
* `Payload.collectFrom_closed`, `Listing.declared_closed`: what is read of a block that is closed
* `values_end_with_first`: for both readers
-/

namespace ResourceShards

open Markup (Closes Document Encoder Event Name NoneWanted StartTag View)

/-! ### Readings that stay inside a view -/

namespace Reading

variable {α β σ : Type}

/-- A reading that asks for no more events than there are, however it ends. -/
abbrev StaysInside (x : Reading σ α) : Prop :=
  Spares Progress.ranOut (fun _ => True) x

namespace StaysInside

theorem tell (listening : Listening σ α) : StaysInside (Reading.tell listening) where
  ok h := by
    unfold Reading.tell at h
    split at h
    · cases h
      rfl
    · cases h
  error h := by
    unfold Reading.tell at h
    split at h
    · cases h
    · cases h
      exact ⟨rfl, trivial⟩

theorem ofExcept (label : String) (x : Except Error α) :
    StaysInside (Reading.ofExcept label x : Reading σ α) :=
  spares_ofExcept fun _ _ => trivial

/-- `Reading.exhaust` passes the last event of a view inside a document if more follow. -/
theorem exhaust {v : View} (hfinal : v.final = false) :
    StaysInside (Reading.exhaust v : Reading σ Unit) := by
  unfold Reading.exhaust
  rw [hfinal]
  exact .ret ()

end StaysInside

/-- Two documents come to the same by `document` if a walk of either is one that `StaysInside`. -/
theorem document_congr {doc doc' : Document} {onFault : Error → Error}
    {walk : View → Reading σ Unit} {x : Reading σ Unit} (h : walk (.whole doc.events) = x)
    (h' : walk (.whole doc'.events) = x) (hx : StaysInside x) :
    document doc onFault walk = document doc' onFault walk := by
  funext s
  unfold document
  rw [h, h']
  cases hrun : x { listener := s } with
  | ok u p =>
      have hran : p.ranOut = false := hx.ok hrun
      simp only [hran]
  | error e p =>
      have hran : p.ranOut = false := (hx.error hrun).1
      simp only [hran]

end Reading

open Reading (StaysInside)

/-- A view inside one that more events follow is followed by more. -/
theorem Markup.View.final_enter {v : View} (hfinal : v.final = false) (name : Name)
    (following : List Event) : (v.enter name following).final = false := by
  rw [View.enter, hfinal, Bool.false_and]

namespace Markup

/-- The view that `enter` makes of an element whose end tag the events come to. -/
theorem View.enter_of_closes {name : Name} {following inside rest : List Event} {closing : Nat}
    (h : Closes name following inside closing rest) (v : View) :
    v.enter name following = ⟨inside, true, false⟩ := by
  obtain ⟨t, rfl, hopened⟩ := exists_tree_of_openAfter? h.nested
  obtain ⟨forest, rfl⟩ := DocumentTree.eq_whole_of_opened hopened
  rw [h.eq]
  exact View.enter_element v ⟨name, []⟩ forest closing rest

/-- `skipTo` passes events without a start tag that matches. -/
theorem View.skipTo_of_first {name : Name} {before rest : List Event} {offset : Nat}
    {tag : StartTag} (hbefore : NoneWanted (·.looselyMatches name) before)
    (htag : tag.name.looselyMatches name = true) :
    skipTo name (before ++ ⟨offset, .start tag⟩ :: rest) =
      some (⟨offset, .start tag⟩, tag, rest) := by
  induction before with
  | nil =>
      rw [List.nil_append, skipTo]
      exact if_pos htag
  | cons e before ih =>
      have hrest := ih fun e' he' => hbefore e' (List.mem_cons_of_mem e he')
      rw [List.cons_append, skipTo]
      cases hstart : e.start? with
      | none => exact hrest
      | some found =>
          have hother : ¬found.name.looselyMatches name = true :=
            Bool.eq_false_iff.1 (hbefore e List.mem_cons_self found hstart)
          simp only
          rw [if_neg hother]
          exact hrest

end Markup

/-! ### Listing -/

namespace Listing

variable {σ : Type} {emit : Listener Resource σ} {v : View}

theorem staysInside_enumsAndFlags (hfinal : v.final = false) (label : String)
    (events : List Event) : StaysInside (enumsAndFlags label emit v events) := by
  induction events with
  | nil => exact StaysInside.exhaust hfinal
  | cons e rest ih =>
      unfold enumsAndFlags
      split
      · split
        · exact (StaysInside.ofExcept _ _).seq fun key => (StaysInside.ofExcept _ _).seq fun name =>
            (StaysInside.tell _).seq fun _ => ih
        · exact ih
      · exact ih

theorem staysInside_styleableAttributes (hfinal : v.final = false) (label : String)
    (listed : List String) (events : List Event) :
    StaysInside (styleableAttributes label emit v listed events) := by
  fun_induction styleableAttributes label emit v listed events with
  | case1 listed => exact (StaysInside.exhaust hfinal).seq fun _ => .ret _
  | case2 listed e rest hkey ih => exact ih
  | case3 listed e rest start key hkey ih =>
      have helement := View.final_enter hfinal start.name rest
      refine (StaysInside.ofExcept label (attributeName key)).seq fun name => ?_
      simp only
      split
      · exact (StaysInside.exhaust helement).seq fun _ => ih name
      · exact (staysInside_enumsAndFlags helement _ _).seq fun _ =>
          (StaysInside.tell _).seq fun _ => ih name

theorem staysInside_declaration (hfinal : v.final = false) (label : String) (start : StartTag)
    (type : ResourceType) : StaysInside (declaration label emit start type v) := by
  unfold declaration
  refine (StaysInside.ofExcept _ _).seq fun key => (StaysInside.ofExcept _ _).seq fun name => ?_
  split
  · exact (staysInside_styleableAttributes hfinal _ _ _).seq fun listed => StaysInside.tell _
  · exact (staysInside_enumsAndFlags hfinal _ _).seq fun _ => StaysInside.tell _
  · exact StaysInside.tell _

theorem staysInside_children (hfinal : v.final = false) (label : String) (events : List Event) :
    StaysInside (children label emit v events) := by
  fun_induction children label emit v events with
  | case1 => exact StaysInside.exhaust hfinal
  | case2 e rest hnone ih => exact ih
  | case3 e rest start hstart place element skip type htype ih =>
      have helement := View.final_enter hfinal start.name rest
      exact (staysInside_declaration helement _ _ _).seq fun _ =>
        (StaysInside.exhaust helement).seq fun _ => ih
  | case4 e rest start hstart place element skip hnone hitem ih =>
      have helement := View.final_enter hfinal start.name rest
      exact (StaysInside.ofExcept _ _).seq fun name => (StaysInside.tell _).seq fun _ =>
        (StaysInside.exhaust helement).seq fun _ => ih
  | case5 e rest start hstart place element hnone hitem ih =>
      exact (StaysInside.exhaust (View.final_enter hfinal start.name rest)).seq fun _ => ih

/-- Of a document whose first `<resources>` element is closed only that element is listed. -/
theorem declared_closed {before following inside rest : List Event} {opening closing : Nat}
    {tag : StartTag} (hbefore : NoneWanted (·.looselyMatches Tag.resources) before)
    (htag : tag.name.looselyMatches Tag.resources = true)
    (hcloses : Closes tag.name following inside closing rest) (label : String) :
    declared label emit (.whole (before ++ ⟨opening, .start tag⟩ :: following)) =
      children label emit ⟨inside, true, false⟩ inside := by
  unfold declared View.whole
  simp only [View.skipTo_of_first hbefore htag, View.enter_of_closes hcloses]

end Listing

/-! ### Cutting payloads -/

namespace Payload

variable {σ : Type} {emit : Listener Collected σ} {v : View}

theorem staysInside_payload (hfinal : v.final = false) (label : String) (shadow : Encoder)
    (e : Event) (start : StartTag) :
    StaysInside (payload label shadow e start v : Reading σ Bytes) := by
  unfold payload
  simp only
  split
  · exact .fail trivial
  · refine (StaysInside.exhaust hfinal).seq fun _ => ?_
    split
    · exact .fail trivial
    · split
      · exact .fail trivial
      · exact .ret _

theorem staysInside_follow (shadow : Encoder) (token : Markup.Token) :
    StaysInside (follow shadow token : Reading σ Encoder) := by
  unfold follow
  simp only
  split
  · exact .ret _
  · exact .fail trivial

theorem staysInside_declarations (hfinal : v.final = false) (label : String) (shadow : Encoder)
    (events : List Event) : StaysInside (declarations label emit shadow v events) := by
  fun_induction declarations label emit shadow v events with
  | case1 => exact (StaysInside.exhaust hfinal).seq fun _ => .ret _
  | case2 shadow v e rest hnone ih => exact ih hfinal
  | case3 shadow v e rest start hstart element hskipped ih =>
      exact (StaysInside.exhaust (View.final_enter hfinal start.name rest)).seq fun _ => ih hfinal
  | case4 shadow v e rest start hstart element hskipped hinner houter hnext =>
      have helement := View.final_enter hfinal start.name rest
      refine (StaysInside.ofExcept _ _).seq fun name =>
        (staysInside_payload helement _ _ _ _).seq fun bytes => (StaysInside.tell _).seq fun _ => ?_
      split
      · exact (staysInside_follow _ _).seq fun inner => (hinner inner rfl).seq fun inner =>
          (staysInside_follow _ _).seq fun outer => houter outer hfinal
      · exact hnext hfinal

theorem staysInside_rootAttributes (attributes : List Markup.Attribute) :
    StaysInside (rootAttributes emit attributes) := by
  induction attributes with
  | nil => exact .ret _
  | cons a rest ih => exact (StaysInside.tell _).seq fun _ => ih

/-- An event that can not be written ends `collectFrom`. -/
theorem collectFrom_of_error {shadow : Encoder} {e : Event} {err : Error}
    (h : (shadow.encode e.token).outcome = .error err) (label : String) (v : View)
    (rest : List Event) :
    collectFrom label emit shadow v (e :: rest) =
      throw ((err.withLabel "encoding token failed: ").withLabel label) := by
  rw [collectFrom]
  simp only [h]
  rfl

/-- An event that is not the start of a `<resources>` element is passed. -/
theorem collectFrom_of_other {shadow : Encoder} {e : Event}
    (h : (shadow.encode e.token).outcome = .ok ())
    (hother : ∀ tag, e.start? = some tag → Tag.isResources tag.name = false) (label : String)
    (v : View) (rest : List Event) :
    collectFrom label emit shadow v (e :: rest) =
      collectFrom label emit (shadow.encode e.token).encoder v rest := by
  rw [collectFrom]
  simp only [h]
  cases hstart : e.start? with
  | none => rfl
  | some tag =>
      simp only
      rw [if_neg (Bool.eq_false_iff.1 (hother tag hstart))]

/-- A `<resources>` element that is closed is the last thing that is read. -/
theorem collectFrom_of_block {shadow : Encoder} {opening closing : Nat} {tag : StartTag}
    {following inside rest : List Event}
    (h : (shadow.encode (.start tag)).outcome = .ok ()) (htag : Tag.isResources tag.name = true)
    (hcloses : Closes tag.name following inside closing rest) (label : String) (v : View) :
    collectFrom label emit shadow v (⟨opening, .start tag⟩ :: following) = (do
      rootAttributes emit tag.attributes
      let _ ←
        declarations label emit (shadow.encode (.start tag)).encoder ⟨inside, true, false⟩ inside
      pure ()) := by
  rw [collectFrom]
  simp only [h]
  show (if Tag.isResources tag.name = true then _ else _) = _
  rw [if_pos htag, View.enter_of_closes hcloses]
  rfl

/-- Of a document whose first `<resources>` element is closed only what stands in front of it and
the element are read. -/
theorem collectFrom_closed {before inside : List Event} {opening closing : Nat} {tag : StartTag}
    (hbefore : NoneWanted Tag.isResources before) (htag : Tag.isResources tag.name = true)
    (label : String) (emit : Listener Collected σ) (shadow : Encoder) :
    ∃ x : Reading σ Unit, StaysInside x ∧ ∀ v following rest,
      Closes tag.name following inside closing rest →
        collectFrom label emit shadow v (before ++ ⟨opening, .start tag⟩ :: following) = x := by
  induction before generalizing shadow with
  | nil =>
      cases hencoded : (shadow.encode (.start tag)).outcome with
      | error err =>
          exact ⟨_, .fail trivial,
            fun v following _ _ => collectFrom_of_error hencoded label v following⟩
      | ok u =>
          refine ⟨_, ?_, fun v _ _ hcloses => collectFrom_of_block hencoded htag hcloses label v⟩
          exact (staysInside_rootAttributes _).seq fun _ =>
            (staysInside_declarations rfl _ _ _).seq fun _ => .ret _
  | cons e before ih =>
      cases hencoded : (shadow.encode e.token).outcome with
      | error err =>
          exact ⟨_, .fail trivial, fun v following _ _ => collectFrom_of_error hencoded label v _⟩
      | ok u =>
          have hother := hbefore e List.mem_cons_self
          obtain ⟨x, hx, hwalk⟩ := ih (fun e' he' => hbefore e' (List.mem_cons_of_mem e he'))
            (shadow.encode e.token).encoder
          refine ⟨x, hx, fun v following rest hcloses => ?_⟩
          rw [List.cons_append, collectFrom_of_other hencoded hother]
          exact hwalk v following rest hcloses

end Payload

/-! ### Bytes that end with the first element of some kind -/

namespace Markup

/-- Events that end with the end tag of the first element with a name that is wanted. -/
def EndsWithFirst (wanted : Name → Bool) (events : List Event) : Prop :=
  ∃ before opening tag following inside closing,
    events = before ++ ⟨opening, .start tag⟩ :: following ∧ NoneWanted wanted before ∧
      wanted tag.name = true ∧ Closes tag.name following inside closing []

/-- A document in which more is wrong than elements that are open. -/
def Document.Broken (doc : Document) : Prop :=
  ∃ offset fault, doc.fault? = some (.decode offset fault)

/-- Bytes that end with the `>` of the end tag that closes the first element with a name that is
wanted. Among bytes with something wrong in front of it no element is known to be closed: all that
is asked of them is that what is wrong does not reach to their end. -/
structure EndsFirst (block? : Option Nat) (wanted : Name → Bool) (bytes : Bytes) : Prop where
  /-- The last byte is a `>`. -/
  last : bytes.getLast? = some Lexeme.closing
  /-- The last event is the end tag, or something is wrong in front of it. -/
  read : EndsWithFirst wanted (Document.ofDecoder .lenient (.start block? bytes)).events ∧
      ¬(Document.ofDecoder .lenient (.start block? bytes)).Broken ∨
    (Decoder.start block? bytes).Apart ∧
      (Document.ofDecoder .lenient (.start block? bytes)).Broken

namespace EndsFirst

variable {block? : Option Nat} {wanted : Name → Bool} {bytes : Bytes}

/-- Bytes that `EndsFirst` holds of fall into whole pieces. -/
theorem apart (h : EndsFirst block? wanted bytes) : (Decoder.start block? bytes).Apart := by
  rcases h.read with ⟨hends, hsound⟩ | ⟨hapart, -⟩
  · obtain ⟨before, opening, tag, following, inside, closing, hevents, -, -, hcloses⟩ := hends
    rw [hcloses.eq] at hevents
    have hreversed : ((Decoder.start block? bytes).run .lenient []).1.reverse = _ := hevents
    have hrun := congrArg List.reverse hreversed
    simp only [List.reverse_reverse, List.reverse_append, List.reverse_cons, List.reverse_nil,
      List.nil_append, List.cons_append, List.append_assoc] at hrun
    refine Decoder.apart_of_run (Prod.ext hrun rfl) (fun offset fault hfault => ?_) ?_
    · exact hsound ⟨offset, fault, hfault⟩
    · unfold Decoder.start
      cases hmark : Bytes.dropRun? Decoder.mark bytes with
      | none => exact .inr h.last
      | some rest =>
          have hsuffix : rest <:+ bytes := ⟨_, (Bytes.dropRun?_eq hmark).symm⟩
          exact Lexeme.getLast?_of_suffix hsuffix h.last
  · exact hapart

/-- Whatever is put behind bytes that `EndsFirst` holds of, they are read as if nothing was, or
their first element with a name that is wanted is read. -/
theorem read_append (h : EndsFirst block? wanted bytes) (mode : Strictness) :
    (∀ more, Document.ofDecoder mode (.start block? (bytes ++ more)) =
        Document.ofDecoder mode (.start block? bytes)) ∨
      ∃ before opening tag inside closing, NoneWanted wanted before ∧ wanted tag.name = true ∧
        ∀ more, ∃ following rest, (Document.ofDecoder mode (.start block? (bytes ++ more))).events =
            before ++ ⟨opening, .start tag⟩ :: following ∧
          Closes tag.name following inside closing rest := by
  rcases Document.ofDecoder_append h.last h.apart mode with hsame | ⟨hsound, hprefix⟩
  · exact .inl hsame
  -- what strict reading finds nothing wrong with is read the same leniently
  have hlenient : Document.ofDecoder mode (.start block? bytes) =
      Document.ofDecoder .lenient (.start block? bytes) := by
    cases mode with
    | lenient => rfl
    | strict =>
        rcases Document.ofDecoder_strict (.start block? bytes) with
          hsame | ⟨offset, fault, -, hfault, -⟩
        · exact hsame
        · exact absurd hfault (hsound offset fault)
  rw [hlenient] at hsound hprefix
  rcases h.read with ⟨hends, -⟩ | ⟨-, offset, fault, hfault⟩
  · obtain ⟨before, opening, tag, following, inside, closing, hevents, hbefore, htag, hcloses⟩ :=
      hends
    refine .inr ⟨before, opening, tag, inside, closing, hbefore, htag, fun more => ?_⟩
    obtain ⟨new, hnew⟩ := hprefix more
    refine ⟨following ++ new, new, ?_, ?_, hcloses.nested⟩
    · rw [← hnew, hevents, List.append_assoc, List.cons_append]
    · rw [hcloses.eq, List.append_assoc]
      rfl
  · exact absurd hfault (hsound offset fault)

end EndsFirst

end Markup

open Markup (EndsFirst)

/-! ### Both readers -/

/-- Cutting payloads stops with the first `<resources>` element without a namespace. -/
theorem Payload.ofDocument_append {σ : Type} {block? : Option Nat} {bytes : Bytes}
    (h : EndsFirst block? Tag.isResources bytes) (label : String) (emit : Listener Collected σ)
    (s s' : Bytes) :
    ofDocument label (.ofDecoder .strict (.start block? (bytes ++ s))) emit =
      ofDocument label (.ofDecoder .strict (.start block? (bytes ++ s'))) emit := by
  rcases h.read_append .strict with
    hsame | ⟨before, opening, tag, inside, closing, hbefore, htag, hread⟩
  · rw [hsame s, hsame s']
  · obtain ⟨x, hx, hwalk⟩ := collectFrom_closed hbefore htag label emit {}
    have hcollect (more : Bytes) : collect label emit
        (.whole (Document.ofDecoder .strict (.start block? (bytes ++ more))).events) = x := by
      obtain ⟨following, rest, hevents, hcloses⟩ := hread more
      rw [hevents]
      exact hwalk _ following rest hcloses
    exact Reading.document_congr (hcollect s) (hcollect s') hx

namespace Listing

/-- Listing stops with the first element that is called `resources`, whatever its namespace. -/
theorem document_append {σ : Type} {block? : Option Nat} {bytes : Bytes}
    (h : EndsFirst block? (·.looselyMatches Tag.resources) bytes) (onFault : Error → Error)
    (label : String) (emit : Listener Resource σ) (s s' : Bytes) :
    Reading.document (.ofDecoder .lenient (.start block? (bytes ++ s))) onFault
        (declared label emit) =
      Reading.document (.ofDecoder .lenient (.start block? (bytes ++ s'))) onFault
        (declared label emit) := by
  rcases h.read_append .lenient with
    hsame | ⟨before, opening, tag, inside, closing, hbefore, htag, hread⟩
  · rw [hsame s, hsame s']
  · have hdeclared (more : Bytes) : declared label emit
        (.whole (Document.ofDecoder .lenient (.start block? (bytes ++ more))).events) =
        children label emit ⟨inside, true, false⟩ inside := by
      obtain ⟨following, rest, hevents, hcloses⟩ := hread more
      rw [hevents]
      exact declared_closed hbefore htag hcloses label
    exact Reading.document_congr (hdeclared s) (hdeclared s') (staysInside_children rfl _ _)

/-- Whether a file begins as a document does is known as soon as there is a `>`. -/
theorem beginsDocument_append {bytes : Bytes} (hlast : bytes.getLast? = some Markup.Lexeme.closing)
    (more : Bytes) : beginsDocument (bytes ++ more) = beginsDocument bytes := by
  unfold beginsDocument
  by_cases hlength : documentMark.length ≤ bytes.length
  · rw [List.take_append_of_le_length hlength]
  · -- a part of the mark that ends in a `>` there is not
    have hmem := List.mem_of_getLast? hlast
    have hmark : Markup.Lexeme.closing ∉ documentMark := by decide
    have hother {front : Bytes} (hfront : Markup.Lexeme.closing ∈ front) :
        (front == documentMark) = false := by
      rw [beq_eq_false_iff_ne]
      rintro rfl
      exact hmark hfront
    rw [List.take_append, List.take_of_length_le (Nat.le_of_not_le hlength), hother hmem,
      hother (List.mem_append_left _ hmem)]

/-- `needsReading` depends on nothing in a file but how it begins, given or found on a disk. -/
theorem needsReading_congr (f : ResourceFile) {contents contents' : Bytes}
    (h : beginsDocument contents = beginsDocument contents') :
    needsReading f (.given contents) = needsReading f (.given contents') ∧
      needsReading f (.looked (.ok (.file contents))) =
        needsReading f (.looked (.ok (.file contents'))) := by
  simp only [needsReading, Tree.contents, h, and_self]

/-- `Listing.file` depends on no byte of a values file behind the first block, however its contents
come. -/
theorem file_append {σ : Type} {f : ResourceFile} {block? : Option Nat} {bytes s s' : Bytes}
    (opened : Bytes → Opened) (hvalues : f.isValues = true)
    (h : EndsFirst block? (·.looselyMatches Tag.resources) bytes)
    (hneeds : needsReading f (opened (bytes ++ s)) = needsReading f (opened (bytes ++ s')))
    (hdoc : ∀ contents, document f (opened contents) =
      .ok (.ofDecoder .lenient (.start block? contents)))
    (label : String) (emit : Listener Resource σ) :
    file label f (opened (bytes ++ s)) emit = file label f (opened (bytes ++ s')) emit := by
  unfold file
  rw [hneeds, hdoc, hdoc]
  simp only [hvalues, if_true, document_append h _ _ emit s s']

end Listing

/-- **Nothing behind the first block of resources matters.** Whoever listens, and whatever follows
bytes that `EndsFirst` holds of for elements that are called `resources` and have no namespace:
`Payload.ofDocument` hands out the same and ends alike. `Listing.file` does for a values file, given
or on a disk, behind the first element that is called so in any namespace. -/
theorem values_end_with_first {σ : Type} (bytes s s' : Bytes) :
    (∀ block?, EndsFirst block? (· == .plain "resources") bytes →
      ∀ label (emit : Listener Collected σ),
        Payload.ofDocument label (.ofDecoder .strict (.start block? (bytes ++ s))) emit =
          Payload.ofDocument label (.ofDecoder .strict (.start block? (bytes ++ s'))) emit) ∧
    ∀ f : ResourceFile, f.isValues = true → ∀ label (emit : Listener Resource σ),
      (EndsFirst none (·.localPart == "resources") bytes →
        Listing.file label f (.given (bytes ++ s)) emit =
          Listing.file label f (.given (bytes ++ s')) emit) ∧
      (EndsFirst (some Document.fileBlock) (·.localPart == "resources") bytes →
        Listing.file label f (.looked (.ok (.file (bytes ++ s)))) emit =
          Listing.file label f (.looked (.ok (.file (bytes ++ s')))) emit) := by
  have hname : (fun name : Name => name.localPart == "resources") =
      fun name => name.looselyMatches Tag.resources := Tag.looselyMatches_resources.symm
  have hneeds {block? : Option Nat} {wanted : Name → Bool} (h : EndsFirst block? wanted bytes)
      (f : ResourceFile) := Listing.needsReading_congr f <|
    (Listing.beginsDocument_append h.last s).trans (Listing.beginsDocument_append h.last s').symm
  rw [hname]
  refine ⟨fun block? h label emit => Payload.ofDocument_append h label emit s s',
    fun f hvalues label emit => ⟨fun h => ?_, fun h => ?_⟩⟩
  · exact Listing.file_append .given hvalues h (hneeds h f).1 (fun _ => rfl) label emit
  · exact Listing.file_append (fun contents => .looked (.ok (.file contents))) hvalues h
      (hneeds h f).2 (fun _ => rfl) label emit

/-- Readers that do the same with a `collecting` listener have one `trace`. -/
theorem Listening.trace_congr {α : Type}
    {read read' : Listener α (List α) → Listening (List α) Unit}
    (h : read Listener.collecting = read' Listener.collecting) : trace read = trace read' := by
  unfold trace
  rw [h]

/-- A document with one block of resources. -/
def oneBlock : Bytes :=
  Bytes.ofString "<resources><string name=\"a\">t</string></resources>"

/-- What the block holds. -/
def oneBlockInside : List Event :=
  [⟨28, .start ⟨.plain "string", [⟨.plain "name", "a"⟩]⟩⟩, ⟨29, .text "t"⟩,
    ⟨38, .finish (.plain "string")⟩]

theorem endsFirst_oneBlock {block? : Option Nat} {wanted : Name → Bool}
    (hdoc : Document.ofDecoder .lenient (.start block? oneBlock) =
      ⟨⟨11, .start ⟨.plain "resources", []⟩⟩ ::
        (oneBlockInside ++ [⟨50, .finish (.plain "resources")⟩]), none⟩)
    (hwanted : wanted (.plain "resources") = true) : EndsFirst block? wanted oneBlock := by
  refine ⟨by decide, .inl ⟨?_, fun hbroken => ?_⟩⟩
  · exact ⟨[], 11, ⟨.plain "resources", []⟩, _, oneBlockInside, 50, congrArg Document.events hdoc,
      .nil, hwanted, rfl, by decide⟩
  · obtain ⟨offset, fault, hfault⟩ := hbroken
    rw [hdoc] at hfault
    cases hfault

/-- What may follow `oneBlock`: a wrong end tag, an unknown reference and another block. -/
def malformed : Bytes :=
  Bytes.ofString "<b>&nope;</c><resources><string/></resources>"

/-- Neither reader sees that `oneBlock` is followed by something `malformed`. -/
theorem values_end_with_first_malformed :
    EndsFirst none (· == .plain "resources") oneBlock ∧
      EndsFirst none (·.localPart == "resources") oneBlock ∧
      EndsFirst (some Document.fileBlock) (·.localPart == "resources") oneBlock ∧
      Listening.trace (Payload.ofDocument "" (.decode .strict (oneBlock ++ malformed))) =
        ([.value ⟨ResourceName.defaultPackage, .string, "a"⟩
          (Bytes.ofString "<string name=\"a\">t</string>")], .ok ()) ∧
      Listing.ofFile "" Listing.mixedFile (.given (oneBlock ++ malformed)) =
        ([⟨⟨ResourceName.defaultPackage, .string, "a"⟩, none⟩], .ok ()) ∧
      Listing.ofFile "" Listing.mixedFile (.looked (.ok (.file (oneBlock ++ malformed)))) =
        ([⟨⟨ResourceName.defaultPackage, .string, "a"⟩, none⟩], .ok ()) := by
  have hplain : EndsFirst none (· == .plain "resources") oneBlock :=
    endsFirst_oneBlock (by decide +kernel) rfl
  have hgiven : EndsFirst none (·.localPart == "resources") oneBlock :=
    endsFirst_oneBlock (by decide +kernel) rfl
  have hlooked : EndsFirst (some Document.fileBlock) (·.localPart == "resources") oneBlock :=
    endsFirst_oneBlock (by decide +kernel) rfl
  have hvalues : Listing.mixedFile.isValues = true := by decide +kernel
  have hcut := (values_end_with_first oneBlock malformed []).1 none hplain ""
    (Listener.collecting (α := Collected))
  have hlist := (values_end_with_first oneBlock malformed []).2 Listing.mixedFile hvalues ""
    (Listener.collecting (α := Resource))
  exact ⟨hplain, hgiven, hlooked, (Listening.trace_congr hcut).trans (by decide +kernel),
    (Listening.trace_congr (hlist.1 hgiven)).trans (by decide +kernel),
    (Listening.trace_congr (hlist.2 hlooked)).trans (by decide +kernel)⟩

end ResourceShards
