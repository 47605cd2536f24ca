import ResourceShards.Proofs.Markup.Strictness
import ResourceShards.Proofs.Markup.WrittenNames

/-!
# ResourceShards.Proofs.Markup.UnknownNamespace

**Documents that can not be written again.** A document is decoded leniently, and a new encoder is
given its events one after the other. Both sides keep the prefixes that are in scope: the decoder in
its bindings, the encoder in its tables. They are the same at every tag as long as declarations are
reported as they are written. Then the encoder stops at the first tag with a stray name, and there
for an unknown namespace; it writes everything else.

A URI is reported without its references resolved, although the attribute that declares it has them
resolved. There the two sides part, and the theorem does not speak of such documents.

* `Decoder.startTags`: the tags of a document as they are written
* `Decoder.Tracks`: a decoder and an encoder side by side, with a lemma for a step and one for a run
* `Document.refused_iff_stray`: the documents that are refused are those with a stray name
* `Document.refused_not_iff_undeclared`: this is not the same as an undeclared prefix
-/

namespace ResourceShards.Markup

open ResourceShards.Utf8

/-! ### The tags of a document -/

namespace Decoder

/-- The start tag that a decoder reads next, if it reads one. -/
def startTag? (d : Decoder) : Option WrittenTag :=
  match d.due, Lexeme.read d.block? (d.skipped + d.taken) d.rest with
  | none, .piece (.startTag raw _) _ _ =>
    let attributes :=
      (RawAttribute.readAll raw.length (raw.dropWhile fun b => !Bytes.isBlank b)).1
    match Namespace.declare d.scope attributes with
    | .ok scope => some ⟨scope, tagName raw, attributes⟩
    | .error _ => none
  | _, _ => none

/-- The start tags that a decoder reads as long as nothing is wrong. -/
def startTags (d : Decoder) : List WrittenTag :=
  match _h : d.step .lenient with
  | .event _ next => d.startTag?.toList ++ startTags next
  | _ => []
termination_by d.size
decreasing_by exact size_lt_of_step _h

theorem startTags_of_event {d next : Decoder} {e : Event} (h : d.step .lenient = .event e next) :
    d.startTags = d.startTag?.toList ++ next.startTags := by
  rw [startTags]
  split <;> simp_all

theorem startTags_of_finished {d : Decoder} (h : d.step .lenient = .finished) :
    d.startTags = [] := by
  rw [startTags]
  split <;> simp_all

/-- The events that `Decoder.run` has `seen` stay in front of those that it reads. -/
theorem run_seen (mode : Strictness) (d : Decoder) (seen : List Event) :
    d.run mode seen = ((d.run mode []).1 ++ seen, (d.run mode []).2) := by
  induction hsize : d.size using Nat.strongRecOn generalizing d seen with
  | ind size ih =>
      cases hstep : d.step mode with
      | finished => rw [run_of_finished hstep, run_of_finished hstep]; rfl
      | failed e => rw [run_of_failed hstep, run_of_failed hstep]; rfl
      | event e next =>
          have hnext := ih next.size (hsize ▸ size_lt_of_step hstep) next
          rw [run_of_event hstep, run_of_event hstep, hnext (e :: seen) rfl, hnext [e] rfl,
            List.append_assoc]
          rfl

end Decoder

namespace Document

theorem ofDecoder_of_finished {mode : Strictness} {d : Decoder} (h : d.step mode = .finished) :
    ofDecoder mode d = ⟨[], none⟩ := by
  unfold ofDecoder
  rw [Decoder.run_of_finished h]
  rfl

theorem ofDecoder_of_failed {mode : Strictness} {d : Decoder} {e : Error}
    (h : d.step mode = .failed e) : ofDecoder mode d = ⟨[], some e⟩ := by
  unfold ofDecoder
  rw [Decoder.run_of_failed h]
  rfl

theorem ofDecoder_of_event {mode : Strictness} {d next : Decoder} {e : Event}
    (h : d.step mode = .event e next) :
    ofDecoder mode d = ⟨e :: (ofDecoder mode next).events, (ofDecoder mode next).fault?⟩ := by
  unfold ofDecoder
  rw [Decoder.run_of_event h, Decoder.run_seen]
  simp

end Document

/-! ### Tags -/

/-- Lenient `readAttributes` reports each attribute by itself. -/
theorem Decoder.readAttributes_lenient (scope : List Binding) (attributes : List RawAttribute) :
    readAttributes .lenient scope attributes =
      .ok (attributes.map (RawAttribute.reported scope)) := by
  induction attributes with
  | nil => rfl
  | cons a rest ih =>
      obtain ⟨value, hvalue⟩ := Reference.readText_lenient_isOk a.value
      rw [readAttributes, hvalue, ih]
      show Except.ok _ = _
      rw [List.map_cons, RawAttribute.reported, hvalue]

/-- What `declareOne` does with a declaration that it allows: of the default namespace, of `xml`, or
of any other prefix. -/
theorem Namespace.declareOne_ok {outer bindings : List Binding} {a : RawAttribute} {label : Bytes}
    (hlabel : declared? a.key = some label) (hdeclare : declareOne outer a = .ok bindings) :
    (label = [] ∧ bindings = ⟨[], a.value⟩ :: outer) ∨
      (label = xmlLabel ∧ a.value = xmlUri ∧ bindings = outer) ∨
      (label ≠ xmlLabel ∧ label ≠ xmlnsLabel ∧ a.value ≠ xmlUri ∧ a.value ≠ xmlnsUri ∧
        bindings = ⟨label, a.value⟩ :: outer) := by
  simp only [declareOne, hlabel] at hdeclare
  by_cases hplain : (a.key == xmlnsLabel) = true
  · -- the key without a prefix declares the default namespace
    rw [if_pos hplain] at hdeclare
    rw [beq_iff_eq.1 hplain] at hlabel
    exact .inl ⟨(Option.some.inj hlabel).symm, (Except.ok.inj hdeclare).symm⟩
  rw [if_neg hplain] at hdeclare
  by_cases hxml : (label == xmlLabel) = true
  · rw [if_pos hxml] at hdeclare
    by_cases huri : (a.value == xmlUri) = true
    · rw [if_pos huri] at hdeclare
      exact .inr (.inl ⟨beq_iff_eq.1 hxml, beq_iff_eq.1 huri, (Except.ok.inj hdeclare).symm⟩)
    · rw [if_neg huri] at hdeclare
      cases hdeclare
  rw [if_neg hxml] at hdeclare
  by_cases hreserved : (label == xmlnsLabel || a.value == xmlUri || a.value == xmlnsUri) = true
  · rw [if_pos hreserved] at hdeclare
    cases hdeclare
  rw [if_neg hreserved] at hdeclare
  simp only [Bool.or_eq_true, beq_iff_eq, not_or] at hxml hreserved
  obtain ⟨⟨hxmlns, hxmlUri⟩, hxmlnsUri⟩ := hreserved
  exact .inr (.inr ⟨hxml, hxmlns, hxmlUri, hxmlnsUri, (Except.ok.inj hdeclare).symm⟩)

namespace Scope

/-- A declaration that is reported as it is written goes into the scope and into the bindings of the
decoder at once, and the scope stays `Allowed`. -/
theorem declareOne_reported {scope : Scope} (h : scope.Allowed) {a : RawAttribute}
    {bindings : List Binding} {declared? : Option (String × String)}
    (hdeclare : Namespace.declareOne scope.bindings a = .ok bindings)
    (hreported : declared?.map (fun d => (Bytes.ofString d.1, Bytes.ofString d.2)) =
      (Namespace.declared? a.key).map fun label => (label, a.value)) :
    bindings = Scope.bindings (declared?.toList ++ scope) ∧
      Allowed (declared?.toList ++ scope) := by
  cases hlabel : Namespace.declared? a.key with
  | none =>
      rw [hlabel] at hreported
      obtain rfl := Option.map_eq_none_iff.1 hreported
      simp only [Namespace.declareOne, hlabel] at hdeclare
      exact ⟨(Except.ok.inj hdeclare).symm, h⟩
  | some label =>
      rw [hlabel] at hreported
      obtain ⟨⟨name, uri⟩, rfl, hwritten⟩ := Option.map_eq_some_iff.1 hreported
      obtain ⟨rfl, hvalue⟩ := Prod.mk.inj hwritten
      rw [Option.toList_some, List.singleton_append, Scope.bindings]
      rcases Namespace.declareOne_ok hlabel hdeclare with
        ⟨hempty, rfl⟩ | ⟨hxml, huri, rfl⟩ | ⟨hxml, hxmlns, hxmlUri, hxmlnsUri, rfl⟩
      · obtain rfl := ofString_injective (t := "") hempty
        rw [if_neg (by decide), ← hvalue]
        exact ⟨rfl, List.forall_mem_cons.2 ⟨.inl rfl, h⟩⟩
      · obtain rfl := ofString_injective (t := "xml") hxml
        have hspace : uri = Name.xmlSpace := ofString_injective (hvalue.trans huri)
        rw [if_pos rfl]
        exact ⟨rfl, List.forall_mem_cons.2 ⟨.inr (.inl ⟨rfl, hspace⟩), h⟩⟩
      · have hname : name ≠ "xml" := fun heq => hxml (congrArg Bytes.ofString heq)
        rw [if_neg hname, hvalue]
        refine ⟨rfl, List.forall_mem_cons.2 ⟨.inr (.inr ⟨hname, ?_, ?_, ?_⟩), h⟩⟩
        · exact fun heq => hxmlns (congrArg Bytes.ofString heq)
        · exact fun heq => hxmlUri (hvalue.symm.trans (congrArg Bytes.ofString heq))
        · exact fun heq => hxmlnsUri (hvalue.symm.trans (congrArg Bytes.ofString heq))

/-- `declareOne_reported` for the declarations of a whole tag, whatever its attributes are reported
as. -/
theorem declare_reported {scope : Scope} (h : scope.Allowed) {attributes : List RawAttribute}
    {report : RawAttribute → Attribute} {bindings : List Binding}
    (hdeclare : Namespace.declare scope.bindings attributes = .ok bindings)
    (hreported : ∀ a ∈ attributes,
      (report a).declared?.map (fun d => (Bytes.ofString d.1, Bytes.ofString d.2)) =
        (Namespace.declared? a.key).map fun label => (label, a.value)) :
    bindings = Scope.bindings (ofAttributes (attributes.map report) ++ scope) ∧
      Allowed (ofAttributes (attributes.map report) ++ scope) := by
  unfold Namespace.declare at hdeclare
  induction attributes generalizing scope with
  | nil =>
      cases hdeclare
      exact ⟨rfl, h⟩
  | cons a attributes ih =>
      rw [List.map_cons, ofAttributes_cons, List.append_assoc]
      rw [List.foldlM_cons] at hdeclare
      cases hone : Namespace.declareOne scope.bindings a with
      | error fault =>
          rw [hone] at hdeclare
          cases hdeclare
      | ok inner =>
          rw [hone] at hdeclare
          obtain ⟨rfl, hallowed⟩ :=
            declareOne_reported h hone (hreported a List.mem_cons_self)
          exact ih hallowed hdeclare fun b hb => hreported b (List.mem_cons_of_mem a hb)

theorem spellAttributes?_eq_none_iff (scope : Scope) (attributes : List Attribute) :
    scope.spellAttributes? attributes = none ↔
      ∃ a ∈ attributes, scope.label? true a.name.space = none := by
  induction attributes with
  | nil => simp [spellAttributes?]
  | cons a attributes ih =>
      rw [spellAttributes?]
      cases hlabel : scope.label? true a.name.space with
      | none => simp [spell?, hlabel]
      | some label =>
          rw [List.exists_mem_cons_iff, ← ih]
          cases scope.spellAttributes? attributes <;> simp [spell?, hlabel]

/-- `spellTag?` fails exactly if `label?` does for the namespace of one of the tag's names. -/
theorem spellTag?_eq_none_iff (scope : Scope) (tag : StartTag) :
    scope.spellTag? tag = none ↔ scope.label? false tag.name.space = none ∨
      ∃ a ∈ tag.attributes, scope.label? true a.name.space = none := by
  rw [← spellAttributes?_eq_none_iff, spellTag?]
  cases hlabel : scope.label? false tag.name.space with
  | none => simp [spell?, hlabel]
  | some label => cases scope.spellAttributes? tag.attributes <;> simp [spell?, hlabel]

end Scope

/-- A start tag as it is reported. -/
def WrittenTag.reported (t : WrittenTag) : StartTag :=
  ⟨Namespace.elementName t.scope t.name, t.attributes.map (RawAttribute.reported t.scope)⟩

/-- The declarations of a `Plain` tag go into the scope and into the bindings at once, and
`spellTag?` fails exactly if one of its names is `Stray`. -/
theorem WrittenTag.Plain.spell {t : WrittenTag} (hplain : t.Plain) {scope : Scope}
    (h : scope.Allowed) (hdeclare : Namespace.declare scope.bindings t.attributes = .ok t.scope) :
    t.scope = (t.reported.declared ++ scope).bindings ∧ (t.reported.declared ++ scope).Allowed ∧
      ((t.reported.declared ++ scope).spellTag? t.reported = none ↔ ∃ n ∈ t.names, n.Stray) := by
  obtain ⟨inner, hinner⟩ : ∃ inner, inner = t.reported.declared ++ scope := ⟨_, rfl⟩
  have hdeclared := Scope.declare_reported h hdeclare hplain.declarations
  obtain ⟨hscope, hallowed⟩ : t.scope = inner.bindings ∧ inner.Allowed := by
    rw [hinner]
    exact hdeclared
  rw [← hinner]
  refine ⟨hscope, hallowed, ?_⟩
  have helement : (⟨t.scope, false, t.name⟩ : WrittenName).Stray ↔
      inner.label? false t.reported.name.space = none := by
    have hlabels := hplain.labels ⟨t.scope, false, t.name⟩ List.mem_cons_self
    rw [hscope] at hlabels
    rw [reported, hscope]
    exact WrittenName.stray_element_iff hallowed hlabels
  have hattribute : ∀ a ∈ t.attributes, (⟨t.scope, true, a.key⟩ : WrittenName).Stray ↔
      inner.label? true (a.reported t.scope).name.space = none := by
    intro a ha
    have hlabels := hplain.labels ⟨t.scope, true, a.key⟩
      (List.mem_cons_of_mem _ (List.mem_map_of_mem ha))
    rw [hscope] at hlabels
    rw [RawAttribute.reported, hscope]
    exact WrittenName.stray_attribute_iff hallowed hlabels
  rw [Scope.spellTag?_eq_none_iff, names, List.exists_mem_cons_iff, helement]
  refine or_congr Iff.rfl ⟨?_, ?_⟩
  · rintro ⟨reported, hmem, hnone⟩
    obtain ⟨a, ha, rfl⟩ := List.mem_map.1 hmem
    exact ⟨_, List.mem_map_of_mem ha, (hattribute a ha).2 hnone⟩
  · rintro ⟨n, hmem, hstray⟩
    obtain ⟨a, ha, rfl⟩ := List.mem_map.1 hmem
    exact ⟨_, List.mem_map_of_mem ha, (hattribute a ha).1 hstray⟩

/-- `openElement` opens an element for a `WrittenTag` and reports that tag. -/
theorem Decoder.openElement_ok {outer : List Binding} {raw : Bytes} {e : OpenElement}
    {tag : StartTag} (hopen : openElement .lenient outer raw = .ok (e, tag)) :
    ∃ t : WrittenTag, t.name = tagName raw ∧ t.attributes =
        (RawAttribute.readAll raw.length (raw.dropWhile fun b => !Bytes.isBlank b)).1 ∧
      Namespace.declare outer t.attributes = .ok t.scope ∧ e = ⟨t.name, t.scope⟩ ∧
      tag = t.reported := by
  unfold openElement at hopen
  cases hread : RawAttribute.readAll raw.length (raw.dropWhile fun b => !Bytes.isBlank b) with
  | mk attributes bad? =>
      rw [hread] at hopen
      simp only [bind, Except.bind] at hopen
      cases hdeclare : Namespace.declare outer attributes with
      | error fault =>
          rw [hdeclare] at hopen
          cases hopen
      | ok scope =>
          rw [hdeclare] at hopen
          simp only [readAttributes_lenient] at hopen
          cases bad? with
          | some fault => cases hopen
          | none =>
              obtain ⟨rfl, rfl⟩ := Prod.mk.inj (Except.ok.inj hopen)
              exact ⟨⟨scope, tagName raw, attributes⟩, rfl, rfl, hdeclare, rfl, rfl⟩

/-! ### Decoding and encoding side by side -/

/-- The open elements of a decoder are those that are being written: each has its name, which can be
written, and bindings that are the prefixes in scope. -/
inductive Open : List OpenElement → List Frame → Prop
  | nil : Open [] []
  | cons {e : OpenElement} {outer : List OpenElement} {frame : Frame} {frames : List Frame}
      (name : frame.name = e.name)
      (scope : e.scope = (Writing.scopeOf [] (frame :: frames)).bindings)
      (allowed : (Writing.scopeOf [] (frame :: frames)).Allowed)
      (spelled : (Writing.scopeOf [] (frame :: frames)).spell? false frame.name ≠ none)
      (rest : Open outer frames) : Open (e :: outer) (frame :: frames)

/-- A decoder stands where writing stands. -/
structure Decoder.Tracks (d : Decoder) (w : Writing) : Prop where
  /-- No prefixes are in scope outside the document. -/
  base : w.base = []
  /-- The same elements are open; one whose end is due is the innermost. -/
  opened : Open (d.due.toList ++ d.opened) w.frames

namespace Decoder

theorem tracks_start (block? : Option Nat) (bytes : Bytes) :
    (start block? bytes).Tracks ⟨[], []⟩ := by
  refine ⟨rfl, ?_⟩
  unfold start
  split
  · exact .nil
  · exact .nil

/-- Between two pieces the bindings of a decoder that `Tracks` some writing are the prefixes in
scope. -/
theorem Tracks.scope {d : Decoder} {w : Writing} (h : d.Tracks w) (hdue : d.due = none) :
    d.scope = w.scope.bindings ∧ w.scope.Allowed := by
  obtain ⟨base, frames⟩ := w
  obtain rfl : base = [] := h.base
  have hopened := h.opened
  rw [hdue, Option.toList_none, List.nil_append] at hopened
  unfold Decoder.scope
  generalize d.opened = opened at hopened ⊢
  cases hopened with
  | nil => exact ⟨rfl, fun entry hentry => absurd hentry List.not_mem_nil⟩
  | cons name scope allowed spelled rest => exact ⟨scope, allowed⟩

/-- An encoder writes the end of the innermost element, and takes its declarations back. -/
theorem encode_finish {e : Encoder} {w : Writing} (hat : e.At w) (hbase : w.base = [])
    {o : OpenElement} {outer : List OpenElement} (hopened : Open (o :: outer) w.frames) :
    ∃ text e' w', e.encode (.finish o.name) = ⟨text, e', .ok ()⟩ ∧ e'.At w' ∧ w'.base = [] ∧
      Open outer w'.frames := by
  obtain ⟨base, frames⟩ := w
  obtain rfl : base = [] := hbase
  cases hopened with
  | @cons _ _ frame frames name scope allowed spelled rest =>
      obtain ⟨label, hlabel⟩ := Option.ne_none_iff_exists'.1 spelled
      have hspell : (Writing.mk [] (frame :: frames)).spell (.finish o.name) =
          some (.finish label, ⟨[], frames⟩) := by
        have hscope : (Writing.mk [] (frame :: frames)).scope.spell? false frame.name =
            some label := hlabel
        rw [Writing.spell, ← name, hscope]
        exact if_pos rfl
      have hwritten := hat.encode (.finish o.name)
      rw [hspell] at hwritten
      obtain ⟨e', hencode, hat'⟩ := hwritten
      exact ⟨_, e', _, hencode, hat', rfl, rest⟩

/-- An encoder writes a token without names, and stands where it was. -/
theorem encode_content {e : Encoder} {w : Writing} (hat : e.At w) {t : Token}
    (hcontent : t.names = []) : ∃ text e', e.encode t = ⟨text, e', .ok ()⟩ ∧ e'.At w := by
  have hwritten := hat.encode t
  rw [Writing.spell_of_names_eq_nil hcontent] at hwritten
  obtain ⟨e', hencode, hat'⟩ := hwritten
  exact ⟨_, e', hencode, hat'⟩

/-- Some name that is read from here on is stray. -/
def UsesStray (d : Decoder) : Prop :=
  ∃ t ∈ d.startTags, ∃ n ∈ t.names, n.Stray

/-- `startTag?` tells the tag that `openElement` opens an element for. -/
theorem startTag?_of_open {d : Decoder} {raw : Bytes} {closesItself : Bool} {n : Nat} {rest : Bytes}
    {o : OpenElement} {tag : StartTag} (hdue : d.due = none)
    (hread : Lexeme.read d.block? (d.skipped + d.taken) d.rest =
      .piece (.startTag raw closesItself) n rest)
    (hopen : openElement .lenient d.scope raw = .ok (o, tag)) :
    ∃ t, d.startTag? = some t ∧ Namespace.declare d.scope t.attributes = .ok t.scope ∧
      o = ⟨t.name, t.scope⟩ ∧ tag = t.reported := by
  obtain ⟨t, hname, hattributes, hdeclare, ho, htag⟩ := openElement_ok hopen
  refine ⟨t, ?_, hdeclare, ho, htag⟩
  unfold startTag?
  simp only [hdue, hread]
  rw [← hattributes, hdeclare, ← hname]

/-- Where an end is due, `startTag?` tells of no tag. -/
theorem startTag?_of_due {d : Decoder} {o : OpenElement} (hdue : d.due = some o) :
    d.startTag? = none := by
  unfold startTag?
  simp only [hdue]

/-- In front of any other piece than a start tag, `startTag?` tells of no tag. -/
theorem startTag?_of_piece {d : Decoder} {lexeme : Lexeme} {n : Nat} {rest : Bytes}
    (hdue : d.due = none)
    (hread : Lexeme.read d.block? (d.skipped + d.taken) d.rest = .piece lexeme n rest)
    (hother : ∀ raw closesItself, lexeme ≠ .startTag raw closesItself) : d.startTag? = none := by
  unfold startTag?
  cases lexeme with
  | startTag raw closesItself => exact absurd rfl (hother raw closesItself)
  | _ => simp only [hdue, hread]

/-- A `Plain` tag without `Stray` names is written, and opens the same element for decoder and
encoder. With one it is refused for its namespace. -/
theorem Tracks.startTag {d : Decoder} {w : Writing} {e : Encoder} (h : d.Tracks w) (hat : e.At w)
    (hdue : d.due = none) {t : WrittenTag} (hplain : t.Plain)
    (hdeclare : Namespace.declare d.scope t.attributes = .ok t.scope) :
    (∃ text e', e.encode (.start t.reported) = ⟨text, e', .ok ()⟩ ∧ e'.At (w.enter t.reported) ∧
        Open (⟨t.name, t.scope⟩ :: d.opened) (w.enter t.reported).frames ∧
        ¬∃ n ∈ t.names, n.Stray) ∨
      ∃ text e' space, e.encode (.start t.reported) =
          ⟨text, e', .error (.unknownNamespace space)⟩ ∧ ∃ n ∈ t.names, n.Stray := by
  obtain ⟨hscope, hallowed⟩ := h.scope hdue
  obtain ⟨base, frames⟩ := w
  obtain rfl : base = [] := h.base
  rw [hscope] at hdeclare
  obtain ⟨hinner, hallowed', hspell⟩ := hplain.spell hallowed hdeclare
  have hopened := h.opened
  rw [hdue, Option.toList_none, List.nil_append] at hopened
  have hwritten := hat.encodeStart t.reported
  cases hspelled : ((Writing.mk [] frames).enter t.reported).scope.spellTag? t.reported with
  | none =>
      rw [hspelled] at hwritten
      obtain ⟨text, e', space, hencode⟩ := hwritten
      exact .inr ⟨text, e', space, hencode, hspell.1 hspelled⟩
  | some spelled =>
      rw [hspelled] at hwritten
      obtain ⟨e', hencode, hat'⟩ := hwritten
      refine .inl ⟨_, e', hencode, hat', .cons rfl hinner hallowed' ?_ hopened, fun hstray => ?_⟩
      · obtain ⟨name, hname, -⟩ := Option.bind_eq_some_iff.1 hspelled
        exact Option.ne_none_iff_exists'.2 ⟨name, hname⟩
      · exact Option.some_ne_none _ (hspelled.symm.trans (hspell.2 hstray))

/-- The event of a step is written, and decoder and encoder go on side by side; or the step reads a
tag with a stray name, and its event is refused for that. -/
def Proceeds (d next : Decoder) (e : Encoder) (event : Event) : Prop :=
  (∃ text e' w', e.encode event.token = ⟨text, e', .ok ()⟩ ∧ e'.At w' ∧ next.Tracks w' ∧
      ∀ t ∈ d.startTag?, ¬∃ n ∈ t.names, n.Stray) ∨
    ∃ text e' space, e.encode event.token = ⟨text, e', .error (.unknownNamespace space)⟩ ∧
      ∃ t ∈ d.startTag?, ∃ n ∈ t.names, n.Stray

/-- Decoder and encoder `Proceeds` past the end of the innermost element, be it due or read. -/
theorem Proceeds.finish {d next : Decoder} {w : Writing} {e : Encoder} {event : Event}
    (hat : e.At w) (hbase : w.base = []) {o : OpenElement} {outer : List OpenElement}
    (hopened : Open (o :: outer) w.frames) (htag : d.startTag? = none)
    (hnext : next.due.toList ++ next.opened = outer) (hevent : event.token = .finish o.name) :
    Proceeds d next e event := by
  obtain ⟨text, e', w', hencode, hat', hbase', houter⟩ := encode_finish hat hbase hopened
  rw [← hevent] at hencode
  refine .inl ⟨text, e', w', hencode, hat', ⟨hbase', ?_⟩, ?_⟩
  · rw [hnext]
    exact houter
  · intro t ht
    rw [htag] at ht
    cases ht

/-- Decoder and encoder `Proceeds` past a token without names, which leaves both as they are. -/
theorem Proceeds.content {d next : Decoder} {w : Writing} {e : Encoder} {event : Event}
    (h : d.Tracks w) (hat : e.At w) (htag : d.startTag? = none) (hdue : next.due = d.due)
    (hopened : next.opened = d.opened) (hnames : event.token.names = []) :
    Proceeds d next e event := by
  obtain ⟨text, e', hencode, hat'⟩ := encode_content hat hnames
  refine .inl ⟨text, e', w, hencode, hat', ⟨h.base, ?_⟩, ?_⟩
  · rw [hdue, hopened]
    exact h.opened
  · intro t ht
    rw [htag] at ht
    cases ht

/-- Decoder and encoder `Proceeds` past a `Plain` start tag, whether or not its element ends with
it. -/
theorem Proceeds.startTag {d next : Decoder} {w : Writing} {e : Encoder} {event : Event}
    (h : d.Tracks w) (hat : e.At w) (hdue : d.due = none) {t : WrittenTag}
    (htag : d.startTag? = some t) (hplain : t.Plain)
    (hdeclare : Namespace.declare d.scope t.attributes = .ok t.scope)
    (hnext : next.due.toList ++ next.opened = ⟨t.name, t.scope⟩ :: d.opened)
    (hevent : event.token = .start t.reported) : Proceeds d next e event := by
  rcases h.startTag hat hdue hplain hdeclare with
    ⟨text, e', hencode, hat', hopened, hclean⟩ | ⟨text, e', space, hencode, hstray⟩
  · rw [← hevent] at hencode
    refine .inl ⟨text, e', _, hencode, hat', ⟨h.base, ?_⟩, ?_⟩
    · rw [hnext]
      exact hopened
    · rw [htag]
      rintro _ ⟨⟩
      exact hclean
  · rw [← hevent] at hencode
    exact .inr ⟨text, e', space, hencode, t, htag, hstray⟩

/-- Every step of a decoder that `Tracks` an encoder `Proceeds`. -/
theorem Tracks.step {d next : Decoder} {w : Writing} {e : Encoder} {event : Event}
    (h : d.Tracks w) (hat : e.At w) (hstep : d.step .lenient = .event event next)
    (hplain : ∀ t ∈ d.startTag?, t.Plain) : Proceeds d next e event := by
  have hopened := h.opened
  unfold Decoder.step at hstep
  cases hdue : d.due with
  | some o =>
      rw [hdue] at hopened
      simp only [hdue] at hstep
      obtain ⟨rfl, rfl⟩ := Step.event.inj hstep
      exact .finish hat h.base hopened (startTag?_of_due hdue) rfl rfl
  | none =>
  rw [hdue, Option.toList_none, List.nil_append] at hopened
  simp only [hdue] at hstep
  cases hread : Lexeme.read d.block? (d.skipped + d.taken) d.rest with
  | nothing n =>
      simp only [hread, atEnd] at hstep
      split at hstep <;> cases hstep
  | bad n fault =>
      simp only [hread] at hstep
      cases hstep
  | piece lexeme n rest =>
      simp only [hread] at hstep
      cases lexeme with
      | startTag raw closesItself =>
          simp only [piece] at hstep
          cases hopen : openElement .lenient d.scope raw with
          | error fault =>
              rw [hopen] at hstep
              cases hstep
          | ok pair =>
              obtain ⟨o, tag⟩ := pair
              rw [hopen] at hstep
              obtain ⟨t, ht, hdeclare, rfl, rfl⟩ := startTag?_of_open hdue hread hopen
              cases closesItself with
              | true =>
                  obtain ⟨rfl, rfl⟩ := Step.event.inj hstep
                  exact .startTag h hat hdue ht (hplain t ht) hdeclare rfl rfl
              | false =>
                  obtain ⟨rfl, rfl⟩ := Step.event.inj hstep
                  refine .startTag h hat hdue ht (hplain t ht) hdeclare ?_ rfl
                  simp [hdue]
      | endTag raw =>
          simp only [piece] at hstep
          cases hclose : closeElement d.opened raw with
          | error fault =>
              rw [hclose] at hstep
              cases hstep
          | ok pair =>
              obtain ⟨o, outer⟩ := pair
              rw [hclose] at hstep
              obtain ⟨rfl, rfl⟩ := Step.event.inj hstep
              rw [eq_cons_of_closeElement hclose] at hopened
              have hnone := startTag?_of_piece hdue hread (by rintro _ _ ⟨⟩)
              refine .finish hat h.base hopened hnone ?_ rfl
              simp [hdue]
      | text raw =>
          obtain ⟨value, hvalue⟩ := Reference.readText_lenient_isOk raw
          simp only [piece, hvalue] at hstep
          obtain ⟨rfl, rfl⟩ := Step.event.inj hstep
          exact .content h hat (startTag?_of_piece hdue hread (by rintro _ _ ⟨⟩)) rfl rfl rfl
      | _ =>
          obtain ⟨rfl, rfl⟩ := Step.event.inj hstep
          exact .content h hat (startTag?_of_piece hdue hread (by rintro _ _ ⟨⟩)) rfl rfl rfl

/-- `encodeAll` writes a document in which nothing is wrong to its end, or up to the first tag with
a `Stray` name. -/
theorem Tracks.encodeAll {d : Decoder} {w : Writing} {e : Encoder} (h : d.Tracks w) (hat : e.At w)
    (hsound : (Document.ofDecoder .lenient d).fault? = none)
    (hplain : ∀ t ∈ d.startTags, t.Plain) :
    let outcome := (e.encodeAll ((Document.ofDecoder .lenient d).events.map Event.token)).outcome
    (outcome = .ok () ∧ ¬d.UsesStray) ∨
      ((∃ space, outcome = .error (.unknownNamespace space)) ∧ d.UsesStray) := by
  induction hsize : d.size using Nat.strongRecOn generalizing d w e with
  | ind size ih =>
  cases hstep : d.step .lenient with
  | failed err =>
      rw [Document.ofDecoder_of_failed hstep] at hsound
      cases hsound
  | finished =>
      rw [Document.ofDecoder_of_finished hstep]
      refine .inl ⟨rfl, ?_⟩
      rintro ⟨t, ht, -⟩
      rw [startTags_of_finished hstep] at ht
      exact absurd ht List.not_mem_nil
  | event event next =>
      have htags := startTags_of_event hstep
      have hfirst : ∀ t ∈ d.startTag?, t ∈ d.startTags := by
        intro t ht
        rw [htags]
        exact List.mem_append_left _ (Option.mem_toList.2 ht)
      have hrest : ∀ t ∈ next.startTags, t ∈ d.startTags := by
        intro t ht
        rw [htags]
        exact List.mem_append_right _ ht
      rw [Document.ofDecoder_of_event hstep] at hsound ⊢
      simp only [List.map_cons, Encoder.encodeAll]
      rcases h.step hat hstep fun t ht => hplain t (hfirst t ht) with
        ⟨text, e', w', hencode, hat', htracks, hclean⟩ | ⟨text, e', space, hencode, t, ht, hstray⟩
      · rw [hencode]
        have hnext := ih next.size (hsize ▸ size_lt_of_step hstep) htracks hat' hsound
          (fun t ht => hplain t (hrest t ht)) rfl
        have hsame : d.UsesStray ↔ next.UsesStray := by
          constructor
          · rintro ⟨t, ht, hstray⟩
            rw [htags] at ht
            rcases List.mem_append.1 ht with hthis | hlater
            · exact absurd hstray (hclean t (Option.mem_toList.1 hthis))
            · exact ⟨t, hlater, hstray⟩
          · rintro ⟨t, ht, hstray⟩
            exact ⟨t, hrest t ht, hstray⟩
        rw [hsame]
        exact hnext
      · rw [hencode]
        exact .inr ⟨⟨space, rfl⟩, t, hfirst t ht, hstray⟩

end Decoder

/-! ### Documents -/

/-- Encoding what a decoder reads leniently is refused for a namespace. -/
def Decoder.Refused (d : Decoder) : Prop :=
  ∃ space, (({} : Encoder).encodeAll
    ((Document.ofDecoder .lenient d).events.map Event.token)).outcome =
      .error (.unknownNamespace space)

/-- Some name that is read has a prefix that no declaration binds to a URI. -/
def Decoder.UsesUndeclared (d : Decoder) : Prop :=
  ∃ t ∈ d.startTags, ∃ n ∈ t.names, n.Undeclared

instance (d : Decoder) : Decidable d.UsesUndeclared :=
  inferInstanceAs (Decidable (∃ t ∈ d.startTags, ∃ n ∈ t.names, n.Undeclared))

/-- **What can not be written again.** A document in which nothing is wrong, with start tags that
are `Plain`, is `Refused` exactly if it `UsesStray` names. Then it is refused for a namespace, and
for nothing else; otherwise `encodeAll` writes all of its tokens. -/
theorem Document.refused_iff_stray {block? : Option Nat} {bytes : Bytes}
    (hsound : (Document.ofDecoder .lenient (.start block? bytes)).fault? = none)
    (hplain : ∀ t ∈ (Decoder.start block? bytes).startTags, t.Plain) :
    ((Decoder.start block? bytes).Refused ↔ (Decoder.start block? bytes).UsesStray) ∧
      (¬(Decoder.start block? bytes).Refused →
        (({} : Encoder).encodeAll ((Document.ofDecoder .lenient (.start block? bytes)).events.map
          Event.token)).outcome = .ok ()) := by
  rcases (Decoder.tracks_start block? bytes).encodeAll Encoder.at_start hsound hplain with
    ⟨hok, hclean⟩ | ⟨hrefused, hstray⟩
  · refine ⟨iff_of_false ?_ hclean, fun _ => hok⟩
    rintro ⟨space, hspace⟩
    rw [hok] at hspace
    cases hspace
  · exact ⟨iff_of_true hrefused hstray, fun hno => absurd hrefused hno⟩

/-- Nothing is wrong with a document, but whether it is refused is not whether it uses an undeclared
prefix. -/
def Document.Surprises (bytes : Bytes) : Prop :=
  (ofDecoder .lenient (.start none bytes)).fault? = none ∧
    ¬((Decoder.start none bytes).Refused ↔ (Decoder.start none bytes).UsesUndeclared)

namespace Document.Surprises

variable {bytes : Bytes}

/-- A document `Surprises` that uses an undeclared prefix and can be written again. -/
theorem of_written (hsound : (ofDecoder .lenient (.start none bytes)).fault? = none)
    (huses : (Decoder.start none bytes).UsesUndeclared)
    (hwritten : (({} : Encoder).encodeAll
      ((ofDecoder .lenient (.start none bytes)).events.map Event.token)).outcome = .ok ()) :
    Surprises bytes := by
  refine ⟨hsound, fun hiff => ?_⟩
  obtain ⟨space, hspace⟩ := hiff.2 huses
  rw [hwritten] at hspace
  cases hspace

/-- A document `Surprises` that uses declared prefixes only and is refused for a namespace. -/
theorem of_refused (hsound : (ofDecoder .lenient (.start none bytes)).fault? = none)
    (huses : ¬(Decoder.start none bytes).UsesUndeclared) (space : String)
    (hspace : (({} : Encoder).encodeAll
      ((ofDecoder .lenient (.start none bytes)).events.map Event.token)).outcome =
        .error (.unknownNamespace space)) : Surprises bytes :=
  ⟨hsound, fun hiff => huses (hiff.1 ⟨space, hspace⟩)⟩

end Document.Surprises

/-- An undeclared prefix is found again if its declaration was taken back, or if it is the URI of
another prefix; it is not what an element with the prefix `xmlns` is refused for. The other
documents are not reported as they are written: a URI with a reference, an attribute that is taken
for a declaration, and two prefixes that are no UTF-8 and look alike. -/
theorem Document.refused_not_iff_undeclared :
    Surprises (Bytes.ofString "<a xmlns:p=\"\"><p:b/></a>") ∧
      Surprises (Bytes.ofString "<a xmlns:q=\"p\"><p:b/></a>") ∧
      Surprises (Bytes.ofString "<xmlns:a/>") ∧
      Surprises (Bytes.ofString "<p:b xmlns:p=\"a&amp;b\"/>") ∧
      Surprises (Bytes.ofString "<a xmlns:p=\"xmlns\" xmlns:f=\"u\"><f:b p:f=\"v\"/></a>") ∧
      Surprises (Bytes.ofString "<a xmlns:" ++ [0xff] ++ Bytes.ofString "=\"u\" xmlns:" ++ [0xfe] ++
        Bytes.ofString "=\"v\"><" ++ [0xff] ++ Bytes.ofString ":b/></a>") := by
  refine ⟨.of_written ?_ ?_ ?_, .of_written ?_ ?_ ?_,
    .of_refused ?_ ?_ "http://www.w3.org/2000/xmlns/" ?_, .of_refused ?_ ?_ "a&amp;b" ?_,
    .of_refused ?_ ?_ "u" ?_, .of_refused ?_ ?_ "u" ?_⟩
  all_goals decide +kernel

/-- A prefix that is bound to a URI, one that is bound to nothing, and one that is not bound. -/
def strayDocument : Bytes :=
  Bytes.ofString "<a xmlns:p=\"u\" xmlns:o=\"\"><p:b o:x=\"1\"/><r:c/></a>"

theorem Document.refused_iff_stray_unbound :
    (Document.ofDecoder .lenient (.start none strayDocument)).fault? = none ∧
      (∀ t ∈ (Decoder.start none strayDocument).startTags, t.Plain) ∧
      (Decoder.start none strayDocument).UsesStray := by
  have hsound : (Document.ofDecoder .lenient (.start none strayDocument)).fault? = none := by
    decide +kernel
  have hplain : ∀ t ∈ (Decoder.start none strayDocument).startTags, t.Plain := by decide +kernel
  refine ⟨hsound, hplain, (Document.refused_iff_stray hsound hplain).1.1 ⟨"r", ?_⟩⟩
  decide +kernel

end ResourceShards.Markup
