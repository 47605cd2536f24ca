import ResourceShards.Proofs.Markup.Tree
import ResourceShards.Proofs.Payload.Outline

/-!
# ResourceShards.Proofs.Payload.Extraction

**What extraction makes of a tree.** The walk of a values document follows a row of events with one
encoder for all the ancestors, cuts elements out, writes them with child encoders and goes back into
styleables. Seen as a tree, the document hands out the attributes of its first `<resources>` tag and
then its declarations in document order. Each is written as a new encoder writes it that has written
the start tags of its ancestors and nothing else: neither siblings nor text leave a trace.

* `Markup.Forest.declarations`: the declarations of a block
* `Payload.Declared.payload?`: how one is written
* `Markup.DocumentTree.collected?`: what a document hands out
* `Payload.ofDocument_extracts`: the walk hands out exactly that
-/

namespace ResourceShards

open Markup (Block Document DocumentTree Encoder Event Forest Scope StartTag Token View Writing)

namespace Payload

/-! ### The definition on trees -/

/-- An element that declares a resource, in its place. -/
structure Declared where
  /-- The start tags around it, outermost first. -/
  ancestors : List StartTag
  /-- Its own start tag. -/
  tag : StartTag
  /-- What it holds. -/
  inside : Forest

/-- Whether an element declares a styleable. -/
def declaresStyleable (tag : StartTag) : Bool :=
  match declarationName tag with
  | .ok name => name.type == .styleable
  | .error _ => false

namespace Declared

/-- Its tokens from the start tag to the end tag. -/
def tokens (d : Declared) : List Token :=
  .start d.tag :: (d.inside.events.map Event.token ++ [.finish d.tag.name])

/-- What a new encoder writes for it after the start tags of its ancestors, if all of them can be
written. -/
def payload? (d : Declared) : Option Bytes :=
  let lead := ({} : Encoder).encodeAll (d.ancestors.map Token.start)
  let element := lead.encoder.encodeAll d.tokens
  match lead.outcome, element.outcome with
  | .ok (), .ok () => some (Bytes.ofString element.text)
  | _, _ => none

/-- What is handed out for it, if it has a name and can be written. -/
def collected? (d : Declared) : Option Collected := do
  let name ← (declarationName d.tag).toOption
  return .value name (← d.payload?)

end Declared

end Payload

open Payload (Declared declaresStyleable)

namespace Markup

/-- The declarations at the top of a forest and, after each styleable, those at the top of what it
holds, where the forest stands inside `ancestors`. -/
def Forest.declarations (ancestors : List StartTag) : Forest → List Declared
  | nil => []
  | content _ _ rest => rest.declarations ancestors
  | element _ tag inside _ rest =>
    if Tag.isSkipped tag.name then rest.declarations ancestors
    else
      ⟨ancestors, tag, inside⟩ ::
        ((if declaresStyleable tag then inside.declarations (ancestors ++ [tag]) else []) ++
          rest.declarations ancestors)

/-- What a `<resources>` element hands out: its attributes and then its declarations. -/
def Block.collected? (b : Block) : Option (List Collected) := do
  let inside ← b.content?
  let values ← (inside.declarations (b.ancestors ++ [b.tag])).mapM Declared.collected?
  return b.tag.attributes.map Collected.rootAttribute ++ values

/-- What a document hands out whose first `<resources>` element is given: nothing without one. -/
def collectedOf? : Option Block → Option (List Collected)
  | none => some []
  | some block => block.collected?

/-- What a document hands out. -/
def DocumentTree.collected? (t : DocumentTree) : Option (List Collected) :=
  collectedOf? (t.first? Tag.isResources [])

/-! ### Writing inside ancestors -/

namespace Writing

/-- `scopeOf` elements inside others is their scope over that of the others. -/
theorem scopeOf_append (base : Scope) (upper below : List Frame) :
    scopeOf base (upper ++ below) = scopeOf (scopeOf base below) upper := by
  induction upper with
  | nil => rfl
  | cons frame upper ih => rw [List.cons_append, scopeOf, scopeOf, ih]

/-- `spell` gives the same, whether open elements stand in the frames or only their scope is known.
-/
theorem spell_rebase {base : Scope} {below frames : List Frame} {t spelled : Token} {next : Writing}
    (h : (Writing.mk (scopeOf base below) frames).spell t = some (spelled, next)) :
    (Writing.mk base (frames ++ below)).spell t = some (spelled, ⟨base, next.frames ++ below⟩) := by
  have hscope : ∀ upper, (Writing.mk base (upper ++ below)).scope =
      (Writing.mk (scopeOf base below) upper).scope := fun upper => scopeOf_append base upper below
  rcases t.tag_or_names_eq_nil with ⟨tag, rfl⟩ | ⟨name, rfl⟩ | hnames
  · obtain ⟨tag', htag, heq⟩ := Option.map_eq_some_iff.1 h
    obtain ⟨rfl, rfl⟩ := Prod.mk.inj heq
    have hinner := hscope (⟨tag.name, tag.declared⟩ :: frames)
    show Option.map _ (Scope.spellTag?
      (Writing.mk base (⟨tag.name, tag.declared⟩ :: frames ++ below)).scope tag) = _
    rw [hinner]
    exact Option.map_eq_some_iff.2 ⟨tag', htag, rfl⟩
  · obtain ⟨label, frame, outer, rfl, hframes, hname, rfl, hlabel⟩ := spell_finish h
    obtain rfl : frames = frame :: outer := hframes
    rw [spell, hscope, hlabel]
    exact if_pos hname
  · rw [spell_of_names_eq_nil hnames] at h ⊢
    obtain ⟨rfl, rfl⟩ := Prod.mk.inj (Option.some.inj h)
    rfl

theorem spellAll_rebase {base : Scope} {below frames : List Frame} {tokens spelled : List Token}
    {last : Writing}
    (h : (Writing.mk (scopeOf base below) frames).spellAll tokens = some (spelled, last)) :
    (Writing.mk base (frames ++ below)).spellAll tokens =
      some (spelled, ⟨base, last.frames ++ below⟩) := by
  induction tokens generalizing frames spelled with
  | nil =>
      obtain ⟨rfl, rfl⟩ := Prod.mk.inj (Option.some.inj h)
      rfl
  | cons t tokens ih =>
      obtain ⟨first, next, more, hfirst, hmore, rfl⟩ := spellAll_cons h
      obtain ⟨base', frames'⟩ := next
      -- a token changes what is open, never the scope outside
      obtain rfl : base' = scopeOf base below := by
        have hafter := congrArg Writing.base (eq_after_of_spell hfirst)
        rw [show base' = _ from hafter]
        cases t <;> rfl
      rw [spellAll, spell_rebase hfirst]
      simp only
      rw [ih hmore]

/-- Writing stands behind the start tags of some ancestors, and all of them can be written. -/
def Leads (ancestors : List StartTag) (w : Writing) : Prop :=
  ∃ spelled, (Writing.mk [] []).spellAll (ancestors.map Token.start) = some (spelled, w)

theorem Leads.nil : Leads [] ⟨[], []⟩ := ⟨[], rfl⟩

theorem Leads.concat {ancestors : List StartTag} {w next : Writing} {tag : StartTag}
    {spelled : Token} (h : Leads ancestors w) (htag : w.spell (.start tag) = some (spelled, next)) :
    Leads (ancestors ++ [tag]) next := by
  obtain ⟨lead, hlead⟩ := h
  have hone : w.spellAll [.start tag] = some ([spelled], next) := by
    rw [spellAll, htag]
    rfl
  refine ⟨lead ++ [spelled], ?_⟩
  rw [List.map_append]
  exact spellAll_append_some hlead hone

end Writing

end Markup

namespace Payload

/-- A declaration that is `Written` has the `payload?` that a new encoder writes behind the start
tags of its ancestors. -/
theorem payload?_of_written {ancestors : List StartTag} {w : Writing} (hlead : w.Leads ancestors)
    {name : ResourceName} {tag : StartTag} {inside : Forest}
    (hwritten : Declaration.Written ⟨w.scope, name, tag, inside.events.map Event.token⟩) :
    Declared.payload? ⟨ancestors, tag, inside⟩ =
      some (Declaration.payload ⟨w.scope, name, tag, inside.events.map Event.token⟩) := by
  obtain ⟨lead, hlead⟩ := hlead
  obtain ⟨spelled, hspelled⟩ := hwritten
  have hfirst := Encoder.at_start.encodeAll (ancestors.map Token.start)
  rw [hlead] at hfirst
  obtain ⟨e, hencode, hat⟩ := hfirst
  have hsecond := hat.encodeAll (Declared.tokens ⟨ancestors, tag, inside⟩)
  have hall : w.spellAll (Declared.tokens ⟨ancestors, tag, inside⟩) = some (spelled, w) :=
    Writing.spellAll_rebase hspelled
  rw [hall] at hsecond
  obtain ⟨e', hencode', -⟩ := hsecond
  rw [Declared.payload?, hencode]
  simp only
  rw [hencode', Declaration.payload, Declaration.spelled?, hspelled]
  rfl

/-! ### The walk -/

/-- A walk of `declarations` that succeeds hands out `collected?` of each, and leaves the encoder of
the ancestors where it was. -/
theorem declarations_forest {f : Forest} {ancestors : List StartTag} {label : String}
    {shadow shadow' : Encoder} {w : Writing} {v : View} {p q : Progress (List Collected)}
    (hat : shadow.At w) (hlead : w.Leads ancestors)
    (h : declarations label Listener.collecting shadow v f.events p = .ok shadow' q) :
    shadow'.At w ∧ ∃ values, (f.declarations ancestors).mapM Declared.collected? = some values ∧
      q.listener = values.reverse ++ p.listener := by
  induction f generalizing ancestors shadow shadow' w v p q with
  | nil =>
      rw [Forest.events, declarations] at h
      obtain ⟨u, r, hexhaust, hrest⟩ := exists_of_bind_ok h
      cases hrest
      exact ⟨hat, [], rfl, Reading.exhaust_ok hexhaust⟩
  | content e plain rest ih =>
      rw [Forest.events, declarations] at h
      simp only [Event.start?_of_names_eq_nil plain] at h
      exact ih hat hlead h
  | element opening tag inside closing rest ihInside ih =>
      rw [Forest.events] at h
      by_cases hskip : Tag.isSkipped tag.name = true
      · rw [declarations] at h
        simp only [Event.start?, View.leave_element] at h
        rw [if_pos hskip] at h
        obtain ⟨u, r, hexhaust, hrest⟩ := exists_of_bind_ok h
        obtain ⟨hat', values, hvalues, hout⟩ := ih hat hlead hrest
        refine ⟨hat', values, ?_, ?_⟩
        · rw [Forest.declarations, if_pos hskip, hvalues]
        · rw [hout, Reading.exhaust_ok hexhaust]
      obtain ⟨d, r, hd, hname, hwritten, -, hlistener, hrest⟩ :=
        declarations_cons hat rfl hskip h
      rw [View.inside_element] at hd hrest
      rw [View.leave_element] at hrest
      have hvalue : Declared.collected? ⟨ancestors, tag, inside⟩ = some d.collected := by
        rw [hd] at hwritten
        rw [Declared.collected?, hname, payload?_of_written hlead hwritten, ← hd]
        rfl
      rw [Forest.declarations, if_neg hskip, declaresStyleable, hname]
      by_cases hstyleable : (d.name.type == .styleable) = true
      · rw [if_pos hstyleable] at hrest ⊢
        obtain ⟨inner, inner', r', hinner, ⟨spelled, hspell⟩, hwalk, hback⟩ := hrest
        obtain ⟨hinner', values, hvalues, hin⟩ := ihInside hinner (hlead.concat hspell) hwalk
        obtain ⟨outer, houter, htail⟩ := hback hinner'
        obtain ⟨hat', more, hmore, hout⟩ := ih houter hlead htail
        refine ⟨hat', d.collected :: (values ++ more), ?_, ?_⟩
        · simp [hvalue, hvalues, hmore]
        · rw [hout, hin, hlistener]
          simp
      · rw [if_neg hstyleable] at hrest ⊢
        obtain ⟨hat', values, hvalues, hout⟩ := ih hat hlead hrest
        refine ⟨hat', d.collected :: values, ?_, ?_⟩
        · simp [hvalue, hvalues]
        · rw [hout, hlistener]
          simp

/-- The walk of a forest that has a `<resources>` element ends with what that hands out, and goes on
behind any other forest as if it were not there. -/
theorem collectFrom_forest {f : Forest} {more : List Event} {ancestors : List StartTag}
    {label : String} {shadow : Encoder} {w : Writing} {v : View} {p q : Progress (List Collected)}
    {u : Unit} (hat : shadow.At w) (hlead : w.Leads ancestors)
    (h : collectFrom label Listener.collecting shadow v (f.events ++ more) p = .ok u q) :
    match f.first? Tag.isResources ancestors with
    | none => ∃ shadow' : Encoder, shadow'.At w ∧
        collectFrom label Listener.collecting shadow' v more p = .ok u q
    | some block => ∃ items, block.collected? = some items ∧
        q.listener = items.reverse ++ p.listener := by
  induction f generalizing more ancestors shadow w with
  | nil => exact ⟨shadow, hat, h⟩
  | content e plain rest ih =>
      obtain ⟨shadow', spelled, hspell, hat', h⟩ := collectFrom_cons hat h
      rw [Writing.spell_of_names_eq_nil plain, Option.some.injEq, Prod.mk.injEq] at hspell
      rw [← hspell.2] at hat'
      simp only [Event.start?_of_names_eq_nil plain] at h
      exact ih hat' hlead h
  | element opening tag inside closing rest ihInside ih =>
      rw [Forest.events, List.cons_append, List.append_assoc, List.cons_append] at h
      obtain ⟨inner, spelled, hspell, hinner, h⟩ := collectFrom_cons hat h
      simp only [Event.start?, View.enter_element] at h
      rw [Forest.first?]
      by_cases hresources : Tag.isResources tag.name = true
      · rw [if_pos hresources] at h ⊢
        obtain ⟨u₁, p₁, hroot, hblock⟩ := exists_of_bind_ok h
        obtain ⟨shadow', p₂, hwalk, hend⟩ := exists_of_bind_ok hblock
        cases hend
        obtain ⟨-, values, hvalues, hout⟩ := declarations_forest hinner (hlead.concat hspell) hwalk
        refine ⟨tag.attributes.map Collected.rootAttribute ++ values, ?_, ?_⟩
        · simp [Block.collected?, hvalues]
        · rw [hout, rootAttributes_ok hroot]
          simp
      · rw [if_neg hresources] at h ⊢
        have hin := ihInside hinner (hlead.concat hspell) h
        cases hfirst : inside.first? Tag.isResources (ancestors ++ [tag]) with
        | some block =>
            rw [hfirst] at hin
            exact hin
        | none =>
            -- the end tag takes the encoder back to where it was
            rw [hfirst] at hin
            obtain ⟨inner', hinner', h⟩ := hin
            obtain ⟨outer, spelled', -, houter, h⟩ := collectFrom_cons hinner' h
            exact ih houter hlead h

/-- A walk of `collectFrom` that succeeds hands out `collectedOf?` the first block of the tree. -/
theorem collectFrom_tree {t : DocumentTree} {ancestors : List StartTag} {label : String}
    {shadow : Encoder} {w : Writing} {v : View} {p q : Progress (List Collected)} {u : Unit}
    (hat : shadow.At w) (hlead : w.Leads ancestors)
    (h : collectFrom label Listener.collecting shadow v t.events p = .ok u q) :
    ∃ items, Markup.collectedOf? (t.first? Tag.isResources ancestors) = some items ∧
      q.listener = items.reverse ++ p.listener := by
  induction t generalizing ancestors shadow w with
  | whole forest =>
      rw [DocumentTree.events, ← List.append_nil forest.events] at h
      have hforest := collectFrom_forest hat hlead h
      rw [DocumentTree.first?]
      cases hfirst : forest.first? Tag.isResources ancestors with
      | some block =>
          rw [hfirst] at hforest
          exact hforest
      | none =>
          rw [hfirst] at hforest
          obtain ⟨shadow', -, hend⟩ := hforest
          exact ⟨[], rfl, Reading.exhaust_ok hend⟩
  | inside before offset tag inner ih =>
      have hforest := collectFrom_forest hat hlead h
      rw [DocumentTree.first?]
      cases hfirst : before.first? Tag.isResources ancestors with
      | some block =>
          rw [hfirst] at hforest
          exact hforest
      | none =>
          rw [hfirst] at hforest
          obtain ⟨shadow', hat', h⟩ := hforest
          obtain ⟨shadow'', spelled, hspell, hinner, h⟩ := collectFrom_cons hat' h
          simp only [Event.start?, View.enter_open] at h
          rw [Option.none_or]
          by_cases hresources : Tag.isResources tag.name = true
          · -- the element is never closed, and the walk says so
            rw [if_pos hresources] at h
            obtain ⟨u₁, p₁, -, hblock⟩ := exists_of_bind_ok h
            obtain ⟨shadow₂, p₂, -, hend⟩ := exists_of_bind_ok hblock
            cases hend
          · rw [if_neg hresources] at h ⊢
            exact ih hinner (hlead.concat hspell) h

/-- **What a document hands out.** A document that `ofDocument` accepts is that of a tree, and the
items are those that `DocumentTree.collected?` reads off the tree. -/
theorem ofDocument_extracts {label : String} {block? : Option Nat} {bytes : Bytes}
    {items : List Collected}
    (hok : Listening.trace
      (ofDocument label (Document.ofDecoder .strict (.start block? bytes))) = (items, .ok ())) :
    (∃ t : DocumentTree, t.events = (Document.ofDecoder .strict (.start block? bytes)).events) ∧
      ∀ t : DocumentTree, t.events = (Document.ofDecoder .strict (.start block? bytes)).events →
        t.collected? = some items := by
  constructor
  · obtain ⟨t, hevents, -⟩ := Document.exists_tree .strict block? bytes
    exact ⟨t, hevents⟩
  · intro t hevents
    obtain ⟨u, hrun⟩ := trace_ok hok
    obtain ⟨u', p, hwalk, hlast, -⟩ := Reading.document_ok hrun
    rw [collect, View.whole, ← hevents] at hwalk
    obtain ⟨items', hitems, hlistener⟩ := collectFrom_tree Encoder.at_start .nil hwalk
    rw [DocumentTree.collected?, hitems, ← List.reverse_reverse items, ← hlast, hlistener]
    simp

/-- A document with an attribute of the block, an element that is skipped, text, and a styleable
around another declaration. What stands around the block is never closed, and its end is never
looked for. -/
def styleableDocument : Bytes :=
  Bytes.ofString <|
    "<r xmlns:p=\"u\"><resources p:k=\"v\"><skip xmlns:q=\"w\"/>text" ++
      "<declare-styleable name=\"s\"><attr name=\"a\" p:b=\"1\"/></declare-styleable></resources>"

/-- What it hands out. -/
def styleableItems : List Collected :=
  [.rootAttribute ⟨⟨"u", "k"⟩, "v"⟩,
    .value ⟨ResourceName.defaultPackage, .styleable, "s"⟩ (Bytes.ofString
      "<declare-styleable name=\"s\"><attr name=\"a\" p:b=\"1\"></attr></declare-styleable>"),
    .value ⟨ResourceName.defaultPackage, .attr, "a"⟩
      (Bytes.ofString "<attr name=\"a\" p:b=\"1\"></attr>")]

theorem ofDocument_extracts_styleable :
    Listening.trace (ofDocument "" (Document.decode .strict styleableDocument)) =
        (styleableItems, .ok ()) ∧
      ∃ t : DocumentTree, t.events = (Document.decode .strict styleableDocument).events ∧
        t.collected? = some styleableItems := by
  have hok : Listening.trace (ofDocument "" (Document.decode .strict styleableDocument)) =
      (styleableItems, .ok ()) := by decide +kernel
  obtain ⟨⟨t, hevents⟩, hitems⟩ := ofDocument_extracts hok
  exact ⟨hok, t, hevents, hitems t hevents⟩

end Payload

end ResourceShards
