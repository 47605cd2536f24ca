import ResourceShards.Payload.Collect
import ResourceShards.Proofs.Markup.Fidelity
import ResourceShards.Proofs.Runs

/-!
# ResourceShards.Proofs.Payload.Outline

**What the walk of a values document hands out.** The outline of a document is its `<resources>` tag
and its declarations, those inside a styleable after the styleable itself, each with the prefixes
that its ancestors declare. A walk that succeeds hands out the attributes of the tag and then, for
each declaration, its tokens written with those prefixes.

* `Declaration`, `Outline`: the declarations of a document, from its events alone
* `Payload.declarations_ok`: the walk of a block hands out its declarations
* `Payload.ofDocument_ok`: so does that of a whole document
-/

namespace ResourceShards

open Markup (Attribute Document Encoder Event Scope StartTag Token View Writing)

/-! ### Outlines -/

/-- A declaration of a values document. -/
structure Declaration where
  /-- The prefixes that its ancestors declare. -/
  scope : Scope
  /-- The resource. -/
  name : ResourceName
  /-- Its start tag. -/
  tag : StartTag
  /-- The tokens between its tags. -/
  inside : List Token
  deriving DecidableEq, Repr

namespace Declaration

/-- All tokens of the element. -/
def tokens (d : Declaration) : List Token :=
  .start d.tag :: (d.inside ++ [.finish d.tag.name])

/-- The element as it is spelled with the prefixes of its ancestors, if all of it can be spelled. -/
def spelled? (d : Declaration) : Option (List Token) :=
  ((Writing.mk d.scope []).spellAll d.tokens).map Prod.fst

/-- The element as it is written. -/
def payload (d : Declaration) : Bytes :=
  Bytes.ofString (Token.printAll (d.spelled?.getD []))

/-- What is handed out for it. -/
def collected (d : Declaration) : Collected :=
  .value d.name d.payload

/-- All of the element can be written, and it closes itself. -/
def Written (d : Declaration) : Prop :=
  ∃ spelled, (Writing.mk d.scope []).spellAll d.tokens = some (spelled, ⟨d.scope, []⟩)

end Declaration

/-- The declarations among events, where the prefixes of `scope` are declared. -/
def declarationsIn (scope : Scope) (events : List Event) : List Declaration :=
  match events with
  | [] => []
  | e :: rest =>
    match e.start? with
    | none => declarationsIn scope rest
    | some start =>
      if Tag.isSkipped start.name then declarationsIn scope (View.leave start.name rest)
      else
        match Payload.declarationName start with
        | .error _ => []
        | .ok name =>
          ⟨scope, name, start, (View.split start.name rest).inside.map Event.token⟩ ::
            ((if name.type == .styleable then
                declarationsIn (start.declared ++ scope) (View.split start.name rest).inside
              else []) ++
              declarationsIn scope (View.leave start.name rest))
termination_by events.length
decreasing_by
  · simp
  · exact Nat.lt_succ_of_le (View.length_leave_le start.name rest)
  · exact Nat.lt_succ_of_le (View.length_inside_le (.whole []) start.name rest)
  · exact Nat.lt_succ_of_le (View.length_leave_le start.name rest)

/-- The `<resources>` tag of a values document and its declarations. -/
structure Outline where
  /-- The tag. -/
  root : StartTag
  /-- The declarations. -/
  declarations : List Declaration
  deriving DecidableEq, Repr

namespace Outline

/-- What is handed out for a document. -/
def items (o : Outline) : List Collected :=
  o.root.attributes.map Collected.rootAttribute ++ o.declarations.map Declaration.collected

/-- The outline of events that are written from `w` on, if a `<resources>` tag is among them. -/
def ofEvents (w : Writing) : List Event → Option Outline
  | [] => none
  | e :: rest =>
    match e.start? with
    | some start =>
      if Tag.isResources start.name then
        some ⟨start, declarationsIn (w.after e.token).scope (View.split start.name rest).inside⟩
      else ofEvents (w.after e.token) rest
    | none => ofEvents (w.after e.token) rest

end Outline

/-! ### Elements that close themselves -/

namespace Markup

/-- `spellAll` leaves the scope outside alone. -/
theorem Writing.base_of_spellAll {w last : Writing} {tokens spelled : List Token}
    (h : w.spellAll tokens = some (spelled, last)) : last.base = w.base := by
  induction tokens generalizing w spelled with
  | nil =>
      obtain ⟨-, rfl⟩ := Prod.mk.inj (Option.some.inj h)
      rfl
  | cons t tokens ih =>
      obtain ⟨first, next, more, hfirst, hrest, rfl⟩ := spellAll_cons h
      rw [ih hrest, eq_after_of_spell hfirst]
      cases t <;> rfl

/-- `spellAll` spells tokens together as it does one list after the other. -/
theorem Writing.spellAll_append_some {w middle last : Writing} {a b first second : List Token}
    (ha : w.spellAll a = some (first, middle)) (hb : middle.spellAll b = some (second, last)) :
    w.spellAll (a ++ b) = some (first ++ second, last) := by
  rw [spellAll_append, ha]
  simp only
  rw [hb]

/-- How many elements of some name are open after a token, if `depth` were before it and the token
does not close the element around them. -/
def View.depthAfter? (name : Name) (depth : Nat) : Token → Option Nat
  | .start tag => some (if tag.name = name then depth + 1 else depth)
  | .finish found =>
    if found = name then (if depth = 0 then none else some (depth - 1)) else some depth
  | _ => some depth

/-- `splitFrom` passes an event that leaves the element open, and stops at one that closes it. -/
theorem View.splitFrom_cons (name : Name) (depth : Nat) (seen : List Event) (e : Event)
    (rest : List Event) :
    View.splitFrom name depth seen (e :: rest) =
      match View.depthAfter? name depth e.token with
      | some depth' => View.splitFrom name depth' (e :: seen) rest
      | none => ⟨seen.reverse, some (e, rest)⟩ := by
  conv => lhs; unfold View.splitFrom
  cases e.token with
  | finish found =>
      by_cases heq : found = name
      · cases depth <;> simp [View.depthAfter?, heq]
      · simp [View.depthAfter?, heq]
  | _ => rfl

/-- By `depthAfter?` an element is closed by an end tag of its name only. -/
theorem View.eq_finish_of_depthAfter? {name : Name} {depth : Nat} {t : Token}
    (h : View.depthAfter? name depth t = none) : t = .finish name := by
  cases t with
  | finish found =>
      by_cases heq : found = name
      · rw [heq]
      · simp [View.depthAfter?, heq] at h
  | _ => exact absurd h (Option.some_ne_none _)

/-- An element is open, and `depth` elements of some name are open inside it. -/
def Writing.Inside (name : Name) (depth : Nat) (frame : Frame) (below : List Frame) (w : Writing) :
    Prop :=
  ∃ upper, w.frames = upper ++ frame :: below ∧
    upper.countP (fun f => decide (f.name = name)) = depth

/-- Writing stays `Inside` an element with every token that does not close it. -/
theorem Writing.Inside.spell {name : Name} {depth depth' : Nat} {frame : Frame} {below : List Frame}
    {w next : Writing} {t spelled : Token} (h : w.Inside name depth frame below)
    (hname : frame.name = name) (hdepth : View.depthAfter? name depth t = some depth')
    (hspell : w.spell t = some (spelled, next)) : next.Inside name depth' frame below := by
  obtain ⟨upper, hupper, hcount⟩ := h
  cases t with
  | start tag =>
      obtain rfl : _ = depth' := Option.some.inj hdepth
      refine ⟨⟨tag.name, tag.declared⟩ :: upper, ?_, ?_⟩
      · rw [eq_after_of_spell hspell, Writing.after, Writing.enter, hupper]
        rfl
      · rw [List.countP_cons, hcount]
        by_cases heq : tag.name = name <;> simp [heq]
  | finish found =>
      obtain ⟨label, top, lower, -, htop, htopname, rfl, -⟩ := spell_finish hspell
      unfold View.depthAfter? at hdepth
      simp only at hdepth
      cases upper with
      | nil =>
          -- the end tag would be that of the element
          rw [hupper, List.nil_append, List.cons.injEq] at htop
          have hfound : found = name := htopname.symm.trans (htop.1 ▸ hname)
          have hzero : depth = 0 := hcount.symm.trans List.countP_nil
          rw [if_pos hfound, if_pos hzero] at hdepth
          exact absurd hdepth.symm (Option.some_ne_none _)
      | cons u upper =>
          rw [hupper, List.cons_append, List.cons.injEq] at htop
          obtain ⟨rfl, rfl⟩ := htop
          refine ⟨upper, rfl, ?_⟩
          rw [List.countP_cons] at hcount
          by_cases heq : found = name
          · rw [if_pos heq] at hdepth
            rw [if_pos (by simp [htopname, heq])] at hcount
            rw [if_neg (by omega), Option.some.injEq] at hdepth
            omega
          · rw [if_neg heq] at hdepth
            rw [if_neg (by simp [htopname, heq]), Nat.add_zero] at hcount
            exact hcount.trans (Option.some.inj hdepth)
  | _ =>
      obtain ⟨-, rfl⟩ := Prod.mk.inj (Option.some.inj hspell)
      exact ⟨upper, hupper, hcount.trans (Option.some.inj hdepth)⟩

/-- What `splitFrom` cuts out leaves the element open, with no element of its name inside it, and
then its end tag comes. -/
theorem View.inside_of_splitFrom {name : Name} {depth : Nat} {seen events rest : List Event}
    {closing : Event} (h : (View.splitFrom name depth seen events).closing = some (closing, rest)) :
    ∃ inside, (View.splitFrom name depth seen events).inside = seen.reverse ++ inside ∧
      closing.token = .finish name ∧
      ∀ (w last : Writing) (spelled : List Token) (frame : Frame) (below : List Frame),
        frame.name = name → w.Inside name depth frame below →
        w.spellAll (inside.map Event.token) = some (spelled, last) →
        last.Inside name 0 frame below := by
  induction events generalizing depth seen with
  | nil => exact absurd h.symm (Option.some_ne_none _)
  | cons e events ih =>
      rw [View.splitFrom_cons] at h ⊢
      cases hdepth : View.depthAfter? name depth e.token with
      | none =>
          rw [hdepth] at h
          obtain ⟨rfl, rfl⟩ := Prod.mk.inj (Option.some.inj h)
          have htoken := View.eq_finish_of_depthAfter? hdepth
          have hzero : depth = 0 := by
            cases depth with
            | zero => rfl
            | succ outer =>
                simp [htoken, View.depthAfter?] at hdepth
          refine ⟨[], (List.append_nil _).symm, htoken, ?_⟩
          intro w last spelled frame below hname hinside hspell
          obtain ⟨-, rfl⟩ := Prod.mk.inj (Option.some.inj hspell)
          rw [hzero] at hinside
          exact hinside
      | some depth' =>
          rw [hdepth] at h
          obtain ⟨inside, hin, hclosing, hframes⟩ := ih h
          refine ⟨e :: inside, by simp only; rw [hin]; simp, hclosing, ?_⟩
          intro w last spelled frame below hname hinside hspell
          rw [List.map_cons] at hspell
          obtain ⟨first, next, more, hfirst, hrest, rfl⟩ := Writing.spellAll_cons hspell
          exact hframes next last more frame below hname (hinside.spell hname hdepth hfirst) hrest

/-- An element that `split` cuts out and `spellAll` can spell closes itself. -/
theorem Writing.frames_of_spellAll {w last : Writing} {tag : StartTag} {following rest : List Event}
    {closing : Event} {spelled : List Token}
    (hcut : (View.split tag.name following).closing = some (closing, rest))
    (h : w.spellAll (.start tag :: ((View.split tag.name following).inside.map Event.token ++
      [.finish tag.name])) = some (spelled, last)) : last = w := by
  obtain ⟨first, next, more, hfirst, hrest, rfl⟩ := spellAll_cons h
  have hnext := eq_after_of_spell hfirst
  rw [spellAll_append] at hrest
  obtain ⟨inside, hin, -, hframes⟩ := View.inside_of_splitFrom hcut
  have hinside : (View.split tag.name following).inside = inside := hin
  rw [hinside] at hrest
  cases hall : next.spellAll (inside.map Event.token) with
  | none => rw [hall] at hrest; exact absurd hrest.symm (Option.some_ne_none _)
  | some done =>
      obtain ⟨done, middle⟩ := done
      have hmiddle := hframes next middle done ⟨tag.name, tag.declared⟩ w.frames rfl
        ⟨[], by rw [hnext]; rfl, rfl⟩ hall
      obtain ⟨upper, hupper, hcount⟩ := hmiddle
      rw [hall] at hrest
      simp only at hrest
      cases hend : middle.spellAll [.finish tag.name] with
      | none => rw [hend] at hrest; exact absurd hrest.symm (Option.some_ne_none _)
      | some final =>
          obtain ⟨final, last'⟩ := final
          rw [hend] at hrest
          obtain ⟨-, rfl⟩ := Prod.mk.inj (Option.some.inj hrest)
          obtain ⟨first', next', more', hfinish, hnil, -⟩ := spellAll_cons hend
          obtain ⟨-, rfl⟩ := Prod.mk.inj (Option.some.inj hnil)
          obtain ⟨label, top, lower, -, htop, htopname, hlast, -⟩ := spell_finish hfinish
          have hbase : middle.base = w.base := by
            rw [base_of_spellAll hall, hnext]
            rfl
          cases upper with
          | nil =>
              rw [hupper, List.nil_append, List.cons.injEq] at htop
              rw [hlast, hbase, ← htop.2]
          | cons u upper =>
              -- the end tag would close an inner element of the same name
              rw [hupper, List.cons_append, List.cons.injEq] at htop
              rw [List.countP_cons, if_pos (by simp [htop.1, htopname])] at hcount
              exact absurd hcount (Nat.succ_ne_zero _)

end Markup

/-! ### The walk -/

namespace Payload

variable {σ : Type}

/-- Tokens that `encodeAll` has written can be spelled by `spellAll`, and their text is what is
spelled. -/
theorem spellAll_of_encodeAll {e : Encoder} {w : Writing} (h : e.At w) {tokens : List Token}
    (hok : (e.encodeAll tokens).outcome = .ok ()) :
    ∃ spelled last, w.spellAll tokens = some (spelled, last) ∧
      (e.encodeAll tokens).text = Token.printAll spelled ∧
      (e.encodeAll tokens).encoder.At last := by
  have hwritten := h.encodeAll tokens
  cases hspell : w.spellAll tokens with
  | none =>
      rw [hspell] at hwritten
      obtain ⟨text, e', err, hencode⟩ := hwritten
      rw [hencode] at hok
      cases hok
  | some done =>
      obtain ⟨spelled, last⟩ := done
      rw [hspell] at hwritten
      obtain ⟨e', hencode, hat⟩ := hwritten
      rw [hencode]
      exact ⟨spelled, last, rfl, rfl, hat⟩

/-- A token that `encode` has written can be spelled by `spell`, and its text is what is spelled. -/
theorem spell_of_encode {e : Encoder} {w : Writing} (h : e.At w) {t : Token}
    (hok : (e.encode t).outcome = .ok ()) :
    ∃ spelled next, w.spell t = some (spelled, next) ∧ (e.encode t).text = spelled.print ∧
      (e.encode t).encoder.At next := by
  have hwritten := h.encode t
  cases hspell : w.spell t with
  | none =>
      rw [hspell] at hwritten
      obtain ⟨text, e', err, hencode⟩ := hwritten
      rw [hencode] at hok
      cases hok
  | some step =>
      obtain ⟨spelled, next⟩ := step
      rw [hspell] at hwritten
      obtain ⟨e', hencode, hat⟩ := hwritten
      rw [hencode]
      exact ⟨spelled, next, rfl, rfl, hat⟩

/-- A `payload` that succeeds: a child encoder writes the element, and then the end tag. -/
theorem payload_ok {label : String} {shadow : Encoder} {e : Event} {start : StartTag}
    {element : View} {p q : Progress σ} {bytes : Bytes}
    (h : payload label shadow e start element p = .ok bytes q) :
    let body := shadow.child.encodeAll (e.token :: element.events.map Event.token)
    let closing := body.encoder.encode (.finish start.name)
    body.outcome = .ok () ∧ element.closed = true ∧ closing.outcome = .ok () ∧
      bytes = Bytes.ofString (body.text ++ closing.text) ∧ q.listener = p.listener := by
  intro body closing
  unfold payload at h
  cases hbody : (shadow.child.encodeAll (e.token :: element.events.map Event.token)).outcome with
  | error err =>
      simp only [hbody] at h
      exact absurd h not_ok_of_throw
  | ok u =>
      simp only [hbody] at h
      obtain ⟨u', r, hexhaust, hrest⟩ := exists_of_bind_ok h
      have hlistener := Reading.exhaust_ok hexhaust
      cases hclosed : element.closed with
      | false =>
          simp only [hclosed, Bool.not_false, if_true] at hrest
          exact absurd hrest not_ok_of_throw
      | true =>
          simp only [hclosed, Bool.not_true, Bool.false_eq_true, if_false] at hrest
          cases hclosing : closing.outcome with
          | error err =>
              simp only [closing, body] at hclosing
              simp only [hclosing] at hrest
              exact absurd hrest not_ok_of_throw
          | ok u'' =>
              simp only [closing, body] at hclosing
              simp only [hclosing] at hrest
              cases hrest
              exact ⟨rfl, rfl, rfl, rfl, hlistener⟩

/-- An element of which `payload` succeeds is a `Declaration` as it is written. -/
theorem payload_written {label : String} {shadow : Encoder} {scope : Scope} {e : Event}
    {start : StartTag} {v : View} {rest : List Event} {p q : Progress σ} {bytes : Bytes}
    (hshadow : shadow.Reflects scope) (htoken : e.token = .start start)
    (h : payload label shadow e start (v.enter start.name rest) p = .ok bytes q)
    (name : ResourceName) :
    let d : Declaration := ⟨scope, name, start, (View.split start.name rest).inside.map Event.token⟩
    d.Written ∧ bytes = d.payload ∧ q.listener = p.listener ∧
      d.tokens <+: (e :: rest).map Event.token := by
  intro d
  obtain ⟨hbody, hclosed, hclosing, rfl, hlistener⟩ := payload_ok h
  obtain ⟨closing, after, hcut⟩ : ∃ closing after,
      (View.split start.name rest).closing = some (closing, after) := by
    obtain ⟨⟨closing, after⟩, hsome⟩ := Option.isSome_iff_exists.1 hclosed
    exact ⟨closing, after, hsome⟩
  -- the child encoder writes the element, and then its end tag is written
  obtain ⟨spelled, middle, hspell, htext, hat⟩ := spellAll_of_encodeAll hshadow.child hbody
  obtain ⟨last, final, hlast, hlasttext, -⟩ := spell_of_encode hat hclosing
  have hone : middle.spellAll [.finish start.name] = some ([last], final) := by
    rw [Writing.spellAll, hlast]
    rfl
  have hall : (Writing.mk scope []).spellAll d.tokens = some (spelled ++ [last], final) := by
    have happend := Writing.spellAll_append_some hspell hone
    rw [htoken] at happend
    exact happend
  have hfinal : final = ⟨scope, []⟩ := Markup.Writing.frames_of_spellAll hcut hall
  have hspelled : d.spelled? = some (spelled ++ [last]) := by
    rw [Declaration.spelled?, hall]
    rfl
  refine ⟨⟨spelled ++ [last], hfinal ▸ hall⟩, ?_, hlistener, ?_⟩
  · rw [Declaration.payload, hspelled, Option.getD_some, Token.printAll_append, htext, hlasttext]
    simp [Token.printAll]
  · have hsplit := View.split_events start.name rest
    have hfinish : closing.token = .finish start.name := by
      obtain ⟨-, -, htok, -⟩ := View.inside_of_splitFrom hcut
      exact htok
    rw [hcut] at hsplit
    simp only at hsplit
    refine ⟨after.map Event.token, ?_⟩
    show Token.start start :: ((View.split start.name rest).inside.map Event.token ++
      [.finish start.name]) ++ after.map Event.token = _
    rw [← hfinish, ← htoken]
    conv => rhs; rw [← hsplit]
    simp

/-- An encoder that does `follow` a token of an ancestor stands where writing stands after it. -/
theorem follow_ok {shadow inner : Encoder} {w : Writing} {t : Token} {p q : Progress σ}
    (hat : shadow.At w) (h : follow shadow t p = .ok inner q) :
    inner.At (w.after t) ∧ q = p ∧ ∃ spelled, w.spell t = some (spelled, w.after t) := by
  unfold follow at h
  cases hout : (shadow.encode t).outcome with
  | error err =>
      simp only [hout] at h
      cases h
  | ok u =>
      simp only [hout] at h
      cases h
      obtain ⟨spelled, next, hspell, -, hnext⟩ := spell_of_encode hat hout
      have hafter := Writing.eq_after_of_spell hspell
      rw [hafter] at hspell hnext
      exact ⟨hnext, rfl, spelled, hspell⟩

/-- A declaration that is named has its `declarationName`, and the name costs nothing. -/
theorem declarationName_ok {label place : String} {start : StartTag} {name : ResourceName}
    {p q : Progress σ}
    (h : Reading.ofExcept label (Error.labelling place (declarationName start)) p = .ok name q) :
    declarationName start = .ok name ∧ q = p := by
  obtain ⟨hname, rfl⟩ := Reading.ofExcept_ok h
  exact ⟨Error.eq_ok_of_labelling hname, rfl⟩

/-- A walk over events has handed out some declarations, which could be written and are pieces of
the events. -/
structure HandsOut (declared : List Declaration) (events : List Event)
    (before after : List Collected) : Prop where
  /-- The listener has got them in their order. -/
  listener : after = (declared.map Declaration.collected).reverse ++ before
  /-- They could be written. -/
  written : ∀ d ∈ declared, d.Written
  /-- They are pieces of the events. -/
  pieces : ∀ d ∈ declared, d.tokens <:+: events.map Event.token

theorem HandsOut.nil {events : List Event} {before after : List Collected} (h : after = before) :
    HandsOut [] events before after :=
  ⟨h, fun _ hd => absurd hd List.not_mem_nil, fun _ hd => absurd hd List.not_mem_nil⟩

theorem HandsOut.one {d : Declaration} {events : List Event} (before : List Collected)
    (hwritten : d.Written) (hpiece : d.tokens <:+: events.map Event.token) :
    HandsOut [d] events before (d.collected :: before) where
  listener := rfl
  written := by
    intro d' hd'
    rw [List.mem_singleton.1 hd']
    exact hwritten
  pieces := by
    intro d' hd'
    rw [List.mem_singleton.1 hd']
    exact hpiece

theorem HandsOut.append {a b : List Declaration} {events : List Event}
    {before middle after : List Collected} (ha : HandsOut a events before middle)
    (hb : HandsOut b events middle after) : HandsOut (a ++ b) events before after := by
  refine ⟨?_, fun d hd => ?_, fun d hd => ?_⟩
  · rw [hb.listener, ha.listener]
    simp
  · exact (List.mem_append.1 hd).elim (ha.written d) (hb.written d)
  · exact (List.mem_append.1 hd).elim (ha.pieces d) (hb.pieces d)

/-- What `HandsOut` says of events it says of all events around them. -/
theorem HandsOut.within {declared : List Declaration} {events more : List Event}
    {before after : List Collected} (h : HandsOut declared events before after)
    (hmore : events <:+: more) : HandsOut declared more before after :=
  ⟨h.listener, h.written, fun d hd => (h.pieces d hd).trans (hmore.map Event.token)⟩

/-- `View.leave` comes to an end of the events. -/
theorem leave_suffix (name : Markup.Name) (following : List Event) :
    View.leave name following <:+ following := by
  have hsplit := View.split_events name following
  unfold View.leave View.Split.rest
  cases hcut : (View.split name following).closing with
  | none => exact List.nil_suffix
  | some cut =>
      obtain ⟨closing, after⟩ := cut
      rw [hcut] at hsplit
      simp only at hsplit ⊢
      refine ⟨(View.split name following).inside ++ [closing], ?_⟩
      rw [List.append_assoc]
      exact hsplit

theorem prefix_inside (name : Markup.Name) (following : List Event) :
    (View.split name following).inside <+: following :=
  ⟨_, View.split_events name following⟩

theorem token_of_start? {e : Event} {start : StartTag} (h : e.start? = some start) :
    e.token = .start start := by
  unfold Event.start? at h
  split at h
  · rename_i tag htoken
    rw [htoken, Option.some.inj h]
  · exact absurd h.symm (Option.some_ne_none _)

theorem declarationsIn_of_not_start {scope : Scope} {e : Event} {rest : List Event}
    (hstart : e.start? = none) : declarationsIn scope (e :: rest) = declarationsIn scope rest := by
  conv => lhs; rw [declarationsIn]
  simp only [hstart]

theorem declarationsIn_of_skipped {scope : Scope} {e : Event} {start : StartTag}
    {rest : List Event} (hstart : e.start? = some start)
    (hskip : Tag.isSkipped start.name = true) :
    declarationsIn scope (e :: rest) = declarationsIn scope (View.leave start.name rest) := by
  conv => lhs; rw [declarationsIn]
  simp only [hstart]
  rw [if_pos hskip]

/-- `declarationsIn` events that begin with an element: its own declaration, those inside it if it
is a styleable, and those after it. -/
theorem declarationsIn_cons {scope : Scope} {e : Event} {start : StartTag} {name : ResourceName}
    {rest : List Event} (hstart : e.start? = some start) (hskip : ¬Tag.isSkipped start.name = true)
    (hname : declarationName start = .ok name) :
    declarationsIn scope (e :: rest) =
      [⟨scope, name, start, (View.split start.name rest).inside.map Event.token⟩] ++
        ((if name.type == .styleable then
            declarationsIn (start.declared ++ scope) (View.split start.name rest).inside
          else []) ++ declarationsIn scope (View.leave start.name rest)) := by
  conv => lhs; rw [declarationsIn]
  simp only [hstart, hname]
  rw [if_neg hskip]
  rfl

/-- `declarations` does three things with an element that is not skipped: it hands out a
declaration, goes into a styleable with the encoder behind its start tag, and goes on behind the
element. -/
theorem declarations_cons {label : String} {shadow shadow' : Encoder} {w : Writing} {v : View}
    {e : Event} {start : StartTag} {rest : List Event} {p q : Progress (List Collected)}
    (hat : shadow.At w) (hstart : e.start? = some start)
    (hskip : ¬Tag.isSkipped start.name = true)
    (h : declarations label Listener.collecting shadow v (e :: rest) p = .ok shadow' q) :
    ∃ (d : Declaration) (r : Progress (List Collected)),
      d = ⟨w.scope, d.name, start, (View.split start.name rest).inside.map Event.token⟩ ∧
      declarationName start = .ok d.name ∧ d.Written ∧
      d.tokens <+: (e :: rest).map Event.token ∧ r.listener = d.collected :: p.listener ∧
      if d.name.type == .styleable then
        ∃ inner inner' r', inner.At (w.enter start) ∧
          (∃ spelled, w.spell (.start start) = some (spelled, w.enter start)) ∧
          declarations label Listener.collecting inner (.kept (View.split start.name rest).inside)
            (View.split start.name rest).inside r = .ok inner' r' ∧
          (inner'.At (w.enter start) → ∃ outer : Encoder, outer.At w ∧
            declarations label Listener.collecting outer v (View.leave start.name rest) r' =
              .ok shadow' q)
      else
        declarations label Listener.collecting shadow v (View.leave start.name rest) r =
          .ok shadow' q := by
  have htoken := token_of_start? hstart
  rw [declarations] at h
  simp only [hstart] at h
  rw [if_neg hskip] at h
  obtain ⟨name, p₁, hname, hnamed⟩ := exists_of_bind_ok h
  obtain ⟨hfound, rfl⟩ := declarationName_ok hname
  obtain ⟨bytes, p₂, hpayload, hpaid⟩ := exists_of_bind_ok hnamed
  obtain ⟨hwritten, rfl, hlistener, hbefore⟩ := payload_written hat.reflects htoken hpayload name
  obtain ⟨u, p₃, htell, htold⟩ := exists_of_bind_ok hpaid
  refine ⟨_, p₃, rfl, hfound, hwritten, hbefore, ?_, ?_⟩
  · rw [Reading.tell_collecting htell, hlistener]
    rfl
  by_cases hstyleable : (name.type == .styleable) = true
  · -- the encoder goes in with the start tag and comes out with the end tag
    rw [if_pos hstyleable] at htold ⊢
    obtain ⟨inner, p₄, hfollow, hfollowed⟩ := exists_of_bind_ok htold
    obtain ⟨hinner, rfl, hspell⟩ := follow_ok hat hfollow
    rw [htoken] at hinner hspell
    obtain ⟨inner', p₅, hwalk, hwalked⟩ := exists_of_bind_ok hfollowed
    refine ⟨inner, inner', p₅, hinner, hspell, hwalk, fun hinner' => ?_⟩
    obtain ⟨outer, p₆, hback, htail⟩ := exists_of_bind_ok hwalked
    obtain ⟨houter, rfl, -⟩ := follow_ok hinner' hback
    exact ⟨outer, houter, htail⟩
  · rw [if_neg hstyleable] at htold ⊢
    exact htold

/-- `declarations` hands out what `declarationsIn` finds, and leaves the encoder of the ancestors
where it was. -/
theorem declarations_ok {label : String} {shadow shadow' : Encoder} {w : Writing} {v : View}
    {events : List Event} {p q : Progress (List Collected)} (hat : shadow.At w)
    (h : declarations label Listener.collecting shadow v events p = .ok shadow' q) :
    shadow'.At w ∧ HandsOut (declarationsIn w.scope events) events p.listener q.listener := by
  -- the walk goes on inside the element and behind it, so the induction is on the length
  induction hn : events.length using Nat.strongRecOn generalizing events shadow shadow' w v p q with
  | ind n ih =>
  cases events with
  | nil =>
      rw [declarations] at h
      obtain ⟨u, r, hexhaust, hrest⟩ := exists_of_bind_ok h
      cases hrest
      rw [declarationsIn]
      exact ⟨hat, .nil (Reading.exhaust_ok hexhaust)⟩
  | cons e rest =>
      have hlength : rest.length < n := by
        rw [← hn, List.length_cons]
        exact Nat.lt_succ_self _
      have hrestIn : rest <:+: e :: rest := (List.suffix_cons e rest).isInfix
      cases hstart : e.start? with
      | none =>
          rw [declarations] at h
          simp only [hstart] at h
          obtain ⟨hat', hout⟩ := ih rest.length hlength hat h rfl
          rw [declarationsIn_of_not_start hstart]
          exact ⟨hat', hout.within hrestIn⟩
      | some start =>
          have hleave : (View.leave start.name rest).length < n :=
            Nat.lt_of_le_of_lt (View.length_leave_le start.name rest) hlength
          have hleaveIn : View.leave start.name rest <:+: e :: rest :=
            (leave_suffix start.name rest).isInfix.trans hrestIn
          by_cases hskip : Tag.isSkipped start.name = true
          · rw [declarations] at h
            simp only [hstart] at h
            rw [if_pos hskip] at h
            obtain ⟨u, r, hexhaust, hrest⟩ := exists_of_bind_ok h
            obtain ⟨hat', hout⟩ := ih _ hleave hat hrest rfl
            rw [Reading.exhaust_ok hexhaust] at hout
            rw [declarationsIn_of_skipped hstart hskip]
            exact ⟨hat', hout.within hleaveIn⟩
          obtain ⟨d, r, hd, hfound, hwritten, hbefore, hlistener, hrest⟩ :=
            declarations_cons hat hstart hskip h
          have hone : HandsOut [d] (e :: rest) p.listener r.listener := by
            rw [hlistener]
            exact .one _ hwritten hbefore.isInfix
          rw [declarationsIn_cons hstart hskip hfound, ← hd]
          by_cases hstyleable : (d.name.type == .styleable) = true
          · rw [if_pos hstyleable] at hrest ⊢
            obtain ⟨inner, inner', r', hinner, -, hwalk, hback⟩ := hrest
            have hinside : (View.split start.name rest).inside.length < n :=
              Nat.lt_of_le_of_lt (View.length_inside_le v start.name rest) hlength
            obtain ⟨hinner', hin⟩ := ih _ hinside hinner hwalk rfl
            obtain ⟨outer, houter, htail⟩ := hback hinner'
            obtain ⟨hat', hout⟩ := ih _ hleave houter htail rfl
            have hinsideIn : (View.split start.name rest).inside <:+: e :: rest :=
              (prefix_inside start.name rest).isInfix.trans hrestIn
            exact ⟨hat', hone.append ((hin.within hinsideIn).append (hout.within hleaveIn))⟩
          · rw [if_neg hstyleable] at hrest ⊢
            obtain ⟨hat', hout⟩ := ih _ hleave hat hrest rfl
            exact ⟨hat', hone.append (hout.within hleaveIn)⟩

/-- `rootAttributes` are handed out one after the other. -/
theorem rootAttributes_ok {attributes : List Attribute} {p q : Progress (List Collected)} {u : Unit}
    (h : rootAttributes Listener.collecting attributes p = .ok u q) :
    q.listener = (attributes.map Collected.rootAttribute).reverse ++ p.listener := by
  induction attributes generalizing p with
  | nil =>
      cases h
      rfl
  | cons a attributes ih =>
      rw [rootAttributes] at h
      obtain ⟨u', r, htell, hrest⟩ := exists_of_bind_ok h
      rw [ih hrest, Reading.tell_collecting htell]
      simp

/-- What a walk of a document has handed out, as its outline has it. -/
def HandsOutAll (outline? : Option Outline) (events : List Event) (before after : List Collected) :
    Prop :=
  match outline? with
  | none => after = before
  | some o =>
    Token.start o.root ∈ events.map Event.token ∧
      HandsOut o.declarations events
        ((o.root.attributes.map Collected.rootAttribute).reverse ++ before) after

/-- The step of the walk up to the `<resources>` element that succeeds: the event could be written,
and the encoder stands behind it. -/
theorem collectFrom_cons {label : String} {shadow : Encoder} {w : Writing} {v : View} {e : Event}
    {rest : List Event} {p q : Progress (List Collected)} {u : Unit} (hat : shadow.At w)
    (h : collectFrom label Listener.collecting shadow v (e :: rest) p = .ok u q) :
    ∃ shadow' spelled, w.spell e.token = some (spelled, w.after e.token) ∧
      shadow'.At (w.after e.token) ∧
      (match e.start? with
        | none => collectFrom label Listener.collecting shadow' v rest
        | some start =>
          if Tag.isResources start.name then do
            rootAttributes Listener.collecting start.attributes
            let block := v.enter start.name rest
            let _ ← declarations label Listener.collecting shadow' block block.events
            if !block.closed then throw ((unclosed start e.offset).withLabel label)
          else collectFrom label Listener.collecting shadow' v rest) p = .ok u q := by
  rw [collectFrom] at h
  cases hok : (shadow.encode e.token).outcome with
  | error err =>
      simp only [hok] at h
      exact absurd h not_ok_of_throw
  | ok u' =>
      simp only [hok] at h
      obtain ⟨spelled, next, hspell, -, hnext⟩ := spell_of_encode hat hok
      have hafter := Writing.eq_after_of_spell hspell
      rw [hafter] at hspell hnext
      exact ⟨_, spelled, hspell, hnext, h⟩

/-- The walk of a document hands out the attributes of its `<resources>` tag, then its
declarations. -/
theorem collectFrom_ok {label : String} {shadow : Encoder} {w : Writing} {v : View}
    {events : List Event} {p q : Progress (List Collected)} {u : Unit} (hat : shadow.At w)
    (h : collectFrom label Listener.collecting shadow v events p = .ok u q) :
    HandsOutAll (Outline.ofEvents w events) events p.listener q.listener := by
  induction events generalizing shadow w p with
  | nil => exact Reading.exhaust_ok h
  | cons e rest ih =>
      have hskip : ∀ {outline? : Option Outline} {before after : List Collected},
          HandsOutAll outline? rest before after →
            HandsOutAll outline? (e :: rest) before after := by
        intro outline? before after hout
        cases outline? with
        | none => exact hout
        | some o =>
            exact ⟨List.mem_cons_of_mem _ hout.1, hout.2.within (List.suffix_cons e rest).isInfix⟩
      obtain ⟨shadow', spelled, -, hnext, h⟩ := collectFrom_cons hat h
      unfold Outline.ofEvents
      cases hstart : e.start? with
      | none =>
          simp only [hstart] at h ⊢
          exact hskip (ih hnext h)
      | some start =>
          simp only [hstart] at h ⊢
          by_cases hresources : Tag.isResources start.name = true
          · rw [if_pos hresources] at h ⊢
            obtain ⟨u₁, p₁, hroot, hblock⟩ := exists_of_bind_ok h
            obtain ⟨shadow'', p₂, hwalk, hend⟩ := exists_of_bind_ok hblock
            obtain ⟨-, hout⟩ := declarations_ok hnext hwalk
            -- whether the tag is closed decides about success, not about the listener
            have hlast : q.listener = p₂.listener := by
              cases hclosed : (v.enter start.name rest).closed with
              | false =>
                  rw [hclosed] at hend
                  cases hend
              | true =>
                  rw [hclosed] at hend
                  cases hend
                  rfl
            have hinside : (View.split start.name rest).inside <:+: e :: rest :=
              (prefix_inside start.name rest).isInfix.trans (List.suffix_cons e rest).isInfix
            refine ⟨?_, ?_⟩
            · rw [List.map_cons, token_of_start? hstart]
              exact List.mem_cons_self
            · rw [hlast, ← rootAttributes_ok hroot]
              exact hout.within hinside
          · rw [if_neg hresources] at h ⊢
            exact hskip (ih hnext h)

/-- The outline of a document. -/
def outline? (doc : Document) : Option Outline :=
  Outline.ofEvents ⟨[], []⟩ doc.events

/-- A document that `ofDocument` accepts hands out what its `outline?` says. -/
theorem ofDocument_ok {label : String} {doc : Document} {items : List Collected}
    (h : Listening.trace (ofDocument label doc) = (items, .ok ())) :
    HandsOutAll (outline? doc) doc.events [] items.reverse := by
  obtain ⟨u, hrun⟩ := trace_ok h
  obtain ⟨u', p, hwalk, hlast, -⟩ := Reading.document_ok hrun
  rw [← hlast]
  exact collectFrom_ok Encoder.at_start hwalk

end Payload

end ResourceShards
