import ResourceShards.Proofs.Markup.Scope

/-!
# ResourceShards.Proofs.Markup.Spelling

**Writing in two steps.** An encoder first chooses a prefix for every name and then puts the token
on paper. The first step gives a spelled token: a token again, whose names have prefixes in the
place of namespaces. It depends on the prefixes in scope and on the elements that are open, and it
is all that can fail. The second step depends on the spelled token alone.

* `Writing.spell`: the first step, for one token; `Writing.spellAll` for many
* `Token.print`: the second step
* `Encoder.At.encodeAll`: an encoder does one after the other
-/

namespace ResourceShards.Markup

/-! ### Spelled tokens on paper -/

/-- An attribute with a spelled name on paper. -/
def Attribute.print (a : Attribute) : String :=
  " " ++ a.name.written ++ "=\"" ++ escapeValue a.value ++ "\""

/-- Attributes with spelled names on paper. -/
def Attribute.printAll : List Attribute → String
  | [] => ""
  | a :: rest => a.print ++ printAll rest

/-- A token with spelled names on paper. -/
def Token.print : Token → String
  | .start tag => "<" ++ tag.name.written ++ Attribute.printAll tag.attributes ++ ">"
  | .finish name => "</" ++ name.written ++ ">"
  | .text content => escapeText content
  | .cdata content => "<![CDATA[" ++ content ++ "]]>"
  | .comment content => "<!--" ++ content ++ "-->"
  | .instruction content => "<?" ++ content ++ "?>"
  | .doctype content => "<!DOCTYPE " ++ Text.trimStart content ++ ">"

/-- Tokens with spelled names on paper. -/
def Token.printAll : List Token → String
  | [] => ""
  | t :: rest => t.print ++ printAll rest

theorem Token.printAll_append (a b : List Token) :
    printAll (a ++ b) = printAll a ++ printAll b := by
  induction a with
  | nil => simp [printAll]
  | cons t a ih => simp [printAll, ih, String.append_assoc]

/-! ### Spelling -/

/-- Attributes with spelled names. -/
def Scope.spellAttributes? (scope : Scope) : List Attribute → Option (List Attribute)
  | [] => some []
  | a :: rest => do
    let name ← scope.spell? true a.name
    return ⟨name, a.value⟩ :: (← spellAttributes? scope rest)

/-- The prefixes that a start tag declares, latest first. -/
def StartTag.declared (tag : StartTag) : Scope :=
  Scope.ofAttributes tag.attributes

/-- A start tag with spelled names, in the scope inside it. -/
def Scope.spellTag? (scope : Scope) (tag : StartTag) : Option StartTag := do
  let name ← scope.spell? false tag.name
  return ⟨name, ← scope.spellAttributes? tag.attributes⟩

/-- An element that is being written: its name, and the prefixes that its start tag declares. -/
structure Frame where
  /-- The name. -/
  name : Name
  /-- The declarations. -/
  declared : Scope
  deriving DecidableEq, Repr

/-- Where writing stands: the scope outside of all that was opened, and what is open, innermost
first. -/
structure Writing where
  /-- The scope outside. -/
  base : Scope
  /-- The open elements. -/
  frames : List Frame := []
  deriving DecidableEq, Repr

namespace Writing

/-- The scope of a list of open elements inside another scope. -/
def scopeOf (base : Scope) : List Frame → Scope
  | [] => base
  | frame :: outer => frame.declared ++ scopeOf base outer

/-- The prefixes in scope. -/
def scope (w : Writing) : Scope :=
  scopeOf w.base w.frames

/-- What end tags take back. -/
def marksOf (base : Scope) : List Frame → List Mark
  | [] => []
  | frame :: outer =>
    frame.declared.marks (scopeOf base outer) ++ .element frame.name :: marksOf base outer

/-- What a start tag opens. -/
def enter (w : Writing) (tag : StartTag) : Writing :=
  { w with frames := ⟨tag.name, tag.declared⟩ :: w.frames }

/-- Spells a token. An end tag must close the innermost element. -/
def spell (w : Writing) : Token → Option (Token × Writing)
  | .start tag =>
    ((w.enter tag).scope.spellTag? tag).map fun spelled => (.start spelled, w.enter tag)
  | .finish name =>
    match w.scope.spell? false name, w.frames with
    | some spelled, frame :: outer =>
      if frame.name = name then some (.finish spelled, { w with frames := outer }) else none
    | _, _ => none
  | t => some (t, w)

/-- Spells tokens, if all can be spelled. -/
def spellAll (w : Writing) : List Token → Option (List Token × Writing)
  | [] => some ([], w)
  | t :: rest =>
    match w.spell t with
    | some (spelled, next) =>
      match next.spellAll rest with
      | some (more, last) => some (spelled :: more, last)
      | none => none
    | none => none

/-- `spellAll` spells the first token by `spell`, and then the others. -/
theorem spellAll_cons {w last : Writing} {t : Token} {rest spelled : List Token}
    (h : w.spellAll (t :: rest) = some (spelled, last)) :
    ∃ first next more, w.spell t = some (first, next) ∧ next.spellAll rest = some (more, last) ∧
      spelled = first :: more := by
  simp only [spellAll] at h
  cases hfirst : w.spell t with
  | none => rw [hfirst] at h; exact absurd h.symm (Option.some_ne_none _)
  | some step =>
      obtain ⟨first, next⟩ := step
      rw [hfirst] at h
      simp only at h
      cases hrest : next.spellAll rest with
      | none => rw [hrest] at h; exact absurd h.symm (Option.some_ne_none _)
      | some done =>
          obtain ⟨more, last'⟩ := done
          rw [hrest] at h
          obtain ⟨rfl, rfl⟩ := Prod.mk.inj (Option.some.inj h)
          exact ⟨first, next, more, rfl, hrest, rfl⟩

/-- `spellAll` spells one list after the other. -/
theorem spellAll_append (w : Writing) (a b : List Token) :
    w.spellAll (a ++ b) =
      match w.spellAll a with
      | some (first, middle) =>
        match middle.spellAll b with
        | some (second, last) => some (first ++ second, last)
        | none => none
      | none => none := by
  induction a generalizing w with
  | nil =>
      simp only [List.nil_append, spellAll]
      cases w.spellAll b <;> rfl
  | cons t a ih =>
      simp only [List.cons_append, spellAll]
      cases w.spell t with
      | none => rfl
      | some step =>
          obtain ⟨spelled, next⟩ := step
          simp only [ih]
          cases next.spellAll a with
          | none => rfl
          | some done =>
              obtain ⟨first, middle⟩ := done
              simp only
              cases middle.spellAll b <;> rfl

end Writing

/-! ### Encoders spell and print -/

namespace Encoder

/-- An encoder without a layout stands where writing stands. -/
structure At (e : Encoder) (w : Writing) : Prop where
  /-- It knows what to take back. -/
  marks : e.marks = Writing.marksOf w.base w.frames
  /-- It knows the prefixes. -/
  reflects : e.Reflects w.scope
  /-- It writes everything on one line. -/
  layout : e.layout = none

/-- A new encoder is `At` the beginning of all writing. -/
theorem at_start : ({} : Encoder).At ⟨[], []⟩ :=
  ⟨rfl, reflects_nil, rfl⟩

/-- `child` starts with the prefixes of its parent. -/
theorem Reflects.child {e : Encoder} {scope : Scope} (h : e.Reflects scope) :
    e.child.At ⟨scope, []⟩ :=
  ⟨rfl, h.of_eq rfl rfl, rfl⟩

/-- `bindDeclared` declares the prefixes of attributes one after the other. -/
theorem Reflects.foldl_bindDeclared {e : Encoder} {scope : Scope} (h : e.Reflects scope)
    (attributes : List Attribute) :
    (attributes.foldl bindDeclared e).Reflects (Scope.ofAttributes attributes ++ scope) ∧
      (attributes.foldl bindDeclared e).marks =
        (Scope.ofAttributes attributes).marks scope ++ e.marks ∧
      (attributes.foldl bindDeclared e).layout = e.layout := by
  induction attributes generalizing e scope with
  | nil => exact ⟨h, rfl, rfl⟩
  | cons a attributes ih =>
      rw [List.foldl_cons, Scope.ofAttributes_cons]
      cases hlabel : a.name.declaredLabel? with
      | none =>
          have hnone : a.declared? = none := by rw [Attribute.declared?, hlabel]; rfl
          have hbind : e.bindDeclared a = e := by rw [bindDeclared, hlabel]
          rw [hbind, hnone, Option.toList_none, List.append_nil]
          exact ih h
      | some label =>
          have hsome : a.declared? = some (label, a.value) := by
            rw [Attribute.declared?, hlabel]; rfl
          have hbind : e.bindDeclared a = e.bind label a.value := by rw [bindDeclared, hlabel]
          rw [hbind, hsome, Option.toList_some, Scope.marks_append]
          obtain ⟨hreflects, hmarks, hlayout⟩ := ih (h.bind label a.value)
          refine ⟨by rwa [List.append_assoc], ?_, hlayout⟩
          rw [hmarks, List.append_assoc]
          show _ ++ Mark.binding label (e.uris.get? label) :: e.marks = _
          rw [h.uris]
          rfl

/-- `attributesText` writes attributes as `spellAttributes?` spells them. -/
theorem Reflects.attributesText {e : Encoder} {scope : Scope} (h : e.Reflects scope)
    (attributes : List Attribute) :
    match scope.spellAttributes? attributes with
    | some spelled => e.attributesText attributes = (Attribute.printAll spelled, .ok ())
    | none => ∃ text space,
        e.attributesText attributes = (text, .error (.unknownNamespace space)) := by
  induction attributes with
  | nil => rfl
  | cons a attributes ih =>
      simp only [Scope.spellAttributes?, Encoder.attributesText, h.qualify]
      cases scope.spell? true a.name with
      | none => exact ⟨"", _, rfl⟩
      | some name =>
          simp only [Option.bind_eq_bind, Option.bind_some]
          cases hrest : scope.spellAttributes? attributes with
          | none =>
              rw [hrest] at ih
              obtain ⟨text, space, htext⟩ := ih
              exact ⟨_, space, by rw [htext]⟩
          | some spelled =>
              rw [hrest] at ih
              simp only at ih ⊢
              rw [ih]
              rfl

theorem layout_unbind (e : Encoder) (label : String) (previous : Option String) :
    (e.unbind label previous).layout = e.layout := by
  unfold Encoder.unbind
  cases e.uris.get? label with
  | none => rfl
  | some current =>
      simp only
      cases e.labels.get? current with
      | none => rfl
      | some known =>
          simp only
          cases known.erase label <;> rfl

/-- `unwind` takes the declarations of the innermost element back and closes it. -/
theorem Reflects.unwind {declared outer : Scope} (name : Name) (rest : List Mark) {e : Encoder}
    (h : e.Reflects (declared ++ outer)) :
    ∃ e' : Encoder,
      e.unwind (declared.marks outer ++ .element name :: rest) = (some name, e') ∧
        e'.Reflects outer ∧ e'.marks = rest ∧ e'.layout = e.layout := by
  induction declared generalizing e with
  | nil => exact ⟨{ e with marks := rest }, rfl, h.of_eq rfl rfl, rfl, rfl⟩
  | cons entry declared ih =>
      obtain ⟨label, uri⟩ := entry
      -- the latest mark is that of the latest declaration
      obtain ⟨e', hunwind, hreflects, hmarks, hlayout⟩ := ih h.unbind
      exact ⟨e', hunwind, hreflects, hmarks, hlayout.trans (layout_unbind ..)⟩

/-- Without a layout `lead` is empty. -/
theorem lead_of_layout {e : Encoder} (h : e.layout = none) (s : Shift) : e.lead s = "" := by
  rw [lead, h]

theorem shifted_of_layout {e : Encoder} (h : e.layout = none) (s : Shift) : e.shifted s = e := by
  rw [shifted, h, Option.map_none, ← h]

theorem At.lead {e : Encoder} {w : Writing} (h : e.At w) (s : Shift) : e.lead s = "" :=
  lead_of_layout h.layout s

theorem At.shifted {e : Encoder} {w : Writing} (h : e.At w) (s : Shift) : e.shifted s = e :=
  shifted_of_layout h.layout s

/-- `encodeStart` writes a start tag as `spellTag?` spells it. One that can not be spelled has a
name in a namespace without a prefix. -/
theorem At.encodeStart {e : Encoder} {w : Writing} (h : e.At w) (tag : StartTag) :
    match (w.enter tag).scope.spellTag? tag with
    | some spelled =>
      ∃ e' : Encoder, e.encodeStart tag = ⟨(Token.start spelled).print, e', .ok ()⟩ ∧
        e'.At (w.enter tag)
    | none => ∃ text e' space,
        e.encodeStart tag = ⟨text, e', .error (.unknownNamespace space)⟩ := by
  let opened : Encoder := { e with marks := .element tag.name :: e.marks }
  have hopened : opened.Reflects w.scope := h.reflects.of_eq rfl rfl
  obtain ⟨hreflects, hmarks, hlayout⟩ := hopened.foldl_bindDeclared tag.attributes
  -- prefixes are declared before any name is written
  generalize hinner : tag.attributes.foldl bindDeclared opened = inner at hreflects hmarks hlayout
  have hat : inner.At (w.enter tag) := by
    refine ⟨?_, hreflects, hlayout.trans h.layout⟩
    rw [hmarks]
    show _ ++ Mark.element tag.name :: e.marks = _
    rw [h.marks]
    rfl
  have hattributes := hat.reflects.attributesText tag.attributes
  unfold Encoder.encodeStart
  simp only [h.shifted, h.lead]
  rw [hinner, hat.reflects.qualify, Scope.spellTag?]
  cases (w.enter tag).scope.spell? false tag.name with
  | none => exact ⟨_, _, _, rfl⟩
  | some name =>
      simp only [Option.bind_eq_bind, Option.bind_some]
      cases hspelled : (w.enter tag).scope.spellAttributes? tag.attributes with
      | none =>
          rw [hspelled] at hattributes
          obtain ⟨text, space, htext⟩ := hattributes
          exact ⟨_, _, space, by rw [htext]⟩
      | some attributes =>
          rw [hspelled] at hattributes
          simp only at hattributes
          refine ⟨inner, ?_, hat⟩
          rw [hattributes]
          simp [Token.print]

/-- `encodeEnd` writes an end tag as `spell` spells it, if it closes the innermost element. -/
theorem At.encodeEnd {e : Encoder} {w : Writing} (h : e.At w) (name : Name) :
    match w.spell (.finish name) with
    | some (spelled, next) =>
      ∃ e' : Encoder, e.encodeEnd name = ⟨spelled.print, e', .ok ()⟩ ∧ e'.At next
    | none => ∃ text e' err, e.encodeEnd name = ⟨text, e', .error err⟩ := by
  obtain ⟨base, frames⟩ := w
  simp only [Writing.spell, Encoder.encodeEnd, h.reflects.qualify]
  cases hname : Scope.spell? _ false name with
  | none => exact ⟨_, _, _, rfl⟩
  | some spelled =>
      cases frames with
      | nil =>
          have hmarks : e.marks = [] := h.marks
          simp only [hmarks, Encoder.unwind]
          exact ⟨_, _, _, rfl⟩
      | cons frame outer =>
          have hmarks : e.marks = frame.declared.marks (Writing.scopeOf base outer) ++
              .element frame.name :: Writing.marksOf base outer := h.marks
          obtain ⟨e', hunwind, hreflects, hrest, hlayout⟩ :=
            h.reflects.unwind frame.name (Writing.marksOf base outer)
          have hat : e'.At ⟨base, outer⟩ := ⟨hrest, hreflects, hlayout.trans h.layout⟩
          simp only [hmarks, hunwind]
          by_cases heq : frame.name = name
          · rw [if_pos heq, if_pos heq]
            refine ⟨e', ?_, hat⟩
            rw [hat.lead, hat.shifted]
            simp [Token.print]
          · rw [if_neg heq, if_neg heq]
            exact ⟨_, _, _, rfl⟩

/-- `encode` writes a token as `spell` spells it; one that can not be spelled can not be written. -/
theorem At.encode {e : Encoder} {w : Writing} (h : e.At w) (t : Token) :
    match w.spell t with
    | some (spelled, next) =>
      ∃ e' : Encoder, e.encode t = ⟨spelled.print, e', .ok ()⟩ ∧ e'.At next
    | none => ∃ text e' err, e.encode t = ⟨text, e', .error err⟩ := by
  cases t with
  | start tag =>
      have := h.encodeStart tag
      simp only [Writing.spell, Encoder.encode]
      cases hspelled : (w.enter tag).scope.spellTag? tag with
      | none =>
          rw [hspelled] at this
          obtain ⟨text, e', space, htext⟩ := this
          exact ⟨text, e', _, htext⟩
      | some spelled => rwa [hspelled] at this
  | finish name => exact h.encodeEnd name
  | text content => exact ⟨e, rfl, h⟩
  | cdata content => exact ⟨e, rfl, h⟩
  | comment content => exact ⟨e, by simp [Encoder.encode, h.lead, h.shifted, Token.print], h⟩
  | instruction content =>
      exact ⟨e, by simp [Encoder.encode, h.lead, h.shifted, Token.print], h⟩
  | doctype content => exact ⟨e, by simp [Encoder.encode, h.lead, h.shifted, Token.print], h⟩

/-- `encodeAll` writes tokens as `spellAll` spells them, and fails where one can not be spelled. -/
theorem At.encodeAll {e : Encoder} {w : Writing} (h : e.At w) (tokens : List Token) :
    match w.spellAll tokens with
    | some (spelled, last) =>
      ∃ e' : Encoder, e.encodeAll tokens = ⟨Token.printAll spelled, e', .ok ()⟩ ∧ e'.At last
    | none => ∃ text e' err, e.encodeAll tokens = ⟨text, e', .error err⟩ := by
  induction tokens generalizing e w with
  | nil => exact ⟨e, rfl, h⟩
  | cons t tokens ih =>
      have hfirst := h.encode t
      simp only [Writing.spellAll, Encoder.encodeAll]
      cases hspell : w.spell t with
      | none =>
          rw [hspell] at hfirst
          obtain ⟨text, e', err, hencode⟩ := hfirst
          exact ⟨text, e', err, by rw [hencode]⟩
      | some step =>
          obtain ⟨spelled, next⟩ := step
          rw [hspell] at hfirst
          obtain ⟨e', hencode, hat⟩ := hfirst
          have hrest := ih hat
          rw [hencode]
          simp only
          cases hall : next.spellAll tokens with
          | none =>
              rw [hall] at hrest
              obtain ⟨text, e'', err, hmore⟩ := hrest
              exact ⟨_, e'', err, by rw [hmore]⟩
          | some done =>
              obtain ⟨more, last⟩ := done
              rw [hall] at hrest
              obtain ⟨e'', hmore, hlast⟩ := hrest
              exact ⟨e'', by rw [hmore]; rfl, hlast⟩

end Encoder

end ResourceShards.Markup
