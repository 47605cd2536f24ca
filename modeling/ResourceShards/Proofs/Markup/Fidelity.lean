import ResourceShards.Proofs.Markup.Reading

/-!
# ResourceShards.Proofs.Markup.Fidelity

**What writing and reading make of a name.** Tokens are written in one scope and may be read in
another: a piece of a document is written with the prefixes that it sees there, and read wherever it
is put. Both scopes grow by the declarations of the same tags. So reading always gives tokens of the
same shape, and they are the tokens that were written exactly if every name in every start tag is
written with a prefix that stands for its namespace where it is read.

* `Scope.Keeps`: a name survives being written in one scope and read in another
* `Writing.Keeps`: all names of all start tags do
* `Writing.resolveAll?_spellAll`: reading gives the tokens that were written exactly if they do
-/

namespace ResourceShards.Markup

/-! ### Tokens to be written -/

/-- A token that can be read again as far as it goes by itself: its local parts are words, its
content keeps within its markup, and its declarations are taken. -/
structure Token.Tidy (t : Token) : Prop where
  /-- Its local parts are words. -/
  words : ∀ n ∈ t.names, IsWord n.localPart
  /-- Its content keeps within the markup around it. -/
  enclosed : t.Enclosed
  /-- Its declarations are taken. -/
  allowed : ∀ tag, t = .start tag →
    ∀ entry ∈ tag.declared, Scope.Allows entry.1 (escapeValue entry.2)

namespace Scope

/-- Prefixes are words other than `xmlns`, or empty. -/
def Plain (scope : Scope) : Prop :=
  ∀ entry ∈ scope, entry.1 = "" ∨ (IsWord entry.1 ∧ entry.1 ≠ Name.xmlns)

theorem Plain.append {inner outer : Scope} (hinner : inner.Plain) (houter : outer.Plain) :
    Plain (inner ++ outer) := by
  intro entry hentry
  rcases List.mem_append.1 hentry with h | h
  · exact hinner entry h
  · exact houter entry h

theorem Plain.of_uri? {scope : Scope} (h : scope.Plain) {label uri : String}
    (huri : scope.uri? label = some uri) : label = "" ∨ (IsWord label ∧ label ≠ Name.xmlns) :=
  h (label, uri) (mem_of_uri? huri)

/-- The prefix of a spelled name: none, that of declarations, or one that is not `xmlns`. The first
two show what the namespace is. -/
theorem Plain.label? {scope : Scope} (h : scope.Plain) {forAttribute : Bool} {space label : String}
    (hlabel : scope.label? forAttribute space = some label) :
    (space = "" ∧ label = "") ∨ (space = Name.xmlns ∧ label = Name.xmlns) ∨
      (space ≠ "" ∧ space ≠ Name.xmlns ∧ label ≠ Name.xmlns ∧
        (IsWord label ∨ (forAttribute = false ∧ label = ""))) := by
  unfold Scope.label? at hlabel
  by_cases hempty : space = ""
  · rw [if_pos (beq_iff_eq.2 hempty), Option.some.injEq] at hlabel
    exact .inl ⟨hempty, hlabel.symm⟩
  by_cases hxmlns : space = Name.xmlns
  · rw [if_neg (by rw [beq_iff_eq]; exact hempty), if_pos (beq_iff_eq.2 hxmlns),
      Option.some.injEq] at hlabel
    exact .inr (.inl ⟨hxmlns, hlabel.symm⟩)
  rw [if_neg (by rw [beq_iff_eq]; exact hempty),
    if_neg (by rw [beq_iff_eq]; exact hxmlns)] at hlabel
  refine .inr (.inr ⟨hempty, hxmlns, ?_⟩)
  -- the prefix is one that is bound to the URI, or the URI itself stands as a prefix
  cases hvisible : scope.visible? forAttribute space with
  | some found =>
      rw [hvisible] at hlabel
      simp only [Option.some.injEq] at hlabel
      subst hlabel
      obtain ⟨huri, hattr⟩ := uri?_of_visible? hvisible
      rcases h.of_uri? huri with rfl | ⟨hword, hne⟩
      · refine ⟨by decide, .inr ⟨?_, rfl⟩⟩
        rw [← Bool.not_eq_true]
        exact fun htrue => hattr ⟨htrue, rfl⟩
      · exact ⟨hne, .inl hword⟩
  | none =>
      rw [hvisible] at hlabel
      simp only at hlabel
      by_cases hbound : (scope.uri? space).isSome = true
      · rw [if_pos hbound, Option.some.injEq] at hlabel
        subst hlabel
        obtain ⟨uri, huri⟩ := Option.isSome_iff_exists.1 hbound
        rcases h.of_uri? huri with hnone | ⟨hword, hne⟩
        · exact absurd hnone hempty
        · exact ⟨hne, .inl hword⟩
      rw [if_neg hbound] at hlabel
      by_cases hxml : (space == "xml" || space == Name.xmlSpace) = true
      · rw [if_pos hxml, Option.some.injEq] at hlabel
        subst hlabel
        exact ⟨by decide, .inl (by decide)⟩
      · rw [if_neg hxml] at hlabel
        exact absurd hlabel.symm (Option.some_ne_none _)

/-- `spell?` gives a name the prefix that `label?` finds, and leaves the local part. -/
theorem label?_of_spell? {scope : Scope} {forAttribute : Bool} {name spelled : Name}
    (h : scope.spell? forAttribute name = some spelled) :
    scope.label? forAttribute name.space = some spelled.space ∧
      spelled.localPart = name.localPart := by
  obtain ⟨label, hlabel, rfl⟩ := Option.map_eq_some_iff.1 h
  exact ⟨hlabel, rfl⟩

theorem Plain.legible {scope : Scope} (h : scope.Plain) {forAttribute : Bool} {name spelled : Name}
    (hname : IsWord name.localPart) (hspell : scope.spell? forAttribute name = some spelled) :
    spelled.Legible := by
  obtain ⟨hlabel, hlocal⟩ := label?_of_spell? hspell
  refine ⟨?_, hlocal ▸ hname⟩
  rcases h.label? hlabel with ⟨-, hempty⟩ | ⟨-, hxmlns⟩ | ⟨-, -, -, hword | ⟨-, hempty⟩⟩
  · exact .inl hempty
  · exact .inr (by rw [hxmlns]; decide)
  · exact .inr hword
  · exact .inl hempty

/-- An attribute with a spelled name declares what the attribute does. -/
theorem Plain.declared? {scope : Scope} (h : scope.Plain) {a : Attribute} {spelled : Name}
    (hspell : scope.spell? true a.name = some spelled) :
    Attribute.declared? ⟨spelled, a.value⟩ = a.declared? := by
  obtain ⟨hlabel, hlocal⟩ := label?_of_spell? hspell
  have hsame : spelled.declaredLabel? = a.name.declaredLabel? := by
    unfold Name.declaredLabel?
    rw [hlocal]
    rcases h.label? hlabel with ⟨hs, hl⟩ | ⟨hs, hl⟩ | ⟨hs1, hs2, hl, hword | ⟨hattr, -⟩⟩
    · rw [hs, hl]
    · rw [hs, hl]
    · have hne : spelled.space ≠ "" := hword.1
      simp [hs1, hs2, hl, hne]
    · exact Bool.noConfusion hattr
  unfold Attribute.declared?
  rw [hsame]

theorem Plain.spellAttributes? {scope : Scope} (h : scope.Plain)
    {attributes spelled : List Attribute}
    (hspell : scope.spellAttributes? attributes = some spelled) :
    ofAttributes spelled = ofAttributes attributes ∧
      ((∀ a ∈ attributes, IsWord a.name.localPart) → ∀ a ∈ spelled, a.name.Legible) := by
  induction attributes generalizing spelled with
  | nil =>
      simp only [Scope.spellAttributes?, Option.some.injEq] at hspell
      subst hspell
      exact ⟨rfl, fun _ a ha => absurd ha List.not_mem_nil⟩
  | cons a attributes ih =>
      simp only [Scope.spellAttributes?, Option.bind_eq_bind, Option.bind_eq_some_iff] at hspell
      obtain ⟨name, hname, more, hmore, hspelled⟩ := hspell
      obtain rfl : _ = spelled := Option.some.inj hspelled
      obtain ⟨hof, hlegible⟩ := ih hmore
      refine ⟨?_, fun hwords b hb => ?_⟩
      · rw [ofAttributes_cons, ofAttributes_cons, hof, h.declared? hname]
      · rcases List.mem_cons.1 hb with rfl | hb
        · exact h.legible (hwords a List.mem_cons_self) hname
        · exact hlegible (fun c hc => hwords c (List.mem_cons_of_mem a hc)) b hb

end Scope

/-- The prefixes that a `Tidy` tag declares are words or empty. -/
theorem Token.Tidy.plain_declared {tag : StartTag} (h : (Token.start tag).Tidy) :
    tag.declared.Plain := by
  intro entry hentry
  unfold StartTag.declared Scope.ofAttributes at hentry
  rw [List.mem_reverse, List.mem_filterMap] at hentry
  obtain ⟨a, ha, hdeclared⟩ := hentry
  obtain ⟨label, hlabel, rfl⟩ := Option.map_eq_some_iff.1 hdeclared
  have hword : IsWord a.name.localPart :=
    h.words _ (List.mem_cons_of_mem _ (List.mem_map_of_mem ha))
  have hallows : Scope.Allows label (escapeValue a.value) := by
    refine h.allowed tag rfl (label, a.value) ?_
    unfold StartTag.declared Scope.ofAttributes
    rw [List.mem_reverse, List.mem_filterMap]
    exact ⟨a, ha, hdeclared⟩
  unfold Name.declaredLabel? at hlabel
  by_cases hspace : a.name.space == Name.xmlns
  · rw [if_pos hspace, Option.some.injEq] at hlabel
    subst hlabel
    rcases hallows with hempty | ⟨hxml, -⟩ | ⟨-, hne, -⟩
    · exact .inl hempty
    · exact .inr ⟨hword, fun heq => absurd (hxml.symm.trans heq) (by decide)⟩
    · exact .inr ⟨hword, hne⟩
  · rw [if_neg hspace] at hlabel
    by_cases hdefault : (a.name.space == "" && a.name.localPart == Name.xmlns) = true
    · rw [if_pos hdefault, Option.some.injEq] at hlabel
      exact .inl hlabel.symm
    · rw [if_neg hdefault] at hlabel
      exact absurd hlabel.symm (Option.some_ne_none _)

/-- `spell` leaves a token without names as it is. -/
theorem Writing.spell_of_names_eq_nil {t : Token} (h : t.names = []) (w : Writing) :
    w.spell t = some (t, w) := by
  cases t with
  | start tag => exact absurd h (List.cons_ne_nil _ _)
  | finish name => exact absurd h (List.cons_ne_nil _ _)
  | _ => rfl

/-- `resolve?` leaves a token without names as it is. -/
theorem Reading.resolve?_of_names_eq_nil {t : Token} (h : t.names = []) (r : Reading) :
    r.resolve? t = some (t, r) := by
  cases t with
  | start tag => exact absurd h (List.cons_ne_nil _ _)
  | finish name => exact absurd h (List.cons_ne_nil _ _)
  | _ => rfl

namespace Writing

/-- What `spell` makes of a start tag: its names are spelled in the scope inside it. -/
theorem spell_start {w next : Writing} {tag : StartTag} {spelled : Token}
    (h : w.spell (.start tag) = some (spelled, next)) :
    ∃ name attributes, spelled = .start ⟨name, attributes⟩ ∧ next = w.enter tag ∧
      (w.enter tag).scope.spell? false tag.name = some name ∧
      (w.enter tag).scope.spellAttributes? tag.attributes = some attributes := by
  obtain ⟨tag', htag', heq⟩ := Option.map_eq_some_iff.1 h
  obtain ⟨rfl, rfl⟩ := Prod.mk.inj heq
  simp only [Scope.spellTag?, Option.bind_eq_bind, Option.bind_eq_some_iff] at htag'
  obtain ⟨name, hname, attributes, hattributes, hsome⟩ := htag'
  exact ⟨name, attributes, by rw [← Option.some.inj hsome], rfl, hname, hattributes⟩

/-- What `spell` makes of an end tag: it closes the innermost frame, which has its name. -/
theorem spell_finish {w next : Writing} {name : Name} {spelled : Token}
    (h : w.spell (.finish name) = some (spelled, next)) :
    ∃ label frame outer, spelled = .finish label ∧ w.frames = frame :: outer ∧
      frame.name = name ∧ next = { w with frames := outer } ∧
      w.scope.spell? false name = some label := by
  simp only [spell] at h
  split at h
  · rename_i label frame outer hname hframes
    by_cases heq : frame.name = name
    · rw [if_pos heq, Option.some.injEq, Prod.mk.injEq] at h
      exact ⟨label, frame, outer, h.1.symm, hframes, heq, h.2.symm, hname⟩
    · rw [if_neg heq] at h
      exact absurd h.symm (Option.some_ne_none _)
  · exact absurd h.symm (Option.some_ne_none _)

/-- What `spell` makes of a `Tidy` token is `Readable`. -/
theorem readable_of_spell {w next : Writing} (hscope : w.scope.Plain) {t spelled : Token}
    (ht : t.Tidy) (hspell : w.spell t = some (spelled, next)) : spelled.Readable := by
  rcases t.tag_or_names_eq_nil with ⟨tag, rfl⟩ | ⟨name, rfl⟩ | hnames
  · obtain ⟨name, attributes, rfl, rfl, hname, hattributes⟩ := spell_start hspell
    have hplain : (w.enter tag).scope.Plain := ht.plain_declared.append hscope
    obtain ⟨hof, hlegible⟩ := hplain.spellAttributes? hattributes
    refine ⟨⟨fun n hn => ?_, trivial⟩, fun tag' htag' entry hentry => ?_⟩
    · rcases List.mem_cons.1 hn with rfl | hn
      · exact hplain.legible (ht.words _ List.mem_cons_self) hname
      · obtain ⟨a, ha, rfl⟩ := List.mem_map.1 hn
        exact hlegible (fun b hb =>
          ht.words _ (List.mem_cons_of_mem _ (List.mem_map_of_mem hb))) a ha
    · obtain rfl : _ = tag' := Token.start.inj htag'
      unfold StartTag.declared at hentry
      rw [hof] at hentry
      exact ht.allowed tag rfl entry hentry
  · obtain ⟨label, frame, outer, rfl, hframes, heq, rfl, hname⟩ := spell_finish hspell
    refine ⟨⟨fun n hn => ?_, trivial⟩, fun tag htag => Token.noConfusion htag⟩
    rw [List.mem_singleton.1 hn]
    exact hscope.legible (ht.words _ List.mem_cons_self) hname
  · rw [spell_of_names_eq_nil hnames] at hspell
    obtain ⟨rfl, -⟩ := Prod.mk.inj (Option.some.inj hspell)
    refine ⟨⟨fun n hn => ?_, ht.enclosed⟩, fun tag htag => ?_⟩
    · rw [hnames] at hn
      exact absurd hn List.not_mem_nil
    · rw [htag] at hnames
      exact absurd hnames (List.cons_ne_nil _ _)

/-- All prefixes that a writing has seen are words or empty. -/
def Plain (w : Writing) : Prop :=
  w.base.Plain ∧ ∀ frame ∈ w.frames, frame.declared.Plain

theorem Plain.scope {w : Writing} (h : w.Plain) : w.scope.Plain := by
  obtain ⟨base, frames⟩ := w
  obtain ⟨hbase, hframes⟩ : base.Plain ∧ ∀ frame ∈ frames, frame.declared.Plain := h
  induction frames with
  | nil => exact hbase
  | cons frame frames ih =>
      have houter : Scope.Plain (scopeOf base frames) :=
        ih (fun f hf => hframes f (List.mem_cons_of_mem frame hf))
      exact (hframes frame List.mem_cons_self).append houter

/-- `Tidy` tokens keep a writing `Plain`: they bring no other prefixes. -/
theorem Plain.spell {w next : Writing} (h : w.Plain) {t spelled : Token} (ht : t.Tidy)
    (hspell : w.spell t = some (spelled, next)) : next.Plain := by
  rcases t.tag_or_names_eq_nil with ⟨tag, rfl⟩ | ⟨name, rfl⟩ | hnames
  · obtain ⟨name, attributes, rfl, rfl, hname, hattributes⟩ := spell_start hspell
    refine ⟨h.1, ?_⟩
    intro frame hframe
    rcases List.mem_cons.1 hframe with rfl | hframe
    · exact ht.plain_declared
    · exact h.2 frame hframe
  · obtain ⟨label, frame, outer, rfl, hframes, heq, rfl, hname⟩ := spell_finish hspell
    refine ⟨h.1, fun f hf => h.2 f ?_⟩
    rw [hframes]
    exact List.mem_cons_of_mem frame hf
  · rw [spell_of_names_eq_nil hnames] at hspell
    obtain ⟨-, rfl⟩ := Prod.mk.inj (Option.some.inj hspell)
    exact h

/-- Where writing stands after a token. -/
def after (w : Writing) : Token → Writing
  | .start tag => w.enter tag
  | .finish _ => { w with frames := w.frames.tail }
  | _ => w

theorem eq_after_of_spell {w next : Writing} {t spelled : Token}
    (h : w.spell t = some (spelled, next)) : next = w.after t := by
  rcases t.tag_or_names_eq_nil with ⟨tag, rfl⟩ | ⟨name, rfl⟩ | hnames
  · obtain ⟨name, attributes, -, rfl, -, -⟩ := spell_start h
    rfl
  · obtain ⟨label, frame, outer, -, hframes, -, rfl, -⟩ := spell_finish h
    rw [after, hframes]
    rfl
  · have hafter : w.after t = w := by
      cases t with
      | start tag => exact absurd hnames (List.cons_ne_nil _ _)
      | finish name => exact absurd hnames (List.cons_ne_nil _ _)
      | _ => rfl
    rw [spell_of_names_eq_nil hnames] at h
    rw [hafter]
    exact (Prod.mk.inj (Option.some.inj h)).2.symm

theorem isText_of_spell {w next : Writing} {t spelled : Token}
    (h : w.spell t = some (spelled, next)) : spelled.isText = t.isText := by
  rcases t.tag_or_names_eq_nil with ⟨tag, rfl⟩ | ⟨name, rfl⟩ | hnames
  · obtain ⟨name, attributes, rfl, -, -, -⟩ := spell_start h
    rfl
  · obtain ⟨label, frame, outer, rfl, -, -, -, -⟩ := spell_finish h
    rfl
  · rw [spell_of_names_eq_nil hnames] at h
    rw [(Prod.mk.inj (Option.some.inj h)).1]

end Writing

/-- `spellAll` spells nothing but text as text. -/
theorem Writing.eq_text_of_spellAll {w last : Writing} {tokens rest : List Token} {content : String}
    (h : w.spellAll tokens = some (.text content :: rest, last)) :
    ∃ rest', tokens = .text content :: rest' := by
  cases tokens with
  | nil => exact absurd (Prod.mk.inj (Option.some.inj h)).1.symm (List.cons_ne_nil _ _)
  | cons t tokens =>
      obtain ⟨first, next, more, hfirst, -, hcons⟩ := spellAll_cons h
      obtain ⟨rfl, -⟩ := List.cons.inj hcons
      have htext : t.isText = true := (isText_of_spell hfirst).symm
      cases t with
      | text other =>
          obtain ⟨hsame, -⟩ := Prod.mk.inj (Option.some.inj hfirst)
          exact ⟨tokens, by rw [hsame]⟩
      | _ => exact Bool.noConfusion htext

/-! ### Names that survive -/

namespace Scope

/-- A name that is written in the first scope and read in the second is the same again. -/
def Keeps (written read : Scope) (forAttribute : Bool) (name : Name) : Prop :=
  (written.spell? forAttribute name).map (read.resolve forAttribute) = some name

instance (written read : Scope) (forAttribute : Bool) (name : Name) :
    Decidable (written.Keeps read forAttribute name) :=
  inferInstanceAs (Decidable (_ = _))

/-- Every name of a start tag, those of its attributes included, is the same again. -/
def KeepsTag (written read : Scope) (tag : StartTag) : Prop :=
  written.Keeps read false tag.name ∧ ∀ a ∈ tag.attributes, written.Keeps read true a.name

instance (written read : Scope) (tag : StartTag) : Decidable (written.KeepsTag read tag) :=
  inferInstanceAs (Decidable (_ ∧ _))

theorem keeps_iff {written read : Scope} {forAttribute : Bool} {name spelled : Name}
    (h : written.spell? forAttribute name = some spelled) :
    written.Keeps read forAttribute name ↔ read.resolve forAttribute spelled = name := by
  rw [Keeps, h, Option.map_some, Option.some.injEq]

theorem keepsAttributes_iff {written read : Scope} {attributes spelled : List Attribute}
    (h : written.spellAttributes? attributes = some spelled) :
    (spelled.map fun a => ⟨read.resolve true a.name, a.value⟩) = attributes ↔
      ∀ a ∈ attributes, written.Keeps read true a.name := by
  induction attributes generalizing spelled with
  | nil =>
      simp only [spellAttributes?, Option.some.injEq] at h
      subst h
      simp
  | cons a attributes ih =>
      simp only [spellAttributes?, Option.bind_eq_bind, Option.bind_eq_some_iff] at h
      obtain ⟨name, hname, more, hmore, hspelled⟩ := h
      obtain rfl : _ = spelled := Option.some.inj hspelled
      rw [List.map_cons, List.cons.injEq, ih hmore, List.forall_mem_cons, keeps_iff hname]
      refine and_congr_left' ⟨fun heq => congrArg Attribute.name heq, ?_⟩
      intro heq
      rw [heq]

theorem keepsTag_iff {written read : Scope} {tag : StartTag} {name : Name}
    {attributes : List Attribute} (hname : written.spell? false tag.name = some name)
    (hattributes : written.spellAttributes? tag.attributes = some attributes) :
    read.resolveTag ⟨name, attributes⟩ = tag ↔ written.KeepsTag read tag := by
  rw [KeepsTag, keeps_iff hname, ← keepsAttributes_iff hattributes]
  cases tag
  simp [resolveTag]

/-- A name that `Keeps` from one scope to the other can be spelled. -/
theorem Keeps.spell? {written read : Scope} {forAttribute : Bool} {name : Name}
    (h : written.Keeps read forAttribute name) :
    ∃ spelled, written.spell? forAttribute name = some spelled := by
  obtain ⟨spelled, hspelled, -⟩ := Option.map_eq_some_iff.1 h
  exact ⟨spelled, hspelled⟩

theorem spellAttributes?_of_keeps {written read : Scope} {attributes : List Attribute}
    (h : ∀ a ∈ attributes, written.Keeps read true a.name) :
    ∃ spelled, written.spellAttributes? attributes = some spelled := by
  induction attributes with
  | nil => exact ⟨[], rfl⟩
  | cons a attributes ih =>
      obtain ⟨more, hmore⟩ := ih fun b hb => h b (List.mem_cons_of_mem a hb)
      obtain ⟨spelled, hspelled⟩ := (h a List.mem_cons_self).spell?
      exact ⟨⟨spelled, a.value⟩ :: more, by simp [Scope.spellAttributes?, hspelled, hmore]⟩

/-- A tag whose names all survive can be spelled by `spellTag?`. -/
theorem KeepsTag.spellTag? {written read : Scope} {tag : StartTag}
    (h : written.KeepsTag read tag) : ∃ spelled, written.spellTag? tag = some spelled := by
  obtain ⟨name, hname⟩ := h.1.spell?
  obtain ⟨attributes, hattributes⟩ := spellAttributes?_of_keeps h.2
  exact ⟨⟨name, attributes⟩, by simp [Scope.spellTag?, hname, hattributes]⟩

end Scope

namespace Writing

/-- The scope that reading reaches inside elements that were written. -/
def readIn (outside : Scope) : List Frame → Scope
  | [] => outside
  | frame :: outer => frame.declared.asWritten ++ readIn outside outer

/-- The names of a token survive. End tags have the names of start tags. -/
def KeepsToken (outside : Scope) (w : Writing) : Token → Prop
  | .start tag =>
    (w.enter tag).scope.KeepsTag (readIn outside (w.enter tag).frames) tag
  | _ => True

instance (outside : Scope) (w : Writing) (t : Token) : Decidable (w.KeepsToken outside t) :=
  match t with
  | .start _ => inferInstanceAs (Decidable (Scope.KeepsTag _ _ _))
  | .finish _ | .text _ | .cdata _ | .comment _ | .instruction _ | .doctype _ =>
    inferInstanceAs (Decidable True)

/-- All names of all tokens survive, when the tokens are read in the scope `outside`. -/
def Keeps (outside : Scope) (w : Writing) : List Token → Prop
  | [] => True
  | t :: rest => w.KeepsToken outside t ∧ (w.after t).Keeps outside rest

instance decidableKeeps (outside : Scope) (w : Writing) :
    (tokens : List Token) → Decidable (w.Keeps outside tokens)
  | [] => inferInstanceAs (Decidable True)
  | t :: rest =>
    have := decidableKeeps outside (w.after t) rest
    inferInstanceAs (Decidable (_ ∧ _))

/-- The names of open elements survived. -/
def Kept (base outside : Scope) : List Frame → Prop
  | [] => True
  | frame :: outer =>
    (scopeOf base (frame :: outer)).Keeps (readIn outside (frame :: outer)) false frame.name ∧
      Kept base outside outer

/-- The elements that writing has opened are those that reading is inside of, in front of the ones
that were there before. -/
inductive Mirrors (base : Scope) (outside : Reading) : List Frame → Reading → Prop
  | nil : Mirrors base outside [] outside
  | cons {frame : Frame} {frames : List Frame} {r : Reading} {spelled : Name} :
      Mirrors base outside frames r →
      (scopeOf base (frame :: frames)).spell? false frame.name = some spelled →
      Mirrors base outside (frame :: frames) (⟨spelled, frame.declared.asWritten ++ r.scope⟩ :: r)

theorem Mirrors.scope {base : Scope} {outside r : Reading} {frames : List Frame}
    (h : Mirrors base outside frames r) : r.scope = readIn outside.scope frames := by
  induction h with
  | nil => rfl
  | cons _ _ ih => rw [readIn, ← ih]; rfl

/-- `resolve?` makes a token of what `spell` has made, and it is the one that was spelled exactly if
its names survive. -/
theorem resolve?_of_spell {w next : Writing} {outside r : Reading} {t spelled : Token}
    (hplain : w.Plain) (ht : t.Tidy) (hmirrors : Mirrors w.base outside w.frames r)
    (hspell : w.spell t = some (spelled, next)) :
    ∃ meaning r', r.resolve? spelled = some (meaning, r') ∧
      Mirrors next.base outside next.frames r' ∧
      (Kept w.base outside.scope w.frames →
        (meaning = t ↔ w.KeepsToken outside.scope t) ∧
          (meaning = t → Kept next.base outside.scope next.frames)) := by
  rcases t.tag_or_names_eq_nil with ⟨tag, rfl⟩ | ⟨name, rfl⟩ | hnames
  · obtain ⟨name, attributes, rfl, rfl, hname, hattributes⟩ := spell_start hspell
    have hdeclared : StartTag.declared ⟨name, attributes⟩ = tag.declared :=
      ((ht.plain_declared.append hplain.scope).spellAttributes? hattributes).1
    have henter : r.enter ⟨name, attributes⟩ =
        ⟨name, tag.declared.asWritten ++ r.scope⟩ :: r := by
      rw [Reading.enter, hdeclared]
    have hnext : Mirrors w.base outside (w.enter tag).frames (r.enter ⟨name, attributes⟩) := by
      rw [henter]
      exact .cons hmirrors hname
    refine ⟨_, _, rfl, hnext, ?_⟩
    intro hkept
    rw [hnext.scope, Token.start.injEq, Scope.keepsTag_iff hname hattributes]
    exact ⟨Iff.rfl, fun h => ⟨h.1, hkept⟩⟩
  · -- the end tag is spelled in the scope of the element, as its start tag was
    obtain ⟨label, frame, outer, rfl, hframes, rfl, rfl, hname⟩ := spell_finish hspell
    rw [hframes] at hmirrors ⊢
    have hscope : w.scope = scopeOf w.base (frame :: outer) := by rw [scope, hframes]
    have hinside := hmirrors.scope
    cases hmirrors with
    | @cons _ _ r' spelled houter hspelled =>
        rw [hscope, hspelled, Option.some.injEq] at hname
        subst hname
        refine ⟨_, r', if_pos rfl, houter, fun hkept =>
          ⟨⟨fun _ => trivial, fun _ => ?_⟩, fun _ => hkept.2⟩⟩
        have hkeeps := (Scope.keeps_iff hspelled).1 hkept.1
        rw [← hinside] at hkeeps
        exact congrArg Token.finish hkeeps
  · have hkeeps : w.KeepsToken outside.scope t := by
      cases t with
      | start tag => exact absurd hnames (List.cons_ne_nil _ _)
      | _ => trivial
    rw [spell_of_names_eq_nil hnames] at hspell
    obtain ⟨rfl, rfl⟩ := Prod.mk.inj (Option.some.inj hspell)
    exact ⟨t, r, Reading.resolve?_of_names_eq_nil hnames r, hmirrors,
      fun hkept => ⟨⟨fun _ => hkeeps, fun _ => rfl⟩, fun _ => hkept⟩⟩

/-- `resolveAll?` makes tokens of what `spellAll` has made, and they are those that were spelled if
all names survive. -/
theorem resolveAll?_of_spellAll {w last : Writing} {outside r : Reading}
    {tokens spelled : List Token} (hplain : w.Plain) (htidy : ∀ t ∈ tokens, t.Tidy)
    (hmirrors : Mirrors w.base outside w.frames r)
    (hspell : w.spellAll tokens = some (spelled, last)) :
    ∃ meanings r', r.resolveAll? spelled = some (meanings, r') ∧
      Mirrors last.base outside last.frames r' ∧
      (Kept w.base outside.scope w.frames →
        (meanings = tokens ↔ w.Keeps outside.scope tokens)) := by
  induction tokens generalizing w r spelled with
  | nil =>
      obtain ⟨rfl, rfl⟩ := Prod.mk.inj (Option.some.inj hspell)
      exact ⟨[], r, rfl, hmirrors, fun _ => ⟨fun _ => trivial, fun _ => rfl⟩⟩
  | cons t tokens ih =>
      obtain ⟨first, next, more, hfirst, hrest, rfl⟩ := spellAll_cons hspell
      have ht : t.Tidy := htidy t List.mem_cons_self
      obtain ⟨meaning, r', hmeaning, hnext, hiff⟩ :=
        resolve?_of_spell hplain ht hmirrors hfirst
      obtain ⟨meanings, r'', hmeanings, hlast, hiffs⟩ :=
        ih (hplain.spell ht hfirst) (fun u hu => htidy u (List.mem_cons_of_mem t hu)) hnext
          hrest
      refine ⟨meaning :: meanings, r'', ?_, hlast, fun hkept => ?_⟩
      · rw [Reading.resolveAll?, hmeaning]
        simp only
        rw [hmeanings]
      · obtain ⟨hsame, hkept'⟩ := hiff hkept
        rw [Keeps, ← eq_after_of_spell hfirst, List.cons.injEq, ← hsame]
        exact and_congr_right fun hfirst' => hiffs (hkept' hfirst')

/-- What `spellAll` makes of `Tidy` tokens is `Readable`, text as text. -/
theorem readable_of_spellAll {w last : Writing} {tokens spelled : List Token} (hplain : w.Plain)
    (htidy : ∀ t ∈ tokens, t.Tidy) (hspell : w.spellAll tokens = some (spelled, last)) :
    (∀ t ∈ spelled, t.Readable) ∧ spelled.map Token.isText = tokens.map Token.isText := by
  induction tokens generalizing w spelled with
  | nil =>
      obtain ⟨rfl, -⟩ := Prod.mk.inj (Option.some.inj hspell)
      exact ⟨fun t ht => absurd ht List.not_mem_nil, rfl⟩
  | cons t tokens ih =>
      obtain ⟨first, next, more, hfirst, hrest, rfl⟩ := spellAll_cons hspell
      have ht : t.Tidy := htidy t List.mem_cons_self
      obtain ⟨hreadable, htexts⟩ := ih (hplain.spell ht hfirst)
        (fun u hu => htidy u (List.mem_cons_of_mem t hu)) hrest
      refine ⟨List.forall_mem_cons.2 ⟨readable_of_spell hplain.scope ht hfirst, hreadable⟩, ?_⟩
      rw [List.map_cons, List.map_cons, isText_of_spell hfirst, htexts]

end Writing

/-- `TextsApart` depends on which tokens are texts. -/
theorem TextsApart.of_map_eq {a b : List Token} (h : TextsApart a)
    (heq : b.map Token.isText = a.map Token.isText) : TextsApart b := by
  have hmap : (a.map Token.isText).IsChain fun x y => x = true → y = false :=
    (List.isChain_map Token.isText).2 h
  rw [← heq] at hmap
  exact (List.isChain_map Token.isText).1 hmap

end ResourceShards.Markup
