import ResourceShards.Proofs.Markup.Tree

/-!
# ResourceShards.Proofs.Markup.Strictness

**Strict and lenient reading of one document.** Strict reading refuses some texts, and there it
stops. Everywhere else it does what lenient reading does, so that its events are the first ones of
lenient reading. An element that is whole among the first events of a document is the same in the
whole document: events tell what an element holds, and which one is the first of its kind.

* `Decoder.run_strict`, `Document.ofDecoder_strict`: strict reading against lenient reading
* `Forest.events_injective`: a forest is known from its events
* `Forest.content?_of_heads`: what an element holds is known from the events behind its start tag
* `DocumentTree.first?_some`, `DocumentTree.first?_none`: the first element of some kind in terms of
  events
-/

namespace ResourceShards.Markup

/-! ### What strict reading refuses -/

/-- What is wrong with a text that strict reading refuses. -/
def Fault.Refuses (fault : Fault) : Prop :=
  ∃ raw, Reference.readStrict raw = .error fault

/-- Strict reading comes to what lenient reading does, unless it refuses a text. -/
def Restricts {α : Type} (strict lenient : Except Fault α) : Prop :=
  strict = lenient ∨ ∃ fault : Fault, fault.Refuses ∧ strict = .error fault

namespace Restricts

variable {α β : Type}

theorem refl (x : Except Fault α) : Restricts x x := .inl rfl

/-- `strict >>= f` `Restricts` `lenient >>= g` if `strict` restricts `lenient` and each `f a`
restricts `g a`. -/
theorem bind {strict lenient : Except Fault α} {f g : α → Except Fault β}
    (h : Restricts strict lenient) (hf : ∀ a, Restricts (f a) (g a)) :
    Restricts (strict >>= f) (lenient >>= g) := by
  obtain rfl | ⟨fault, hfault, rfl⟩ := h
  · cases strict with
    | error fault => exact .refl _
    | ok a => exact hf a
  · exact .inr ⟨fault, hfault, rfl⟩

end Restricts

theorem Reference.readText_strict (raw : Bytes) :
    Restricts (readText .strict raw) (readText .lenient raw) := by
  cases hread : readStrict raw with
  | ok text => exact .inl (by simp only [readText, hread])
  | error fault => exact .inr ⟨fault, ⟨raw, hread⟩, by simp only [readText, hread]⟩

namespace Decoder

theorem readAttributes_strict (scope : List Binding) (attributes : List RawAttribute) :
    Restricts (readAttributes .strict scope attributes)
      (readAttributes .lenient scope attributes) := by
  induction attributes with
  | nil => exact .refl _
  | cons a rest ih =>
      refine (Reference.readText_strict a.value).bind fun value => ?_
      exact ih.bind fun read => .refl _

theorem openElement_strict (outer : List Binding) (raw : Bytes) :
    Restricts (openElement .strict outer raw) (openElement .lenient outer raw) := by
  refine (Restricts.refl _).bind fun scope => ?_
  exact (readAttributes_strict scope _).bind fun read => .refl _

/-- `piece` gives the same for both readers, unless the strict one `Refuses` the text. -/
theorem piece_strict (d : Decoder) (lexeme : Lexeme) (taken : Nat) (rest : Bytes) :
    d.piece .strict lexeme taken rest = d.piece .lenient lexeme taken rest ∨
      ∃ offset fault, fault.Refuses ∧
        d.piece .strict lexeme taken rest = .failed (.decode offset fault) := by
  cases lexeme with
  | text raw =>
      simp only [piece]
      obtain hsame | ⟨fault, hfault, hrefused⟩ := Reference.readText_strict raw
      · rw [hsame]
        exact .inl rfl
      · rw [hrefused]
        exact .inr ⟨_, fault, hfault, rfl⟩
  | startTag raw closesItself =>
      simp only [piece]
      obtain hsame | ⟨fault, hfault, hrefused⟩ := openElement_strict d.scope raw
      · rw [hsame]
        exact .inl rfl
      · rw [hrefused]
        exact .inr ⟨_, fault, hfault, rfl⟩
  | _ => exact .inl rfl

/-- `step` gives the same for both readers, unless the strict one `Refuses` the text. -/
theorem step_strict (d : Decoder) :
    d.step .strict = d.step .lenient ∨
      ∃ offset fault, fault.Refuses ∧ d.step .strict = .failed (.decode offset fault) := by
  unfold step
  cases hdue : d.due with
  | some e => exact .inl rfl
  | none =>
      cases hread : Lexeme.read d.block? (d.skipped + d.taken) d.rest with
      | nothing n => exact .inl rfl
      | bad n fault => exact .inl rfl
      | piece lexeme n rest => exact d.piece_strict lexeme (d.taken + n) rest

theorem run_of_finished {mode : Strictness} {d : Decoder} (h : d.step mode = .finished)
    (seen : List Event) : d.run mode seen = (seen, none) := by
  rw [run]
  split <;> simp_all

theorem run_of_failed {mode : Strictness} {d : Decoder} {e : Error} (h : d.step mode = .failed e)
    (seen : List Event) : d.run mode seen = (seen, some e) := by
  rw [run]
  split <;> simp_all

theorem run_of_event {mode : Strictness} {d next : Decoder} {e : Event}
    (h : d.step mode = .event e next) (seen : List Event) :
    d.run mode seen = next.run mode (e :: seen) := by
  rw [run]
  split <;> simp_all

/-- `run` goes the same way for both readers, unless the strict one stops at a text that it
`Refuses`. -/
theorem run_strict (d : Decoder) (seen : List Event) :
    d.run .strict seen = d.run .lenient seen ∨
      ∃ offset fault events, fault.Refuses ∧
        (d.run .strict seen).2 = some (.decode offset fault) ∧
        (d.run .lenient seen).1 = events ++ (d.run .strict seen).1 := by
  induction hsize : d.size using Nat.strongRecOn generalizing d seen with
  | ind size ih =>
      cases hstrict : d.step .strict with
      | finished =>
          obtain hsame | ⟨offset, fault, -, hfailed⟩ := d.step_strict
          · rw [run_of_finished hstrict, run_of_finished (hsame ▸ hstrict)]
            exact .inl rfl
          · rw [hstrict] at hfailed
            cases hfailed
      | event e next =>
          obtain hsame | ⟨offset, fault, -, hfailed⟩ := d.step_strict
          · have hlenient : d.step .lenient = .event e next := hsame ▸ hstrict
            rw [run_of_event hstrict, run_of_event hlenient]
            exact ih next.size (hsize ▸ size_lt_of_step hstrict) next (e :: seen) rfl
          · rw [hstrict] at hfailed
            cases hfailed
      | failed e =>
          rw [run_of_failed hstrict]
          obtain hsame | ⟨offset, fault, hfault, hfailed⟩ := d.step_strict
          · rw [run_of_failed (hsame ▸ hstrict)]
            exact .inl rfl
          · rw [hstrict] at hfailed
            cases hfailed
            obtain ⟨events, after, hrun, -⟩ := d.run_nested .lenient seen
            exact .inr ⟨offset, fault, events.reverse, hfault, rfl, hrun⟩

end Decoder

/-- `ofDecoder` gives the same for both readers, or the first part of it for a strict one that
`Refuses` a text. -/
theorem Document.ofDecoder_strict (d : Decoder) :
    ofDecoder .strict d = ofDecoder .lenient d ∨
      ∃ offset fault, fault.Refuses ∧
        (ofDecoder .strict d).fault? = some (.decode offset fault) ∧
        (ofDecoder .strict d).events <+: (ofDecoder .lenient d).events := by
  obtain hsame | ⟨offset, fault, events, hfault, hend, hevents⟩ := d.run_strict []
  · left
    unfold ofDecoder
    rw [hsame]
  · refine .inr ⟨offset, fault, hfault, hend, events.reverse, ?_⟩
    show (d.run .strict []).1.reverse ++ events.reverse = (d.run .lenient []).1.reverse
    rw [hevents, List.reverse_append]

/-- The events of the `strict` reader are the first ones of the `lenient` reader. -/
theorem Document.strict_prefix (d : Decoder) :
    (ofDecoder .strict d).events <+: (ofDecoder .lenient d).events := by
  obtain hsame | ⟨-, -, -, -, hprefix⟩ := ofDecoder_strict d
  · exact ⟨[], by rw [hsame, List.append_nil]⟩
  · exact hprefix

/-- A document in which the `strict` reader finds no fault is read the same by the `lenient` one. -/
theorem Document.lenient_of_sound {d : Decoder} (h : (ofDecoder .strict d).fault? = none) :
    ofDecoder .lenient d = ofDecoder .strict d := by
  obtain hsame | ⟨offset, fault, -, hend, -⟩ := ofDecoder_strict d
  · exact hsame.symm
  · rw [h] at hend
    cases hend

/-! ### Forests and their events -/

namespace Forest

/-- `View.split` finds what an element holds, its end tag and what follows it. -/
theorem split_element (tag : StartTag) (inside : Forest) (closing : Nat) (more : List Event) :
    View.split tag.name (inside.events ++ ⟨closing, .finish tag.name⟩ :: more) =
      ⟨inside.events, some (⟨closing, .finish tag.name⟩, more)⟩ := by
  simp [View.split, View.splitFrom_forest, View.splitFrom]

/-- Events behind the start tag of an element tell what it holds and what follows it. -/
theorem element_events_inj {tag : StartTag} {inside inside' : Forest} {closing closing' : Nat}
    {more more' : List Event}
    (h : inside.events ++ ⟨closing, .finish tag.name⟩ :: more =
      inside'.events ++ ⟨closing', .finish tag.name⟩ :: more') :
    inside.events = inside'.events ∧ closing = closing' ∧ more = more' := by
  have hsplit := congrArg (View.split tag.name) h
  rw [split_element, split_element] at hsplit
  simpa using hsplit

/-- A `Forest` is known from its events. -/
theorem events_injective {f g : Forest} (h : f.events = g.events) : f = g := by
  induction f generalizing g with
  | nil =>
      cases g with
      | nil => rfl
      | content e plain rest => cases h
      | element opening tag inside closing rest => cases h
  | content e plain rest ih =>
      cases g with
      | nil => cases h
      | content e' plain' rest' =>
          obtain ⟨rfl, hrest⟩ := List.cons.inj h
          rw [ih hrest]
      | element opening tag inside closing rest' =>
          obtain ⟨rfl, -⟩ := List.cons.inj h
          exact absurd plain (List.cons_ne_nil _ _)
  | element opening tag inside closing rest ihInside ih =>
      cases g with
      | nil => cases h
      | content e plain rest' =>
          obtain ⟨rfl, -⟩ := List.cons.inj h
          exact absurd plain (List.cons_ne_nil _ _)
      | element opening' tag' inside' closing' rest' =>
          obtain ⟨htag, hmore⟩ := List.cons.inj h
          obtain ⟨rfl, rfl⟩ : opening = opening' ∧ tag = tag' := by simpa using htag
          obtain ⟨hinside, rfl, hrest⟩ := element_events_inj hmore
          rw [ihInside hinside, ih hrest]

end Forest

/-- The `content?` of a block is known from the first events behind its start tag, if they hold its
end tag. -/
theorem Block.content?_of_heads {b b' : Block} {following more : List Event}
    (hclosed : b.content? ≠ none) (htag : b.tag = b'.tag) (h : b.Heads following)
    (h' : b'.Heads (following ++ more)) : b'.content? = b.content? := by
  unfold Heads at h h'
  cases hcontent : b.content? with
  | none => exact absurd hcontent hclosed
  | some inside =>
      rw [hcontent] at h
      obtain ⟨closing, rest, rfl⟩ := h
      rw [List.append_assoc, List.cons_append, htag] at h'
      cases hcontent' : b'.content? with
      | some inside' =>
          rw [hcontent'] at h'
          obtain ⟨closing', rest', hevents⟩ := h'
          rw [Forest.events_injective (Forest.element_events_inj hevents).1]
      | none =>
          -- an element that is never closed has no end tag to be found
          rw [hcontent'] at h'
          obtain ⟨inner, hevents⟩ := h'
          have hsplit := congrArg (View.split b'.tag.name) hevents
          rw [Forest.split_element, View.split, View.splitFrom_tree] at hsplit
          exact absurd (congrArg View.Split.closing hsplit) (Option.some_ne_none _)

/-! ### The first element of some kind -/

/-- No start tag among some events has a name that is wanted. -/
def NoneWanted (wanted : Name → Bool) (events : List Event) : Prop :=
  ∀ e ∈ events, ∀ tag, e.start? = some tag → wanted tag.name = false

namespace NoneWanted

variable {wanted : Name → Bool} {events more : List Event}

theorem nil : NoneWanted wanted [] := fun _ h => absurd h List.not_mem_nil

theorem mono {narrow : Name → Bool} (h : NoneWanted wanted events)
    (hnarrow : ∀ name, narrow name = true → wanted name = true) : NoneWanted narrow events := by
  intro e he tag htag
  have hfalse := h e he tag htag
  cases hname : narrow tag.name with
  | false => rfl
  | true =>
      rw [hnarrow _ hname] at hfalse
      cases hfalse

theorem append (h : NoneWanted wanted events) (h' : NoneWanted wanted more) :
    NoneWanted wanted (events ++ more) := by
  intro e he
  rcases List.mem_append.1 he with he | he
  · exact h e he
  · exact h' e he

theorem cons_of_start {offset : Nat} {tag : StartTag} (htag : ¬wanted tag.name = true)
    (h : NoneWanted wanted events) : NoneWanted wanted (⟨offset, .start tag⟩ :: events) := by
  intro e he tag' htag'
  rcases List.mem_cons.1 he with rfl | he
  · cases htag'
    exact Bool.eq_false_iff.2 htag
  · exact h e he tag' htag'

theorem cons_of_none {e : Event} (he : e.start? = none) (h : NoneWanted wanted events) :
    NoneWanted wanted (e :: events) := by
  intro e' he' tag htag
  rcases List.mem_cons.1 he' with rfl | he'
  · rw [he] at htag
    cases htag
  · exact h e' he' tag htag

end NoneWanted

/-- The first element of a kind stands at the place of events that a block heads: none before it has
a name that is wanted. -/
def Block.First (b : Block) (wanted : Name → Bool) (events : List Event) : Prop :=
  wanted b.tag.name = true ∧ ∃ before offset following, NoneWanted wanted before ∧
    events = before ++ ⟨offset, .start b.tag⟩ :: following ∧ b.Heads following

/-- `First` overlooks what stands in front and is not wanted. -/
theorem Block.First.append {b : Block} {wanted : Name → Bool} {lead events : List Event}
    (h : b.First wanted events) (hlead : NoneWanted wanted lead) :
    b.First wanted (lead ++ events) := by
  obtain ⟨hname, before, offset, following, hbefore, rfl, hheads⟩ := h
  exact ⟨hname, lead ++ before, offset, following, hlead.append hbefore,
    (List.append_assoc ..).symm, hheads⟩

theorem Block.Heads.append {b : Block} {following : List Event} (h : b.Heads following)
    (hclosed : b.content? ≠ none) (more : List Event) : b.Heads (following ++ more) := by
  unfold Heads at h ⊢
  cases hcontent : b.content? with
  | none => exact absurd hcontent hclosed
  | some inside =>
      rw [hcontent] at h
      obtain ⟨closing, rest, rfl⟩ := h
      exact ⟨closing, rest ++ more, List.append_assoc ..⟩

theorem Block.First.append_right {b : Block} {wanted : Name → Bool} {events : List Event}
    (h : b.First wanted events) (hclosed : b.content? ≠ none) (more : List Event) :
    b.First wanted (events ++ more) := by
  obtain ⟨hname, before, offset, following, hbefore, rfl, hheads⟩ := h
  exact ⟨hname, before, offset, following ++ more, hbefore, by simp, hheads.append hclosed more⟩

/-- The first start tag that is wanted stands at one place only. -/
theorem NoneWanted.place_unique {wanted : Name → Bool} {before before' after after' : List Event}
    {e e' : Event} {tag tag' : StartTag} (h : NoneWanted wanted before)
    (h' : NoneWanted wanted before') (htag : e.start? = some tag) (htag' : e'.start? = some tag')
    (hname : wanted tag.name = true) (hname' : wanted tag'.name = true)
    (hevents : before ++ e :: after = before' ++ e' :: after') :
    e = e' ∧ after = after' := by
  rcases List.append_eq_append_iff.1 hevents with ⟨gap, rfl, hgap⟩ | ⟨gap, rfl, hgap⟩
  · cases gap with
    | nil => exact List.cons.inj hgap
    | cons first gap =>
        obtain ⟨rfl, -⟩ := List.cons.inj hgap
        have hfalse := h' e (List.mem_append_right _ List.mem_cons_self) tag htag
        exact absurd hname (Bool.eq_false_iff.1 hfalse)
  · cases gap with
    | nil =>
        obtain ⟨rfl, rfl⟩ := List.cons.inj hgap
        exact ⟨rfl, rfl⟩
    | cons first gap =>
        obtain ⟨rfl, -⟩ := List.cons.inj hgap
        have hfalse := h e' (List.mem_append_right _ List.mem_cons_self) tag' htag'
        exact absurd hname' (Bool.eq_false_iff.1 hfalse)

/-- If the `First` block of some events is whole, that of more events has the same `content?`. -/
theorem Block.First.content?_of_append {b b' : Block} {wanted : Name → Bool}
    {events more : List Event} (h : b.First wanted events) (hclosed : b.content? ≠ none)
    (h' : b'.First wanted (events ++ more)) : b'.content? = b.content? := by
  obtain ⟨hname, before, offset, following, hbefore, rfl, hheads⟩ := h
  obtain ⟨hname', before', offset', following', hbefore', hevents, hheads'⟩ := h'
  rw [List.append_assoc, List.cons_append] at hevents
  obtain ⟨hplace, rfl⟩ := hbefore.place_unique hbefore' rfl rfl hname hname' hevents
  have htag : b.tag = b'.tag := Token.start.inj (congrArg Event.token hplace)
  exact content?_of_heads hclosed htag hheads hheads'

/-- `first?` finds the first element among the events of a forest, and that is closed. -/
theorem Forest.first?_spec (f : Forest) (wanted : Name → Bool) (ancestors : List StartTag) :
    match f.first? wanted ancestors with
    | none => NoneWanted wanted f.events
    | some b => b.content? ≠ none ∧ b.First wanted f.events := by
  induction f generalizing ancestors with
  | nil => exact .nil
  | content e plain rest ih =>
      have hrest := ih ancestors
      have hcontent := Event.start?_of_names_eq_nil plain
      rw [first?, events]
      cases hfirst : rest.first? wanted ancestors with
      | none =>
          rw [hfirst] at hrest
          exact hrest.cons_of_none hcontent
      | some b =>
          rw [hfirst] at hrest
          exact ⟨hrest.1, hrest.2.append (NoneWanted.nil.cons_of_none hcontent)⟩
  | element opening tag inside closing rest ihInside ih =>
      rw [first?, events]
      by_cases hname : wanted tag.name = true
      · rw [if_pos hname]
        exact ⟨Option.some_ne_none _, hname, [], opening, _, .nil, rfl, closing, rest.events, rfl⟩
      rw [if_neg hname]
      have hinside := ihInside (ancestors ++ [tag])
      have htag : NoneWanted wanted [(⟨opening, .start tag⟩ : Event)] := .cons_of_start hname .nil
      cases hfirst : inside.first? wanted (ancestors ++ [tag]) with
      | some b =>
          rw [hfirst] at hinside
          obtain ⟨hclosed, hb⟩ := hinside
          exact ⟨hclosed, (hb.append_right hclosed _).append htag⟩
      | none =>
          rw [hfirst] at hinside
          have hbefore : NoneWanted wanted
              (⟨opening, .start tag⟩ :: (inside.events ++ [⟨closing, .finish tag.name⟩])) :=
            .cons_of_start hname (hinside.append (.cons_of_none rfl .nil))
          have hrest := ih ancestors
          have hsplit : (⟨opening, .start tag⟩ : Event) ::
              (inside.events ++ ⟨closing, .finish tag.name⟩ :: rest.events) =
              (⟨opening, .start tag⟩ :: (inside.events ++ [⟨closing, .finish tag.name⟩])) ++
                rest.events := by simp
          rw [Option.none_or, hsplit]
          cases hlast : rest.first? wanted ancestors with
          | none =>
              rw [hlast] at hrest
              exact hbefore.append hrest
          | some b =>
              rw [hlast] at hrest
              exact ⟨hrest.1, hrest.2.append hbefore⟩

/-- `first?` finds the first element among the events of a tree. -/
theorem DocumentTree.first?_spec (t : DocumentTree) (wanted : Name → Bool)
    (ancestors : List StartTag) :
    match t.first? wanted ancestors with
    | none => NoneWanted wanted t.events
    | some b => b.First wanted t.events := by
  induction t generalizing ancestors with
  | whole forest =>
      have hforest := forest.first?_spec wanted ancestors
      rw [first?, events]
      cases hfirst : forest.first? wanted ancestors with
      | none =>
          rw [hfirst] at hforest
          exact hforest
      | some b =>
          rw [hfirst] at hforest
          exact hforest.2
  | inside before offset tag inner ih =>
      have hforest := before.first?_spec wanted ancestors
      rw [first?, events]
      cases hfirst : before.first? wanted ancestors with
      | some b =>
          rw [hfirst] at hforest
          exact hforest.2.append_right hforest.1 _
      | none =>
          rw [hfirst] at hforest
          rw [Option.none_or]
          by_cases hname : wanted tag.name = true
          · rw [if_pos hname]
            exact ⟨hname, before.events, offset, inner.events, hforest, rfl, inner, rfl⟩
          rw [if_neg hname]
          have hinner := ih (ancestors ++ [tag])
          cases hlast : inner.first? wanted (ancestors ++ [tag]) with
          | none =>
              rw [hlast] at hinner
              exact hforest.append (hinner.cons_of_start hname)
          | some b =>
              rw [hlast] at hinner
              have htag : NoneWanted wanted [(⟨offset, .start tag⟩ : Event)] :=
                .cons_of_start hname .nil
              exact (hinner.append htag).append hforest

end ResourceShards.Markup
