import ResourceShards.Markup.Window
import ResourceShards.Proofs.Markup.Tree

/-!
# ResourceShards.Proofs.Markup.Window

**Views are subtrees.** A view knows nothing of the document but the events that pass and counts
only the tags of its own name. In a document with nested tags that is enough: a reader that stands
inside a view has open exactly the elements between the view's own and the innermost one, the count
is one more than those of the view's name among them, and so it comes to zero at the end tag that
belongs to the view. The outer views see the same events in between and are left behind that end
tag.

* `Lookout.Reads`: what a reader is given, and where it comes to
* `Lookout.Visits`: reading a document through views that are entered at their start tags and read
  to their ends
* `Lookout.Stands`: the elements that are open inside a view, and what is counted
* `Lookout.view_of_element`: what a view gives and where it leaves its source
-/

namespace ResourceShards.Markup

namespace Lookout

/-! ### Reading on -/

/-- A reader is given some events and stands at another place then. -/
inductive Reads : Lookout → List Event → Lookout → Prop
  /-- No event. -/
  | nil {l : Lookout} : Reads l [] l
  /-- An event and those that follow. -/
  | cons {l l' last : Lookout} {e : Event} {events : List Event} (h : l.next = (some e, l'))
      (hrest : Reads l' events last) : Reads l (e :: events) last

/-- `Reads` goes on where it stopped. -/
theorem Reads.append {l l' last : Lookout} {events more : List Event} (h : l.Reads events l')
    (hmore : l'.Reads more last) : l.Reads (events ++ more) last := by
  induction h with
  | nil => exact hmore
  | cons hnext _ ih => exact .cons hnext (ih hmore)

theorem drain_of_none {l last : Lookout} (h : l.next = (none, last)) : l.drain = ([], last) := by
  unfold drain
  split
  · rename_i last' h'
    rw [h] at h'
    rw [(Prod.mk.inj h').2]
  · rename_i e l' h'
    rw [h] at h'
    cases h'

theorem drain_of_some {l l' : Lookout} {e : Event} (h : l.next = (some e, l')) :
    l.drain = (e :: l'.drain.1, l'.drain.2) := by
  rw [drain]
  split
  · rename_i last h'
    rw [h] at h'
    cases h'
  · rename_i e' l'' h'
    rw [h] at h'
    obtain ⟨he, rfl⟩ := Prod.mk.inj h'
    rw [Option.some.inj he]

/-- What `drain` gives behind some events is the rest of what it would have given before them. -/
theorem Reads.drain {l last : Lookout} {events : List Event} (h : l.Reads events last) :
    l.drain = (events ++ last.drain.1, last.drain.2) := by
  induction h with
  | nil => rfl
  | cons hnext _ ih => rw [drain_of_some hnext, ih]; rfl

/-! ### One window -/

end Lookout

namespace Window

/-- `pass` changes no event. -/
theorem eq_of_pass {w : Window} {e given : Event} (h : (w.pass e).1 = some given) :
    given = e := by
  unfold pass at h
  split at h
  · exact (Option.some.inj h).symm
  · grind
  · exact (Option.some.inj h).symm

/-- The count is not negative, and positive as long as the view goes on. -/
structure Counts (w : Window) : Prop where
  /-- The count is not negative. -/
  nonneg : 0 ≤ w.depth
  /-- It is not zero before the end. -/
  pos : w.done = false → 0 < w.depth

theorem Counts.pass {w : Window} (h : w.Counts) (hdone : w.done = false) (e : Event) :
    (w.pass e).2.Counts := by
  have hpos := h.pos hdone
  unfold Window.pass
  split
  · constructor <;> grind
  · constructor <;> grind
  · exact h

/-- Inside its element a window does `pass` every event, and counts the open elements of its name.
-/
theorem pass_of_openAfter? {w : Window} {e : Event} {inner inner' : List Name}
    (hdepth : w.depth = 1 + inner.count w.name)
    (h : e.token.openAfter? inner = some inner') :
    w.pass e = (some e, { w with depth := 1 + inner'.count w.name }) := by
  rcases e.token.tag_or_names_eq_nil with ⟨tag, htoken⟩ | ⟨found, htoken⟩ | hplain
  · rw [htoken] at h
    obtain rfl := Option.some.inj h
    by_cases hname : tag.name = w.name
    · simp [pass, htoken, hname, hdepth, add_assoc]
    · simp [pass, htoken, hname, hdepth]
  · rw [htoken] at h
    cases inner with
    | nil => cases h
    | cons top outer =>
        simp only [Token.openAfter?, Option.ite_none_right_eq_some, Option.some.injEq] at h
        obtain ⟨rfl, rfl⟩ := h
        have hpos : (1 : Int) + outer.count w.name ≠ 0 := by omega
        by_cases hname : top = w.name
        · have hless : w.depth - 1 = 1 + outer.count w.name := by
            simp [hdepth, hname, add_comm]
          simp [pass, htoken, hname, hless, hpos]
        · have hsame : w.depth = 1 + outer.count w.name := by simp [hdepth, hname]
          simp [pass, htoken, hname, hsame, hpos]
  · rw [Token.openAfter?_of_names_eq_nil hplain] at h
    obtain rfl := Option.some.inj h
    rw [← hdepth]
    unfold pass
    split
    · rename_i tag htoken
      rw [htoken] at hplain
      cases hplain
    · rename_i found htoken
      rw [htoken] at hplain
      cases hplain
    · rfl

/-- With no element open inside, the end tag of its own element ends a window. -/
theorem pass_finish {w : Window} {e : Event} (hdepth : w.depth = 1)
    (h : e.token = .finish w.name) :
    w.pass e = (none, { w with depth := 0, done := true, closed := true }) := by
  simp [pass, h, hdepth]

end Window

namespace Lookout

/-! ### Windows set into each other -/

/-- An event that a view gives by `next` is the `next` of its source. -/
theorem next_outer {w : Window} {outer l' : Lookout} {e : Event}
    (h : (through w outer).next = (some e, l')) :
    ∃ w' outer', l' = through w' outer' ∧ outer.next = (some e, outer') := by
  unfold next at h
  split at h
  · cases h
  · split at h
    · cases h
    · rename_i e' outer' houter
      obtain ⟨hgiven, rfl⟩ := Prod.mk.inj h
      rw [Window.eq_of_pass hgiven]
      exact ⟨_, _, rfl, houter⟩

/-- What a view `Reads` its source reads. -/
theorem Reads.outer {w : Window} {outer last : Lookout} {events : List Event}
    (h : (through w outer).Reads events last) :
    ∃ w' outer', last = through w' outer' ∧ outer.Reads events outer' := by
  induction events generalizing w outer with
  | nil =>
      cases h
      exact ⟨w, outer, rfl, .nil⟩
  | cons e events ih =>
      cases h with
      | cons hnext hrest =>
          obtain ⟨w', outer', rfl, houter⟩ := next_outer hnext
          obtain ⟨w'', outer'', rfl, hreads⟩ := ih hrest
          exact ⟨w'', outer'', rfl, .cons houter hreads⟩

/-- A reader stands where `inner` are the elements, innermost first, that are open inside its view.
The views count those of their names. The tags that follow are nested, and `last` are the elements
that the document leaves open. -/
inductive Stands (last : List Name) : Lookout → List Name → Prop
  /-- In the document, where the elements that are open are inside nothing. -/
  | document {ahead : List Event} {opened : List Name} (h : openAfter? opened ahead = some last) :
      Stands last (document ahead) opened
  /-- In a view of an element: outside it there are also that element and those around it. -/
  | through {w : Window} {outer : Lookout} {inner around : List Name}
      (houter : Stands last outer (inner ++ w.name :: around)) (hdone : w.done = false)
      (hclosed : w.closed = false) (hdepth : w.depth = 1 + inner.count w.name) :
      Stands last (through w outer) inner

namespace Stands

variable {last : List Name}

/-- The view that `enter` sets up for the innermost element has nothing open inside. -/
theorem enter {l : Lookout} {name : Name} {around : List Name}
    (h : l.Stands last (name :: around)) : (l.enter name).Stands last [] :=
  .through h rfl rfl rfl

/-- Where a lookout `Stands`, some elements that are open in the document may be around the view. -/
theorem nested {l : Lookout} {inner : List Name} (h : l.Stands last inner) :
    ∃ around, openAfter? (inner ++ around) l.ahead = some last := by
  induction h with
  | document h => exact ⟨[], by rwa [List.append_nil]⟩
  | @through w outer inner around _ _ _ _ ih =>
      obtain ⟨more, hmore⟩ := ih
      exact ⟨w.name :: around ++ more, by rwa [← List.append_assoc]⟩

/-- `next` gives an event that may stand in the view. The only other one is the end tag of the
view's element: it ends the view, and what the view reads from goes on behind it. -/
theorem next {l : Lookout} {inner : List Name} {e : Event} {rest : List Event}
    (h : l.Stands last inner) (hahead : l.ahead = e :: rest) :
    (∃ inner' l', e.token.openAfter? inner = some inner' ∧ l.next = (some e, l') ∧
        l'.Stands last inner' ∧ l'.ahead = rest) ∨
      ∃ w outer outer' around, l = .through w outer ∧ inner = [] ∧ e.token = .finish w.name ∧
        l.next = (none, .through { w with depth := 0, done := true, closed := true } outer') ∧
        outer.next = (some e, outer') ∧ outer'.Stands last around ∧ outer'.ahead = rest := by
  induction h with
  | document h =>
      obtain rfl := hahead
      rw [openAfter?_cons, Option.bind_eq_some_iff] at h
      obtain ⟨inner', hinner, hrest⟩ := h
      exact .inl ⟨inner', _, hinner, rfl, .document hrest, rfl⟩
  | @through w outer inner around houter hdone hclosed hdepth ih =>
      -- the source gives the event in any case, since the view's element is open there
      rcases ih hahead with
        ⟨names, outer', hnames, hnext, hstands, hrest⟩ | ⟨_, _, _, _, _, hnil, _⟩
      · rcases Token.openAfter?_append_cons hnames with ⟨hend, rfl, rfl⟩ | ⟨inner', hinner, rfl⟩
        · refine .inr ⟨w, outer, outer', names, rfl, rfl, hend, ?_, hnext, hstands, hrest⟩
          simp [Lookout.next, hdone, hnext, Window.pass_finish hdepth hend]
        · refine .inl ⟨inner', .through { w with depth := 1 + inner'.count w.name } outer', hinner,
            ?_, .through hstands hdone hclosed rfl, hrest⟩
          simp [Lookout.next, hdone, hnext, Window.pass_of_openAfter? hdepth hinner]
      · exact absurd hnil (List.append_ne_nil_of_right_ne_nil _ (List.cons_ne_nil _ _))

/-- Where the document ends `next` gives nothing, and no view is closed by that. -/
theorem next_nil {l : Lookout} {inner : List Name} (h : l.Stands last inner)
    (hahead : l.ahead = []) :
    l.next.1 = none ∧ l.next.2.ahead = [] ∧ l.next.2.isClosed = false := by
  induction h with
  | document h =>
      obtain rfl := hahead
      exact ⟨rfl, rfl, rfl⟩
  | @through w outer inner around _ hdone hclosed _ ih =>
      obtain ⟨hnone, hrest, -⟩ := ih hahead
      have hnext : outer.next = (none, outer.next.2) := Prod.ext hnone rfl
      unfold Lookout.next
      rw [hnext]
      simp [hdone, hclosed, isClosed, Lookout.ahead, hrest]

/-- A view `Reads` all events that its element holds. -/
theorem reads {l : Lookout} {inner inner' : List Name} {events rest : List Event}
    (h : l.Stands last inner) (hahead : l.ahead = events ++ rest)
    (hnested : openAfter? inner events = some inner') :
    ∃ l', l.Reads events l' ∧ l'.Stands last inner' ∧ l'.ahead = rest := by
  induction events generalizing l inner with
  | nil =>
      obtain rfl := Option.some.inj hnested
      exact ⟨l, .nil, h, hahead⟩
  | cons e events ih =>
      rw [openAfter?_cons, Option.bind_eq_some_iff] at hnested
      obtain ⟨names, hfirst, hrest⟩ := hnested
      rcases h.next hahead with
        ⟨names', l', hnames, hnext, hstands, hahead'⟩ | ⟨w, _, _, _, _, rfl, hend, _⟩
      · obtain rfl := Option.some.inj (hfirst.symm.trans hnames)
        obtain ⟨l'', hreads, hlast⟩ := ih hstands hahead' hrest
        exact ⟨l'', .cons hnext hreads, hlast⟩
      · -- the end tag of the view's element may not stand among them
        rw [hend] at hfirst
        cases hfirst

/-- The view that `enter` sets up for an element that is closed gives what stands between the tags,
and leaves its source where that would be behind the end tag. -/
theorem drain_of_closes {l : Lookout} {name : Name} {around : List Name} {inside rest : List Event}
    {closing : Nat} (h : l.Stands last (name :: around))
    (hcloses : Closes name l.ahead inside closing rest) :
    (l.enter name).drain.1 = inside ∧ (l.enter name).drain.2.isClosed = true ∧
      (l.enter name).drain.2.leave.ahead = rest ∧
      l.Reads (inside ++ [⟨closing, .finish name⟩]) (l.enter name).drain.2.leave := by
  obtain ⟨l', hreads, hstands, hahead⟩ := h.enter.reads hcloses.eq hcloses.nested
  rcases hstands.next hahead with
    ⟨_, _, hend, _⟩ | ⟨w, outer, outer', _, rfl, -, hend, hnext, houter, -, hrest⟩
  · cases hend
  · obtain ⟨w', l'', heq, hsource⟩ := hreads.outer
    obtain ⟨rfl, rfl⟩ := Lookout.through.inj heq
    rw [hreads.drain, drain_of_none hnext, List.append_nil]
    exact ⟨rfl, rfl, hrest, hsource.append (.cons houter .nil)⟩

/-- The view that `enter` sets up for an element that is never closed gives all events that are left
and is not closed. -/
theorem drain_of_open {l : Lookout} {name : Name} {around inner : List Name}
    (h : l.Stands last (name :: around)) (hopen : openAfter? [] l.ahead = some inner) :
    (l.enter name).drain.1 = l.ahead ∧ (l.enter name).drain.2.isClosed = false := by
  have hahead : (l.enter name).ahead = l.ahead ++ [] := (List.append_nil l.ahead).symm
  obtain ⟨l', hreads, hstands, hnil⟩ := h.enter.reads hahead hopen
  obtain ⟨hnone, -, hclosed⟩ := hstands.next_nil hnil
  rw [hreads.drain, drain_of_none (Prod.ext hnone rfl), List.append_nil]
  exact ⟨rfl, hclosed⟩

end Stands

/-! ### Reading a document -/

/-- Where reading a document comes to, if every element is entered at its start tag and is only left
at its end; the event that has just been read, if it was one, comes with the reader. -/
inductive Visits (events : List Event) : Lookout → Option Event → Prop
  /-- Nothing was read. -/
  | start : Visits events (document events) none
  /-- One more event was asked for. -/
  | read {l : Lookout} {just? : Option Event} (h : Visits events l just?) :
      Visits events l.next.2 l.next.1
  /-- An element was entered behind its start tag. -/
  | enter {l : Lookout} {e : Event} {tag : StartTag} (h : Visits events l (some e))
      (hstart : e.token = .start tag) : Visits events (l.enter tag.name) none
  /-- A view was left that had nothing more to give. -/
  | leave {w : Window} {outer : Lookout} {just? : Option Event}
      (h : Visits events (through w outer) just?) (hdone : w.done = true) :
      Visits events outer none

/-- A reader stands in a document, or in views that have ended with readers outside that still
stand there. -/
inductive Rests (last : List Name) : Lookout → Prop
  /-- The view goes on. -/
  | standing {l : Lookout} {inner : List Name} (h : l.Stands last inner) : Rests last l
  /-- The view has ended. -/
  | ended {w : Window} {outer : Lookout} (hdone : w.done = true) (houter : Rests last outer) :
      Rests last (through w outer)

theorem Stands.rests_next_of_nil {last inner : List Name} {l : Lookout} (h : l.Stands last inner)
    (hahead : l.ahead = []) : Rests last l.next.2 := by
  induction h with
  | document h =>
      obtain rfl := hahead
      exact .standing (.document h)
  | @through w outer inner around houter hdone _ _ ih =>
      have hnext : outer.next = (none, outer.next.2) := Prod.ext (houter.next_nil hahead).1 rfl
      unfold Lookout.next
      rw [hnext]
      simpa [hdone] using Rests.ended (w := { w with done := true }) rfl (ih hahead)

theorem Rests.next {last : List Name} {l : Lookout} (h : Rests last l) : Rests last l.next.2 := by
  cases h with
  | standing hstands =>
      cases hahead : l.ahead with
      | nil => exact hstands.rests_next_of_nil hahead
      | cons e rest =>
          rcases hstands.next hahead with
            ⟨_, l', _, hnext, hstands', _⟩ | ⟨w, _, outer', _, _, _, _, hnext, _, hstands', _⟩
          · rw [hnext]
            exact .standing hstands'
          · rw [hnext]
            exact .ended rfl (.standing hstands')
  | ended hdone houter =>
      simp only [Lookout.next, hdone, if_true]
      exact .ended hdone houter

/-- The event that `next` gives is the next one `ahead` in the document. -/
theorem Rests.ahead_of_next {last : List Name} {l l' : Lookout} {e : Event} (h : Rests last l)
    (hnext : l.next = (some e, l')) :
    l.ahead = e :: l'.ahead ∧
      ∃ inner inner', e.token.openAfter? inner = some inner' ∧ l'.Stands last inner' := by
  cases h with
  | @standing _ inner hstands =>
      cases hahead : l.ahead with
      | nil =>
          have hnone := (hstands.next_nil hahead).1
          rw [hnext] at hnone
          cases hnone
      | cons e' rest =>
          rcases hstands.next hahead with
            ⟨inner', l'', hinner, hnext', hstands', hrest⟩ | ⟨_, _, _, _, _, _, _, hnext', _⟩
          · rw [hnext] at hnext'
            obtain ⟨he, rfl⟩ := Prod.mk.inj hnext'
            obtain rfl := Option.some.inj he
            exact ⟨by rw [hrest], inner, inner', hinner, hstands'⟩
          · rw [hnext] at hnext'
            cases hnext'
  | ended hdone houter =>
      simp only [Lookout.next, hdone, if_true] at hnext
      cases hnext

/-- What holds of a reader in a document with nested tags. -/
structure Placed (events : List Event) (last : List Name) (l : Lookout) (just? : Option Event) :
    Prop where
  /-- The views that it stands in go on or have ended. -/
  rests : Rests last l
  /-- What is ahead is the rest of the document. -/
  suffix : l.ahead <:+ events
  /-- In front of that is the event that has just been read. -/
  just : ∀ e, just? = some e → e :: l.ahead <:+ events ∧
    ∃ inner inner', e.token.openAfter? inner = some inner' ∧ l.Stands last inner'

/-- `next` only goes on: what is `ahead` after it was at the end of what was ahead before. -/
theorem ahead_next_suffix (l : Lookout) : l.next.2.ahead <:+ l.ahead := by
  induction l with
  | document ahead =>
      cases ahead with
      | nil => exact List.suffix_refl []
      | cons e rest => exact List.suffix_cons e rest
  | through w outer ih =>
      unfold next
      split
      · exact List.suffix_refl _
      · split
        · rename_i outer' h
          rwa [h] at ih
        · rename_i e outer' h
          rwa [h] at ih

theorem Visits.placed {events : List Event} {last : List Name} {l : Lookout} {just? : Option Event}
    (hnested : openAfter? [] events = some last) (h : Visits events l just?) :
    Placed events last l just? := by
  induction h with
  | start => exact ⟨.standing (.document hnested), List.suffix_refl events, fun _ => nofun⟩
  | @read l _ _ ih =>
      refine ⟨ih.rests.next, l.ahead_next_suffix.trans ih.suffix, fun e he => ?_⟩
      obtain ⟨hahead, hstands⟩ := ih.rests.ahead_of_next (Prod.ext he rfl)
      exact ⟨hahead ▸ ih.suffix, hstands⟩
  | enter _ hstart ih =>
      obtain ⟨-, inner, inner', hinner, hstands⟩ := ih.just _ rfl
      rw [hstart] at hinner
      obtain rfl := Option.some.inj hinner
      exact ⟨.standing hstands.enter, ih.suffix, fun _ => nofun⟩
  | leave _ hdone ih =>
      refine ⟨?_, ih.suffix, fun _ => nofun⟩
      cases ih.rests with
      | standing h =>
          cases h with
          | through _ hgoes => rw [hdone] at hgoes; cases hgoes
      | ended _ houter => exact houter

/-! ### Any calls -/

theorem windows_next {l : Lookout} (h : ∀ w ∈ l.windows, w.Counts) :
    ∀ w ∈ l.next.2.windows, w.Counts := by
  induction l with
  | document ahead =>
      cases ahead with
      | nil => exact h
      | cons e rest => exact fun _ => nofun
  | through w outer ih =>
      have hw : w.Counts := h w List.mem_cons_self
      have houter := ih fun v hv => h v (List.mem_cons_of_mem _ hv)
      unfold next
      split
      · exact h
      · rename_i hdone
        split
        · rename_i outer' hnext
          rw [hnext] at houter
          exact List.forall_mem_cons.2 ⟨⟨hw.nonneg, fun hnot => Bool.noConfusion hnot⟩, houter⟩
        · rename_i e outer' hnext
          rw [hnext] at houter
          exact List.forall_mem_cons.2 ⟨hw.pass (Bool.eq_false_iff.2 hdone) e, houter⟩

theorem windows_call {l : Lookout} (h : ∀ w ∈ l.windows, w.Counts) (c : Call) :
    ∀ w ∈ (l.call c).windows, w.Counts := by
  cases c with
  | next => exact windows_next h
  | enter name =>
      exact List.forall_mem_cons.2 ⟨⟨Int.one_nonneg, fun _ => Int.one_pos⟩, h⟩
  | leave =>
      cases l with
      | document ahead => exact h
      | through w outer => exact fun v hv => h v (List.mem_cons_of_mem _ hv)

/-- Every window `Counts` right, whatever is called, so that no count is ever negative. -/
theorem windows_run {l : Lookout} (h : ∀ w ∈ l.windows, w.Counts) (calls : List Call) :
    ∀ w ∈ (l.run calls).windows, w.Counts := by
  induction calls generalizing l with
  | nil => exact h
  | cons c calls ih => exact ih (windows_call h c)

/-! ### What a view gives -/

/-- **A view is exactly what its element holds.** Where a start tag has just been read from a
document with nested tags, at whatever depth of views, the view that `enter` sets up gives the
events in front of the end tag that belongs to it. It reads that end tag and nothing after it and is
closed then; what it was set into is left where it would have come to by reading the same events and
the end tag itself. Without that end tag, which only a document that leaves elements open can lack,
it gives all events that are left and is not closed. Whatever is called on whatever events, no count
falls below zero. -/
theorem view_of_element (events : List Event) :
    (∀ last, openAfter? [] events = some last → ∀ here offset tag,
      Visits events here (some ⟨offset, .start tag⟩) →
        ⟨offset, .start tag⟩ :: here.ahead <:+ events ∧
        let view := (here.enter tag.name).drain
        (∀ inside closing rest, Closes tag.name here.ahead inside closing rest →
          view.1 = inside ∧ view.2.isClosed = true ∧ view.2.leave.ahead = rest ∧
            here.Reads (inside ++ [⟨closing, .finish tag.name⟩]) view.2.leave) ∧
        ((¬ ∃ inside closing rest, Closes tag.name here.ahead inside closing rest) →
          last ≠ [] ∧ view.1 = here.ahead ∧ view.2.isClosed = false)) ∧
    ∀ calls, ∀ w ∈ ((document events).run calls).windows, 0 ≤ w.depth := by
  refine ⟨fun last hnested here offset tag hvisits => ?_, fun calls w hw => ?_⟩
  · obtain ⟨hsuffix, inner, inner', hinner, hstands⟩ := (hvisits.placed hnested).just _ rfl
    obtain rfl := Option.some.inj hinner
    refine ⟨hsuffix, fun inside closing rest hcloses => hstands.drain_of_closes hcloses,
      fun hnone => ?_⟩
    obtain ⟨around, haround⟩ := hstands.nested
    rcases closes_or_open haround with hcloses | ⟨opened, hopen, rfl⟩
    · exact absurd hcloses hnone
    · exact ⟨List.append_ne_nil_of_right_ne_nil _ (List.cons_ne_nil _ _),
        hstands.drain_of_open hopen⟩
  · exact (windows_run (l := document events) (fun _ => nofun) calls w hw).nonneg

/-- In `<r><p><p></p>x</p></r>`, the view of the outer `p` that is set into the view of `r` gives
the inner `p` and the text, and is left in front of the end tag of `r`. Where the document ends
inside `p`, it gives the text that is left. -/
theorem view_of_element_in_view :
    let opening (name : String) : Event := ⟨0, .start ⟨.plain name, []⟩⟩
    let ending (name : String) : Event := ⟨1, .finish (.plain name)⟩
    let text : Event := ⟨2, .text "x"⟩
    let behind (events : List Event) := ((document events).next.2.enter (.plain "r")).next.2
    let following := [opening "p", ending "p", text, ending "p", ending "r"]
    let view := ((behind (opening "r" :: opening "p" :: following)).enter (.plain "p")).drain
    let left := ((behind [opening "r", opening "p", text]).enter (.plain "p")).drain
    (view.1 = [opening "p", ending "p", text] ∧ view.2.isClosed = true ∧
      view.2.leave.ahead = [ending "r"]) ∧
    left.1 = [text] ∧ left.2.isClosed = false := by
  intro opening ending text behind following view left
  have hvisits (events : List Event) :
      Visits (opening "r" :: opening "p" :: events) (behind (opening "r" :: opening "p" :: events))
        (some (opening "p")) := by
    have hroot : Visits (opening "r" :: opening "p" :: events)
        (document (opening "r" :: opening "p" :: events)).next.2 (some (opening "r")) :=
      .read .start
    have hinside : Visits (opening "r" :: opening "p" :: events)
        ((document (opening "r" :: opening "p" :: events)).next.2.enter (.plain "r")) none :=
      .enter hroot rfl
    exact .read hinside
  constructor
  · obtain ⟨hinside, hclosed, hrest, -⟩ :=
      ((view_of_element _).1 [] (by decide) _ _ _ (hvisits following)).2.1
        [opening "p", ending "p", text] 1 [ending "r"] ⟨by decide, by decide⟩
    exact ⟨hinside, hclosed, hrest⟩
  · have hnone : ¬ ∃ inside closing rest, Closes (.plain "p") [text] inside closing rest := by
      rintro ⟨inside, closing, rest, heq, -⟩
      have hmem : ⟨closing, .finish (.plain "p")⟩ ∈ [text] := heq ▸ by simp
      exact absurd (congrArg Event.token (List.mem_singleton.1 hmem)) nofun
    exact (((view_of_element _).1 [.plain "p", .plain "r"] (by decide) _ _ _
      (hvisits [text])).2.2 hnone).2

end Lookout

end ResourceShards.Markup
