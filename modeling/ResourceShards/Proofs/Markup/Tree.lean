import ResourceShards.Markup.View
import ResourceShards.Proofs.Markup.Fidelity

/-!
# ResourceShards.Proofs.Markup.Tree

**Documents as trees.** Readers see a document as a row of events and cut it at end tags that they
find by counting. A decoder only gives rows in which tags are nested, so that every row is that of a
tree: content and elements, and at the end perhaps elements that are never closed, each inside the
one before. Cutting such a row at the end tag of an element gives the row of what the element holds.

* `Forest`, `DocumentTree`: what events can stand for
* `Document.exists_tree`: the events of every document are those of a tree
* `View.enter_element`, `View.enter_open`: what a view of an element holds
* `DocumentTree.first?`: the first element of some kind, with its ancestors
-/

namespace ResourceShards.Markup

/-! ### Trees -/

/-- Content and elements, one after the other. -/
inductive Forest where
  /-- Nothing. -/
  | nil
  /-- Text, a comment or the like, and what follows it. -/
  | content (e : Event) (plain : e.token.names = []) (rest : Forest)
  /-- An element and what follows it. The numbers are the offsets of its tags. -/
  | element (opening : Nat) (tag : StartTag) (inside : Forest) (closing : Nat) (rest : Forest)

namespace Forest

/-- The events of a forest, in document order. -/
def events : Forest → List Event
  | nil => []
  | content e _ rest => e :: rest.events
  | element opening tag inside closing rest =>
    ⟨opening, .start tag⟩ :: (inside.events ++ ⟨closing, .finish tag.name⟩ :: rest.events)

/-- One forest after the other. -/
def append : Forest → Forest → Forest
  | nil, more => more
  | content e plain rest, more => content e plain (rest.append more)
  | element opening tag inside closing rest, more =>
    element opening tag inside closing (rest.append more)

/-- The elements at the top: their tags and what they hold. -/
def children : Forest → List (StartTag × Forest)
  | nil => []
  | content _ _ rest => rest.children
  | element _ tag inside _ rest => (tag, inside) :: rest.children

/-- All start tags, in document order. -/
def tags : Forest → List StartTag
  | nil => []
  | content _ _ rest => rest.tags
  | element _ tag inside _ rest => tag :: (inside.tags ++ rest.tags)

@[simp] theorem events_append (f more : Forest) :
    (f.append more).events = f.events ++ more.events := by
  induction f with
  | nil => rfl
  | content e plain rest ih => simp [append, events, ih]
  | element opening tag inside closing rest _ ih => simp [append, events, ih]

end Forest

/-- A document, which may end inside elements: a forest, or one followed by an element that is never
closed. -/
inductive DocumentTree where
  /-- No element is left open. -/
  | whole (forest : Forest)
  /-- An element with the rest of the document inside. -/
  | inside (before : Forest) (offset : Nat) (tag : StartTag) (inner : DocumentTree)

namespace DocumentTree

/-- The events of a tree, in document order. -/
def events : DocumentTree → List Event
  | whole forest => forest.events
  | inside before offset tag inner => before.events ++ ⟨offset, .start tag⟩ :: inner.events

/-- The names of the elements that are left open, innermost first. -/
def opened : DocumentTree → List Name
  | whole _ => []
  | inside _ _ tag inner => inner.opened ++ [tag.name]

theorem opened_inside_ne_nil (before : Forest) (offset : Nat) (tag : StartTag)
    (inner : DocumentTree) : (inside before offset tag inner).opened ≠ [] :=
  List.append_ne_nil_of_right_ne_nil _ (List.cons_ne_nil _ _)

theorem eq_whole_of_opened {t : DocumentTree} (h : t.opened = []) : ∃ forest, t = whole forest := by
  cases t with
  | whole forest => exact ⟨forest, rfl⟩
  | inside before offset tag inner => exact absurd h (opened_inside_ne_nil before offset tag inner)

end DocumentTree

/-! ### Nested tags -/

/-- The names of the elements that are open after a token, innermost first, if the token may stand
where those of `opened` are. -/
def Token.openAfter? (opened : List Name) : Token → Option (List Name)
  | .start tag => some (tag.name :: opened)
  | .finish name =>
    match opened with
    | [] => none
    | top :: outer => if top = name then some outer else none
  | _ => some opened

/-- The names of the elements that are open after some events. -/
def openAfter? (opened : List Name) (events : List Event) : Option (List Name) :=
  events.foldlM (fun opened e => e.token.openAfter? opened) opened

theorem Token.openAfter?_of_names_eq_nil {t : Token} (h : t.names = []) (opened : List Name) :
    t.openAfter? opened = some opened := by
  cases t with
  | start tag => exact absurd h (List.cons_ne_nil _ _)
  | finish name => exact absurd h (List.cons_ne_nil _ _)
  | _ => rfl

@[simp] theorem openAfter?_nil (opened : List Name) : openAfter? opened [] = some opened := rfl

@[simp] theorem openAfter?_cons (opened : List Name) (e : Event) (rest : List Event) :
    openAfter? opened (e :: rest) = (e.token.openAfter? opened).bind (openAfter? · rest) := rfl

@[simp] theorem openAfter?_append (opened : List Name) (a b : List Event) :
    openAfter? opened (a ++ b) = (openAfter? opened a).bind (openAfter? · b) :=
  List.foldlM_append

theorem Event.start?_of_names_eq_nil {e : Event} (h : e.token.names = []) : e.start? = none := by
  obtain ⟨offset, token⟩ := e
  cases token with
  | start tag => exact absurd h (List.cons_ne_nil _ _)
  | _ => rfl

theorem Forest.filterMap_start? (f : Forest) : f.events.filterMap Event.start? = f.tags := by
  induction f with
  | nil => rfl
  | content e plain rest ih =>
      rw [events, List.filterMap_cons_none (Event.start?_of_names_eq_nil plain), ih, tags]
  | element opening tag inside closing rest ihInside ih =>
      simp [events, tags, List.filterMap_cons, Event.start?, ihInside, ih]

/-- A `Forest` closes what it opens. -/
@[simp] theorem Forest.openAfter?_events (f : Forest) (opened : List Name) :
    openAfter? opened f.events = some opened := by
  induction f generalizing opened with
  | nil => rfl
  | content e plain rest ih => simp [events, Token.openAfter?_of_names_eq_nil plain, ih]
  | element opening tag inside closing rest ihInside ih =>
      simp [events, Token.openAfter?, ihInside, ih]

/-- Behind the events of a `DocumentTree` its `opened` elements are open. -/
theorem DocumentTree.openAfter?_events (t : DocumentTree) (opened : List Name) :
    openAfter? opened t.events = some (t.opened ++ opened) := by
  induction t generalizing opened with
  | whole forest => exact forest.openAfter?_events opened
  | inside before offset tag inner ih => simp [events, DocumentTree.opened, Token.openAfter?, ih]

/-- The `opened` elements of a tree are told by its events. -/
theorem DocumentTree.opened_congr {t t' : DocumentTree} (h : t.events = t'.events) :
    t.opened = t'.opened := by
  have hopened := t.openAfter?_events []
  rw [h, t'.openAfter?_events, List.append_nil, List.append_nil] at hopened
  exact (Option.some.inj hopened).symm

/-- Where elements are open inside `outer`, a token closes `outer` or leaves it open. -/
theorem Token.openAfter?_append_cons {t : Token} {opened around after : List Name} {outer : Name}
    (h : t.openAfter? (opened ++ outer :: around) = some after) :
    (t = .finish outer ∧ opened = [] ∧ after = around) ∨
      ∃ inner, t.openAfter? opened = some inner ∧ after = inner ++ outer :: around := by
  rcases t.tag_or_names_eq_nil with ⟨tag, rfl⟩ | ⟨name, rfl⟩ | hplain
  · obtain rfl := Option.some.inj h
    exact .inr ⟨_, rfl, rfl⟩
  · unfold openAfter? at h ⊢
    cases opened with
    | nil =>
        simp only [List.nil_append] at h
        split at h
        · rename_i hname
          exact .inl ⟨by rw [hname], rfl, (Option.some.inj h).symm⟩
        · exact absurd h.symm (Option.some_ne_none _)
    | cons top opened =>
        simp only [List.cons_append] at h ⊢
        split at h
        · rename_i hname
          exact .inr ⟨opened, if_pos hname, (Option.some.inj h).symm⟩
        · exact absurd h.symm (Option.some_ne_none _)
  · rw [openAfter?_of_names_eq_nil hplain] at h ⊢
    exact .inr ⟨opened, rfl, (Option.some.inj h).symm⟩

/-- Where the events that follow a start tag close its element: at an end tag of its name that has
only nested tags in front. -/
structure Closes (name : Name) (following inside : List Event) (closing : Nat)
    (rest : List Event) : Prop where
  /-- What the end tag stands between. -/
  eq : following = inside ++ ⟨closing, .finish name⟩ :: rest
  /-- What stands in front of it closes all that it opens. -/
  nested : openAfter? [] inside = some []

/-- Events that go on inside `outer` come to its end tag or leave it open. -/
theorem openAfter?_append_cons {opened around after : List Name} {outer : Name}
    {events : List Event} (h : openAfter? (opened ++ outer :: around) events = some after) :
    (∃ inside closing rest, events = inside ++ ⟨closing, .finish outer⟩ :: rest ∧
        openAfter? opened inside = some []) ∨
      ∃ inner, openAfter? opened events = some inner ∧ after = inner ++ outer :: around := by
  induction events generalizing opened with
  | nil => exact .inr ⟨opened, rfl, (Option.some.inj h).symm⟩
  | cons e events ih =>
      rw [openAfter?_cons, Option.bind_eq_some_iff] at h
      obtain ⟨names, hfirst, hrest⟩ := h
      rcases Token.openAfter?_append_cons hfirst with ⟨hend, rfl, -⟩ | ⟨inner, hinner, rfl⟩
      · exact .inl ⟨[], e.offset, events, by rw [← hend]; rfl, rfl⟩
      · rcases ih hrest with ⟨inside, closing, rest, rfl, hnested⟩ | ⟨left, hleft, rfl⟩
        · exact .inl ⟨e :: inside, closing, rest, rfl, by simpa [hinner] using hnested⟩
        · exact .inr ⟨left, by simpa [hinner] using hleft, rfl⟩

/-- The events that follow a start tag `Closes` its element or leave it open. -/
theorem closes_or_open {around after : List Name} {name : Name} {following : List Event}
    (h : openAfter? (name :: around) following = some after) :
    (∃ inside closing rest, Closes name following inside closing rest) ∨
      ∃ inner, openAfter? [] following = some inner ∧ after = inner ++ name :: around := by
  have hfront : openAfter? ([] ++ name :: around) following = some after := h
  rcases openAfter?_append_cons hfront with ⟨inside, closing, rest, heq, hnested⟩ | hopen
  · exact .inl ⟨inside, closing, rest, heq, hnested⟩
  · exact .inr hopen

/-- A `DocumentTree` goes on with any event that may stand where it ends. -/
theorem DocumentTree.exists_concat (t : DocumentTree) (e : Event) {after : List Name}
    (h : e.token.openAfter? t.opened = some after) :
    ∃ t' : DocumentTree, t'.events = t.events ++ [e] ∧ t'.opened = after := by
  obtain ⟨offset, token⟩ := e
  induction t generalizing after with
  | whole forest =>
      rcases token.tag_or_names_eq_nil with ⟨tag, rfl⟩ | ⟨name, rfl⟩ | hplain
      · exact ⟨.inside forest offset tag (.whole .nil), rfl, Option.some.inj h⟩
      · exact absurd h.symm (Option.some_ne_none _)
      · rw [Token.openAfter?_of_names_eq_nil hplain] at h
        have hopened := Option.some.inj h
        refine ⟨.whole (forest.append (.content ⟨offset, token⟩ hplain .nil)), ?_, hopened⟩
        simp [events, Forest.events]
  | inside before opening tag inner ih =>
      rcases Token.openAfter?_append_cons h with ⟨rfl, hinner, rfl⟩ | ⟨names, hnames, rfl⟩
      · -- the end tag closes the innermost element that is open
        obtain ⟨forest, rfl⟩ := eq_whole_of_opened hinner
        refine ⟨.whole (before.append (.element opening tag forest offset .nil)), ?_, rfl⟩
        simp [events, Forest.events]
      · obtain ⟨inner', hevents, hopened⟩ := ih hnames
        refine ⟨.inside before opening tag inner', ?_, ?_⟩
        · simp [events, hevents]
        · rw [opened, hopened]

/-- Events whose tags are nested are those of a `DocumentTree`. -/
theorem exists_tree_of_openAfter? {events : List Event} {after : List Name}
    (h : openAfter? [] events = some after) :
    ∃ t : DocumentTree, t.events = events ∧ t.opened = after := by
  -- by the last event, since an end tag tells only at the end of an element that it is closed
  induction events using List.reverseRecOn generalizing after with
  | nil => exact ⟨.whole .nil, rfl, Option.some.inj h⟩
  | append_singleton events e ih =>
      rw [openAfter?_append, Option.bind_eq_some_iff] at h
      obtain ⟨names, hevents, hlast⟩ := h
      obtain ⟨t, rfl, rfl⟩ := ih hevents
      rw [openAfter?_cons, Option.bind_eq_some_iff] at hlast
      obtain ⟨names', hlast, hnil⟩ := hlast
      obtain rfl := Option.some.inj hnil
      exact t.exists_concat e hlast

/-! ### Documents -/

namespace Decoder

/-- The names of the open elements, innermost first, with one whose end is due. -/
def openNames (d : Decoder) : List Name :=
  (d.due.toList ++ d.opened).map OpenElement.name

/-- `closeElement` closes the innermost element. -/
theorem eq_cons_of_closeElement {opened outer : List OpenElement} {raw : Bytes} {e : OpenElement}
    (h : closeElement opened raw = .ok (e, outer)) : opened = e :: outer := by
  unfold closeElement at h
  split at h
  · cases h
  · split at h
    · obtain ⟨rfl, rfl⟩ := Prod.mk.inj (Except.ok.inj h)
      rfl
    · cases h

/-- The tag that `openElement` reports has the name of the element. -/
theorem name_of_openElement {mode : Strictness} {outer : List Binding} {raw : Bytes}
    {e : OpenElement} {tag : StartTag} (h : openElement mode outer raw = .ok (e, tag)) :
    tag.name = e.name := by
  simp only [openElement, bind, Except.bind] at h
  split at h
  · cases h
  · split at h
    · cases h
    · split at h
      · cases h
      · obtain ⟨rfl, rfl⟩ := Prod.mk.inj (Except.ok.inj h)
        rfl

/-- An event that `Decoder.piece` gives may stand where the decoder is. -/
theorem openAfter?_piece {mode : Strictness} {d next : Decoder} {lexeme : Lexeme} {taken : Nat}
    {rest : Bytes} {e : Event} (hdue : d.due = none)
    (h : d.piece mode lexeme taken rest = .event e next) :
    e.token.openAfter? d.openNames = some next.openNames := by
  cases lexeme with
  | startTag raw closesItself =>
      simp only [piece] at h
      split at h
      · exact Step.noConfusion h
      · rename_i opened tag hopen
        -- an element that its own tag closes is due, any other is open
        split at h
        · obtain ⟨rfl, rfl⟩ := Step.event.inj h
          simp [openNames, hdue, Token.openAfter?, name_of_openElement hopen]
        · obtain ⟨rfl, rfl⟩ := Step.event.inj h
          simp [openNames, hdue, Token.openAfter?, name_of_openElement hopen]
  | endTag raw =>
      simp only [piece] at h
      split at h
      · exact Step.noConfusion h
      · rename_i closed outer hclose
        obtain ⟨rfl, rfl⟩ := Step.event.inj h
        simp [openNames, hdue, Token.openAfter?, eq_cons_of_closeElement hclose]
  | text raw =>
      simp only [piece] at h
      split at h
      · obtain ⟨rfl, rfl⟩ := Step.event.inj h
        rfl
      · exact Step.noConfusion h
  | _ =>
      obtain ⟨rfl, rfl⟩ := Step.event.inj h
      rfl

/-- An event that `Decoder.step` gives may stand where the decoder is, and leads to its `openNames`.
-/
theorem openAfter?_step {mode : Strictness} {d next : Decoder} {e : Event}
    (h : d.step mode = .event e next) : e.token.openAfter? d.openNames = some next.openNames := by
  unfold step at h
  split at h
  · rename_i due hdue
    obtain ⟨rfl, rfl⟩ := Step.event.inj h
    simp [openNames, hdue, Token.openAfter?]
  · rename_i hdue
    split at h
    · unfold atEnd at h
      split at h <;> exact Step.noConfusion h
    · exact Step.noConfusion h
    · exact openAfter?_piece hdue h

/-- `Decoder.piece` is never the end of the document. -/
theorem piece_ne_finished (mode : Strictness) (d : Decoder) (lexeme : Lexeme) (taken : Nat)
    (rest : Bytes) : d.piece mode lexeme taken rest ≠ .finished := by
  intro h
  unfold piece plainEvent at h
  repeat' split at h
  all_goals cases h

/-- `Decoder.step` ends a document only where no element is open. -/
theorem openNames_of_finished {mode : Strictness} {d : Decoder} (h : d.step mode = .finished) :
    d.openNames = [] := by
  unfold step at h
  split at h
  · exact Step.noConfusion h
  · rename_i hdue
    split at h
    · unfold atEnd at h
      split at h
      · rename_i hopened
        simp [openNames, hdue, List.isEmpty_iff.1 hopened]
      · exact Step.noConfusion h
    · exact Step.noConfusion h
    · exact absurd h (piece_ne_finished _ _ _ _ _)

/-- The events that `Decoder.run` reads are nested, and if nothing is wrong they close all that is
open. -/
theorem run_nested (mode : Strictness) (d : Decoder) (seen : List Event) :
    ∃ events after, (d.run mode seen).1 = events.reverse ++ seen ∧
      openAfter? d.openNames events = some after ∧ ((d.run mode seen).2 = none → after = []) := by
  fun_induction run mode d seen with
  | case1 d seen hstep =>
      exact ⟨[], d.openNames, rfl, rfl, fun _ => openNames_of_finished hstep⟩
  | case2 d seen e hstep =>
      exact ⟨[], d.openNames, rfl, rfl, fun h => absurd h (Option.some_ne_none e)⟩
  | case3 d seen e next hstep ih =>
      obtain ⟨events, after, hrun, hnested, hend⟩ := ih
      refine ⟨e :: events, after, by rw [hrun]; simp, ?_, hend⟩
      rw [openAfter?_cons, openAfter?_step hstep]
      exact hnested

@[simp] theorem openNames_start (block? : Option Nat) (bytes : Bytes) :
    (start block? bytes).openNames = [] := by
  unfold start
  split <;> rfl

end Decoder

/-- The events of `ofDecoder` are those of a `DocumentTree`, and if the document has no fault all
its elements are closed. -/
theorem Document.exists_tree (mode : Strictness) (block? : Option Nat) (bytes : Bytes) :
    let doc := ofDecoder mode (.start block? bytes)
    ∃ t : DocumentTree, t.events = doc.events ∧ (doc.fault? = none → t.opened = []) := by
  obtain ⟨events, after, hrun, hnested, hend⟩ := (Decoder.start block? bytes).run_nested mode []
  rw [Decoder.openNames_start] at hnested
  obtain ⟨t, hevents, rfl⟩ := exists_tree_of_openAfter? hnested
  refine ⟨t, ?_, hend⟩
  show t.events = ((Decoder.start block? bytes).run mode []).1.reverse
  rw [hrun, List.append_nil, List.reverse_reverse, hevents]

/-! ### Views -/

namespace View

/-- `splitFrom` passes a token without names. -/
theorem splitFrom_content {e : Event} (plain : e.token.names = []) (name : Name) (depth : Nat)
    (seen rest : List Event) :
    splitFrom name depth seen (e :: rest) = splitFrom name depth (e :: seen) rest := by
  obtain ⟨offset, token⟩ := e
  cases token with
  | start tag => exact absurd plain (List.cons_ne_nil _ _)
  | finish found => exact absurd plain (List.cons_ne_nil _ _)
  | _ => rfl

/-- `splitFrom` passes a `Forest`: what an element of the name in question adds to the depth, its
end takes off again. -/
theorem splitFrom_forest (f : Forest) (name : Name) (depth : Nat) (seen more : List Event) :
    splitFrom name depth seen (f.events ++ more) =
      splitFrom name depth (f.events.reverse ++ seen) more := by
  induction f generalizing depth seen more with
  | nil => rfl
  | content e plain rest ih => simp [Forest.events, splitFrom_content plain, ih]
  | element opening tag inside closing rest ihInside ih =>
      -- only an element of that name is counted, on its way in and on its way out
      by_cases hname : tag.name = name
      · simp [Forest.events, splitFrom, hname, ihInside, ih]
      · simp [Forest.events, splitFrom, hname, ihInside, ih]

/-- `splitFrom` finds no end tag in a `DocumentTree`. -/
theorem splitFrom_tree (t : DocumentTree) (name : Name) (depth : Nat) (seen : List Event) :
    splitFrom name depth seen t.events = ⟨seen.reverse ++ t.events, none⟩ := by
  induction t generalizing depth seen with
  | whole forest =>
      have hall := splitFrom_forest forest name depth seen []
      simpa [splitFrom, DocumentTree.events] using hall
  | inside before offset tag inner ih =>
      simp [DocumentTree.events, splitFrom_forest, splitFrom, ih]

/-- `split` cuts out what an element holds. -/
@[simp] theorem inside_element (tag : StartTag) (inside : Forest) (closing : Nat)
    (more : List Event) :
    (split tag.name (inside.events ++ ⟨closing, .finish tag.name⟩ :: more)).inside =
      inside.events := by
  simp [split, splitFrom_forest, splitFrom]

/-- The view that `enter` makes of an element holds what the element does. -/
@[simp] theorem enter_element (v : View) (tag : StartTag) (inside : Forest) (closing : Nat)
    (more : List Event) :
    v.enter tag.name (inside.events ++ ⟨closing, .finish tag.name⟩ :: more) =
      ⟨inside.events, true, false⟩ := by
  simp [enter, split, splitFrom_forest, splitFrom]

/-- `leave` comes to what follows the element. -/
@[simp] theorem leave_element (tag : StartTag) (inside : Forest) (closing : Nat)
    (more : List Event) :
    leave tag.name (inside.events ++ ⟨closing, .finish tag.name⟩ :: more) = more := by
  simp [leave, split, splitFrom_forest, splitFrom, Split.rest]

/-- `split` finds no end tag for an element that stays open. -/
theorem split_of_open {following : List Event} {inner : List Name}
    (h : openAfter? [] following = some inner) (name : Name) :
    split name following = ⟨following, none⟩ := by
  obtain ⟨t, rfl, -⟩ := exists_tree_of_openAfter? h
  exact splitFrom_tree t name 0 []

/-- The view that `enter` makes of an element that is never closed holds the rest of the document.
-/
@[simp] theorem enter_open (v : View) (name : Name) (t : DocumentTree) :
    v.enter name t.events = ⟨t.events, false, v.final⟩ := by
  simp [enter, split, splitFrom_tree]

end View

/-! ### The first element of some kind -/

/-- An element and where it stands. -/
structure Block where
  /-- The start tags around it, outermost first. -/
  ancestors : List StartTag
  /-- Its own start tag. -/
  tag : StartTag
  /-- What it holds, if it is ever closed. -/
  content? : Option Forest

/-- The first element of a forest with a name that is wanted, in document order, where the forest
stands inside `ancestors`. -/
def Forest.first? (wanted : Name → Bool) (ancestors : List StartTag) : Forest → Option Block
  | nil => none
  | content _ _ rest => rest.first? wanted ancestors
  | element _ tag inside _ rest =>
    if wanted tag.name then some ⟨ancestors, tag, some inside⟩
    else (inside.first? wanted (ancestors ++ [tag])).or (rest.first? wanted ancestors)

/-- The first element of a tree with a name that is wanted. -/
def DocumentTree.first? (wanted : Name → Bool) (ancestors : List StartTag) :
    DocumentTree → Option Block
  | whole forest => forest.first? wanted ancestors
  | inside before _ tag inner =>
    (before.first? wanted ancestors).or <|
      if wanted tag.name then some ⟨ancestors, tag, none⟩
      else inner.first? wanted (ancestors ++ [tag])

/-- What follows the start tag of an element: what it holds and its end tag, or, if it is never
closed, the rest of a document. -/
def Block.Heads (b : Block) (following : List Event) : Prop :=
  match b.content? with
  | some inside =>
    ∃ closing more, following = inside.events ++ ⟨closing, .finish b.tag.name⟩ :: more
  | none => ∃ inner : DocumentTree, following = inner.events

/-- `skipTo` comes to the start tag of the `first?` element of a name in a forest. -/
theorem View.skipTo_forest (f : Forest) (name : Name) (ancestors : List StartTag)
    (more : List Event) :
    match f.first? (·.looselyMatches name) ancestors with
    | none => skipTo name (f.events ++ more) = skipTo name more
    | some b => ∃ e following, skipTo name (f.events ++ more) = some (e, b.tag, following) ∧
        b.content? ≠ none ∧ b.Heads following := by
  induction f generalizing ancestors more with
  | nil => rfl
  | content e plain rest ih =>
      rw [Forest.events, List.cons_append, skipTo, Event.start?_of_names_eq_nil plain]
      exact ih ancestors more
  | element opening tag inside closing rest ihInside ih =>
      rw [Forest.events, List.cons_append, List.append_assoc, List.cons_append, skipTo,
        Forest.first?]
      simp only [Event.start?]
      by_cases hname : tag.name.looselyMatches name = true
      · rw [if_pos hname, if_pos hname]
        exact ⟨_, _, rfl, Option.some_ne_none _, closing, _, rfl⟩
      · rw [if_neg hname, if_neg hname]
        have hinside := ihInside (ancestors ++ [tag])
          (⟨closing, .finish tag.name⟩ :: (rest.events ++ more))
        cases hfirst : inside.first? (·.looselyMatches name) (ancestors ++ [tag]) with
        | some b =>
            rw [hfirst] at hinside
            exact hinside
        | none =>
            rw [hfirst] at hinside
            rw [hinside, skipTo]
            exact ih ancestors more

/-- `skipTo` comes to the start tag of the `first?` element of a name in a document. -/
theorem View.skipTo_tree (t : DocumentTree) (name : Name) (ancestors : List StartTag) :
    match t.first? (·.looselyMatches name) ancestors with
    | none => skipTo name t.events = none
    | some b => ∃ e following, skipTo name t.events = some (e, b.tag, following) ∧
        (b.content? = none → t.opened ≠ []) ∧ b.Heads following := by
  induction t generalizing ancestors with
  | whole forest =>
      have hforest := skipTo_forest forest name ancestors []
      rw [List.append_nil] at hforest
      rw [DocumentTree.first?, DocumentTree.events]
      cases hfirst : forest.first? (·.looselyMatches name) ancestors with
      | none =>
          rw [hfirst] at hforest
          exact hforest
      | some b =>
          rw [hfirst] at hforest
          obtain ⟨e, following, hskip, hclosed, hheads⟩ := hforest
          exact ⟨e, following, hskip, fun hnone => absurd hnone hclosed, hheads⟩
  | inside before offset tag inner ih =>
      have hopened := DocumentTree.opened_inside_ne_nil before offset tag inner
      have hbefore := skipTo_forest before name ancestors (⟨offset, .start tag⟩ :: inner.events)
      rw [DocumentTree.first?, DocumentTree.events]
      cases hfirst : before.first? (·.looselyMatches name) ancestors with
      | some b =>
          rw [hfirst] at hbefore
          obtain ⟨e, following, hskip, -, hheads⟩ := hbefore
          exact ⟨e, following, hskip, fun _ => hopened, hheads⟩
      | none =>
          rw [hfirst] at hbefore
          rw [hbefore, skipTo, Option.none_or]
          simp only [Event.start?]
          by_cases hname : tag.name.looselyMatches name = true
          · rw [if_pos hname, if_pos hname]
            exact ⟨_, _, rfl, fun _ => hopened, inner, rfl⟩
          · rw [if_neg hname, if_neg hname]
            have hinner := ih (ancestors ++ [tag])
            cases hlast : inner.first? (·.looselyMatches name) (ancestors ++ [tag]) with
            | none =>
                rw [hlast] at hinner
                exact hinner
            | some b =>
                rw [hlast] at hinner
                obtain ⟨e, following, hskip, -, hheads⟩ := hinner
                exact ⟨e, following, hskip, fun _ => hopened, hheads⟩

end ResourceShards.Markup
