import ResourceShards.Markup.Stream
import ResourceShards.Proofs.Markup.Strictness

/-!
# ResourceShards.Proofs.Markup.Stream

**What a stream gives.** A stream keeps three books about the elements that are open: their names as
they are written, the pile of their bindings and a number. None of them says what an end tag was
opened as. A decoder keeps the elements themselves, and the books always agree with it: what lies on
the pile when an end tag is resolved is what lay there behind the start tag, whatever was declared,
and taken off again, in between. So a stream gives the events of the document, tags nested, and ends
with the fault of the document.

* `Pile.Layers`: bindings that are those of open elements
* `Stream.Follows`: a stream that stands where a decoder does
* `Stream.agrees_step`: it gives what the decoder does
* `Stream.run_wellNested`: the events of any calls
-/

namespace ResourceShards.Markup

/-! ### Bindings of open elements -/

/-- The bindings in force inside elements, given innermost first. -/
def OpenElement.scopeIn : List OpenElement → List Binding
  | [] => Namespace.initial
  | e :: _ => e.scope

namespace Pile

/-- Entries of a pile that are the bindings of elements, each element's above those of the ones
around it. -/
inductive Layers : List (Nat × Binding) → List OpenElement → Prop where
  /-- The bindings of every document. -/
  | bottom : Layers (Namespace.initial.map fun b => (0, b)) []
  /-- An element inside of others. -/
  | layer {entries : List (Nat × Binding)} {elements : List OpenElement} {e : OpenElement}
      {fresh : List Binding} (h : Layers entries elements)
      (hscope : e.scope = fresh ++ entries.map Prod.snd) :
      Layers (fresh.map (fun b => (elements.length + 1, b)) ++ entries) (e :: elements)

theorem Layers.scope {entries : List (Nat × Binding)} {elements : List OpenElement}
    (h : Layers entries elements) : entries.map Prod.snd = OpenElement.scopeIn elements := by
  cases h with
  | bottom => simp [OpenElement.scopeIn]
  | layer h hscope =>
      rw [OpenElement.scopeIn, hscope]
      simp

/-- No binding of `Layers` is deeper than the elements are. -/
theorem Layers.le_length {entries : List (Nat × Binding)} {elements : List OpenElement}
    (h : Layers entries elements) : ∀ entry ∈ entries, entry.1 ≤ elements.length := by
  induction h with
  | bottom =>
      intro entry hentry
      obtain ⟨b, -, rfl⟩ := List.mem_map.1 hentry
      exact Nat.le_refl 0
  | layer h hscope ih =>
      intro entry hentry
      rcases List.mem_append.1 hentry with hentry | hentry
      · obtain ⟨b, -, rfl⟩ := List.mem_map.1 hentry
        exact Nat.le_refl _
      · exact Nat.le_succ_of_le (ih entry hentry)

/-- `Layers` without the bindings above a depth are those of the elements around. -/
theorem Layers.dropWhile {entries : List (Nat × Binding)} {e : OpenElement}
    {elements : List OpenElement} (h : Layers entries (e :: elements)) :
    Layers (entries.dropWhile fun entry => decide (elements.length < entry.1)) elements := by
  cases h with
  | @layer under _ _ fresh h hscope =>
      have hfresh : ∀ entry ∈ fresh.map fun b => (elements.length + 1, b),
          decide (elements.length < entry.1) = true := by
        intro entry hentry
        obtain ⟨b, -, rfl⟩ := List.mem_map.1 hentry
        exact decide_eq_true (Nat.lt_succ_self _)
      rw [List.dropWhile_append_of_pos hfresh]
      cases under with
      | nil => exact h
      | cons entry under =>
          have hle := h.le_length entry List.mem_cons_self
          rw [List.dropWhile_cons_of_neg (by simpa using hle)]
          exact h

/-- A pile for elements, none of which has ended. -/
structure Settled (p : Pile) (elements : List OpenElement) : Prop where
  layers : Layers p.entries elements
  depth : p.depth = elements.length
  ended : p.ended = false

/-- A pile for elements, with the bindings of one that has ended perhaps still on top. -/
structure Holds (p : Pile) (elements : List OpenElement) : Prop where
  exists_ended : ∃ last : Option OpenElement, Layers p.entries (last.toList ++ elements) ∧
    p.depth = (last.toList ++ elements).length ∧ p.ended = last.isSome

theorem Settled.holds {p : Pile} {elements : List OpenElement} (h : p.Settled elements) :
    p.Holds elements :=
  ⟨none, h.layers, h.depth, h.ended⟩

/-- A `Settled` pile `Holds` the bindings of an element also when its end tag was read. -/
theorem Settled.holds_ended {p : Pile} {e : OpenElement} {elements : List OpenElement}
    (h : p.Settled (e :: elements)) : Pile.Holds { p with ended := true } elements :=
  ⟨some e, h.layers, h.depth, rfl⟩

theorem Settled.scope {p : Pile} {elements : List OpenElement} (h : p.Settled elements) :
    p.scope = OpenElement.scopeIn elements :=
  h.layers.scope

/-- `settle` takes off the bindings of an element that has ended, and no others. -/
theorem Holds.settle {p : Pile} {elements : List OpenElement} (h : p.Holds elements) :
    p.settle.Settled elements := by
  obtain ⟨last, hlayers, hdepth, hended⟩ := h.exists_ended
  unfold Pile.settle
  cases last with
  | none =>
      rw [hended]
      exact ⟨hlayers, hdepth, hended⟩
  | some e =>
      have hdepth' : p.depth - 1 = elements.length := by
        rw [hdepth]
        rfl
      rw [if_pos (show p.ended = true from hended), hdepth']
      exact ⟨hlayers.dropWhile, rfl, rfl⟩

/-! ### Bindings of a tag -/

/-- What `declareOne` binds does not depend on what is bound already. -/
theorem declareOne_append (scope : List Binding) (a : RawAttribute) :
    Namespace.declareOne scope a = (Namespace.declareOne [] a).map (· ++ scope) := by
  unfold Namespace.declareOne
  repeat' split
  all_goals rfl

/-- `declare` puts the bindings of a tag on top of a pile, if `Namespace.declare` makes them at all.
-/
theorem declare_cases (p : Pile) (attributes : List RawAttribute) :
    (∃ fault, p.declare attributes = .error fault ∧
        Namespace.declare p.scope attributes = .error fault) ∨
      ∃ fresh, Namespace.declare p.scope attributes = .ok (fresh ++ p.scope) ∧
        p.declare attributes =
          .ok { p with entries := fresh.map (fun b => (p.depth, b)) ++ p.entries } := by
  induction attributes generalizing p with
  | nil => exact .inr ⟨[], rfl, rfl⟩
  | cons a attributes ih =>
      unfold declare Namespace.declare
      rw [List.foldlM_cons, List.foldlM_cons, declareOne, declareOne_append p.scope]
      cases hfresh : Namespace.declareOne [] a with
      | error fault => exact .inl ⟨fault, rfl, rfl⟩
      | ok fresh =>
          have hscope : Pile.scope
              { p with entries := fresh.map (fun b => (p.depth, b)) ++ p.entries } =
                fresh ++ p.scope := by
            simp [Pile.scope]
          have hrest := ih { p with entries := fresh.map (fun b => (p.depth, b)) ++ p.entries }
          rw [hscope] at hrest
          rcases hrest with ⟨fault, hpile, hnames⟩ | ⟨more, hnames, hpile⟩
          · exact .inl ⟨fault, hpile, hnames⟩
          · refine .inr ⟨more ++ fresh, ?_, ?_⟩
            · rw [List.append_assoc]
              exact hnames
            · rw [List.map_append, List.append_assoc]
              exact hpile

/-- `enter` lays the bindings of an element on those of the elements around it. -/
theorem Settled.enter_cases {p : Pile} {elements : List OpenElement} (h : p.Settled elements)
    (attributes : List RawAttribute) (rawName : Bytes) :
    (∃ fault, p.enter attributes = .error fault ∧
        Namespace.declare (OpenElement.scopeIn elements) attributes = .error fault) ∨
      ∃ scope inside, Namespace.declare (OpenElement.scopeIn elements) attributes = .ok scope ∧
        p.enter attributes = .ok inside ∧ inside.Settled (⟨rawName, scope⟩ :: elements) := by
  have hscope : Pile.scope { p with depth := p.depth + 1 } = OpenElement.scopeIn elements := h.scope
  rcases declare_cases { p with depth := p.depth + 1 } attributes with
    ⟨fault, hpile, hnames⟩ | ⟨fresh, hnames, hpile⟩
  · rw [hscope] at hnames
    exact .inl ⟨fault, hpile, hnames⟩
  · rw [hscope] at hnames
    refine .inr ⟨_, _, hnames, hpile, ?_, congrArg (· + 1) h.depth, h.ended⟩
    simp only [h.depth]
    exact .layer h.layers (congrArg (fresh ++ ·) h.scope.symm)

/-- A pile opens an element as `Decoder.openElement` does, which has the bindings of each element as
a whole. -/
theorem Settled.openElement_cases {p : Pile} {elements : List OpenElement} (h : p.Settled elements)
    (mode : Strictness) (raw : Bytes) :
    (∃ fault, p.openElement mode raw = .error fault ∧
        Decoder.openElement mode (OpenElement.scopeIn elements) raw = .error fault) ∨
      ∃ e tag inside, p.openElement mode raw = .ok (tag, inside) ∧
        Decoder.openElement mode (OpenElement.scopeIn elements) raw = .ok (e, tag) ∧
        e.rawName = Decoder.tagName raw ∧ inside.Settled (e :: elements) := by
  unfold openElement Decoder.openElement
  obtain ⟨attributes, bad?⟩ :=
    RawAttribute.readAll raw.length (raw.dropWhile fun b => !Bytes.isBlank b)
  rcases h.enter_cases attributes (Decoder.tagName raw) with
    ⟨fault, hpile, hnames⟩ | ⟨scope, inside, hnames, hpile, hsettled⟩
  · simp only [hpile, hnames]
    exact .inl ⟨fault, rfl, rfl⟩
  · have hscope : inside.scope = scope := hsettled.scope
    simp only [hpile, hnames, bind, Except.bind, hscope]
    cases Decoder.readAttributes mode scope attributes with
    | error fault => exact .inl ⟨fault, rfl, rfl⟩
    | ok read =>
        cases bad? with
        | some fault => exact .inl ⟨.attribute fault, rfl, rfl⟩
        | none => exact .inr ⟨_, _, inside, rfl, rfl, rfl, hsettled⟩

end Pile

/-! ### Streams and decoders -/

namespace Decoder

/-- The elements that are open, innermost first, with one whose end is due. -/
def elements (d : Decoder) : List OpenElement :=
  d.due.toList ++ d.opened

theorem elements_of_none {d : Decoder} (h : d.due = none) : d.elements = d.opened := by
  rw [elements, h]
  rfl

theorem elements_of_some {d : Decoder} {e : OpenElement} (h : d.due = some e) :
    d.elements = e :: d.opened := by
  rw [elements, h]
  rfl

theorem length_openNames (d : Decoder) : d.openNames.length = d.elements.length :=
  List.length_map _

/-- A tokenizer that stands where a decoder does. -/
def tokenizer (d : Decoder) : Tokenizer where
  rest := d.rest
  taken := d.taken
  names := d.opened.map OpenElement.rawName
  due := d.due.map OpenElement.rawName
  skipped := d.skipped
  block? := d.block?

theorem scope_eq (d : Decoder) : d.scope = OpenElement.scopeIn d.opened := by
  unfold scope
  cases d.opened <;> rfl

/-- A document that ends inside elements is `truncated` with the number of open ones. -/
theorem unclosed_of_step {mode : Strictness} {d : Decoder} {offset unclosed : Nat}
    (h : d.step mode = .failed (.truncated offset unclosed)) :
    unclosed = d.openNames.length ∧ 0 < unclosed := by
  unfold step at h
  split at h
  · cases h
  · rename_i hdue
    split at h
    · unfold atEnd at h
      split at h
      · cases h
      · rename_i hopened
        cases h
        have hne : d.opened ≠ [] := by simpa using hopened
        rw [length_openNames, elements_of_none hdue]
        exact ⟨rfl, List.length_pos_iff.2 hne⟩
    · cases h
    · unfold piece plainEvent at h
      repeat' split at h
      all_goals cases h

end Decoder

/-- In a well nested run an end tag has the name of the innermost element. -/
theorem exists_open_of_finish {opened after : List Name} {before rest : List Event} {offset : Nat}
    {name : Name}
    (h : openAfter? opened (before ++ ⟨offset, .finish name⟩ :: rest) = some after) :
    ∃ outer, openAfter? opened before = some (name :: outer) := by
  rw [openAfter?_append, Option.bind_eq_some_iff] at h
  obtain ⟨names, hbefore, hrest⟩ := h
  rw [openAfter?_cons, Option.bind_eq_some_iff] at hrest
  obtain ⟨names', hfinish, -⟩ := hrest
  unfold Token.openAfter? at hfinish
  cases names with
  | nil => cases hfinish
  | cons top outer =>
      simp only at hfinish
      split at hfinish
      · rename_i hname
        exact ⟨outer, hname ▸ hbefore⟩
      · cases hfinish

namespace Stream

/-- A stream that stands where a decoder does. -/
structure Follows (s : Stream) (mode : Strictness) (d : Decoder) : Prop where
  /-- Bad text is treated alike. -/
  mode : s.mode = mode
  /-- The same is left to read, and the same names are open. -/
  tokenizer : s.tokenizer = d.tokenizer
  /-- The bindings are those of the open elements. -/
  pile : s.pile.Holds d.elements
  /-- They are counted. -/
  opened : s.opened = d.elements.length
  /-- Nothing is wrong. -/
  error : s.error? = none
  /-- The stream has not ended. -/
  running : s.done = false

/-- What a stream reads is what a step of a decoder gives. -/
def Agrees (mode : Strictness) (read : Except Error (Option (Event × Stream))) : Step → Prop
  | .finished => read = .ok none
  | .failed e => read = .error e
  | .event e d => ∃ after, read = .ok (some (e, after)) ∧ after.Follows mode d

/-- A stream that `Follows` a decoder still follows it behind a piece that opens and closes nothing.
-/
theorem Follows.settle {s : Stream} {mode : Strictness} {d : Decoder} (h : s.Follows mode d)
    (taken : Nat) (rest : Bytes) :
    Follows { s with
      tokenizer := Decoder.tokenizer { d with rest, taken }
      pile := s.pile.settle } mode { d with rest, taken } where
  mode := h.mode
  tokenizer := rfl
  pile := h.pile.settle.holds
  opened := h.opened
  error := h.error
  running := h.running

/-- A stream still `Follows` a decoder that has one element more, if its pile holds the bindings of
that element. -/
theorem Follows.opens {s : Stream} {mode : Strictness} {d next : Decoder} {e : OpenElement}
    {tokenizer : Tokenizer} {inside : Pile} (h : s.Follows mode d)
    (helements : next.elements = e :: d.elements) (htokenizer : tokenizer = next.tokenizer)
    (hinside : inside.Settled (e :: d.elements)) :
    Follows { s with tokenizer, pile := inside, opened := s.opened + 1 } mode next where
  mode := h.mode
  tokenizer := htokenizer
  pile := helements ▸ hinside.holds
  opened := by
    rw [helements, List.length_cons, h.opened]
  error := h.error
  running := h.running

/-- A stream that `Follows` a decoder agrees with it on a start tag. -/
theorem Follows.agrees_startTag {s : Stream} {mode : Strictness} {d : Decoder}
    (h : s.Follows mode d) (hdue : d.due = none) (raw : Bytes) (closesItself : Bool) (taken : Nat)
    (rest : Bytes) :
    Agrees mode
      (s.receive (Tokenizer.pass (Decoder.tokenizer { d with rest, taken })
        (.startTag raw closesItself)))
      (d.piece mode (.startTag raw closesItself) taken rest) := by
  obtain rfl := h.mode
  have helements := Decoder.elements_of_none hdue
  have hsettled : s.pile.settle.Settled d.elements := h.pile.settle
  simp only [Decoder.piece, d.scope_eq, ← helements]
  rcases hsettled.openElement_cases s.mode raw with
    ⟨fault, hpile, hopen⟩ | ⟨e, tag, inside, hpile, hopen, hname, hinside⟩
  · rw [hopen]
    cases closesItself with
    | false =>
        simp only [Tokenizer.pass, receive, emit, hpile, Bool.false_eq_true, if_false]
        rfl
    | true =>
        simp only [Tokenizer.pass, receive, emit, hpile, if_true]
        rfl
  · rw [hopen]
    cases closesItself with
    | false =>
        simp only [Tokenizer.pass, receive, emit, hpile, Bool.false_eq_true, if_false]
        refine ⟨_, rfl, h.opens ?_ ?_ hinside⟩
        · simp [Decoder.elements, hdue]
        · simp [Decoder.tokenizer, Decoder.elements, hdue, hname]
    | true =>
        simp only [Tokenizer.pass, receive, emit, hpile, if_true]
        refine ⟨_, rfl, h.opens ?_ ?_ hinside⟩
        · simp [Decoder.elements, hdue]
        · simp [Decoder.tokenizer, hname]

/-- A stream that `Follows` a decoder agrees with it on an end tag, whose name is resolved with the
bindings of the element that it closes. -/
theorem Follows.agrees_endTag {s : Stream} {mode : Strictness} {d : Decoder}
    (h : s.Follows mode d) (hdue : d.due = none) (raw : Bytes) (taken : Nat) (rest : Bytes) :
    Agrees mode
      (s.receive (Tokenizer.pass (Decoder.tokenizer { d with rest, taken }) (.endTag raw)))
      (d.piece mode (.endTag raw) taken rest) := by
  have hsettled := h.pile.settle
  have hopened := h.opened
  rw [Decoder.elements_of_none hdue] at hsettled hopened
  simp only [Decoder.piece, Tokenizer.pass, Decoder.closeElement, Decoder.tokenizer]
  cases hinner : d.opened with
  | nil => rfl
  | cons e outer =>
      rw [hinner] at hsettled hopened
      simp only [List.map_cons]
      by_cases hname : (e.rawName == Decoder.trimEnd raw) = true
      · have hscope : s.pile.settle.scope = e.scope := hsettled.scope
        simp only [if_pos hname, receive, emit, hscope]
        refine ⟨_, rfl, h.mode, rfl, ?_, ?_, h.error, h.running⟩
        · simpa [Decoder.elements, hdue] using hsettled.holds_ended
        · simp [Decoder.elements, hdue, hopened]
      · simp only [if_neg hname]
        rfl

/-- A stream that `Follows` a decoder agrees with it on every piece. -/
theorem Follows.agrees_piece {s : Stream} {mode : Strictness} {d : Decoder} (h : s.Follows mode d)
    (hdue : d.due = none) (lexeme : Lexeme) (taken : Nat) (rest : Bytes) :
    Agrees mode (s.receive (Tokenizer.pass (Decoder.tokenizer { d with rest, taken }) lexeme))
      (d.piece mode lexeme taken rest) := by
  have hafter := h.settle taken rest
  cases lexeme with
  | startTag raw closesItself => exact h.agrees_startTag hdue raw closesItself taken rest
  | endTag raw => exact h.agrees_endTag hdue raw taken rest
  | text raw =>
      simp only [Tokenizer.pass, receive, emit, Decoder.piece, h.mode]
      rw [h.mode] at hafter
      cases Reference.readText mode raw with
      | error fault => rfl
      | ok text => exact ⟨_, rfl, hafter⟩
  | _ => exact ⟨_, rfl, hafter⟩

/-- `Stream.read` gives what `Decoder.step` does, where the stream `Follows` the decoder. -/
theorem Follows.agrees_step {s : Stream} {mode : Strictness} {d : Decoder}
    (h : s.Follows mode d) : Agrees mode s.read (d.step mode) := by
  unfold read Tokenizer.read Decoder.step
  rw [h.tokenizer]
  cases hdue : d.due with
  | some e =>
      have hsettled : s.pile.settle.Settled (e :: d.opened) := by
        rw [← Decoder.elements_of_some hdue]
        exact h.pile.settle
      have hscope : s.pile.settle.scope = e.scope := hsettled.scope
      simp only [Decoder.tokenizer, hdue, Option.map_some, receive, emit, hscope]
      refine ⟨_, rfl, h.mode, rfl, ?_, ?_, h.error, h.running⟩
      · simpa [Decoder.elements] using hsettled.holds_ended
      · simp [Decoder.elements, h.opened, hdue]
  | none =>
      simp only [Decoder.tokenizer, hdue, Option.map_none]
      cases Lexeme.read d.block? (d.skipped + d.taken) d.rest with
      | nothing n =>
          have hopened : s.opened = d.opened.length := by
            rw [h.opened, Decoder.elements_of_none hdue]
          simp only [receive, Decoder.atEnd, hopened]
          cases d.opened with
          | nil => rfl
          | cons e outer => rfl
      | bad n fault => rfl
      | piece lexeme n rest =>
          have hpiece := h.agrees_piece hdue lexeme (d.taken + n) rest
          simpa only [Decoder.tokenizer, hdue, Option.map_none] using hpiece

theorem follows_start (mode : Strictness) (block? : Option Nat) (bytes : Bytes) :
    (start mode block? bytes).Follows mode (.start block? bytes) := by
  have hpile : Pile.Holds {} [] := ⟨none, .bottom, rfl, rfl⟩
  unfold start Decoder.start
  cases Bytes.dropRun? Decoder.mark bytes with
  | some rest => exact ⟨rfl, rfl, hpile, rfl, rfl, rfl⟩
  | none => exact ⟨rfl, rfl, hpile, rfl, rfl, rfl⟩

/-! ### Calls -/

section Follows

variable {s : Stream} {mode : Strictness} {d : Decoder}

theorem Follows.next_of_finished (h : s.Follows mode d) (hstep : d.step mode = .finished) :
    s.next = (none, { s with done := true }) := by
  have hagrees := h.agrees_step
  rw [hstep] at hagrees
  have hread : s.read = .ok none := hagrees
  rw [next, h.running, hread]
  rfl

theorem Follows.next_of_failed (h : s.Follows mode d) {e : Error}
    (hstep : d.step mode = .failed e) :
    s.next = (none, { s with done := true, error? := some e }) := by
  have hagrees := h.agrees_step
  rw [hstep] at hagrees
  have hread : s.read = .error e := hagrees
  rw [next, h.running, hread]
  rfl

theorem Follows.next_of_event (h : s.Follows mode d) {e : Event} {d' : Decoder}
    (hstep : d.step mode = .event e d') : ∃ after, s.next = (some e, after) ∧
      after.Follows mode d' := by
  have hagrees := h.agrees_step
  rw [hstep] at hagrees
  obtain ⟨after, hread, hafter⟩ := hagrees
  refine ⟨after, ?_, hafter⟩
  rw [next, h.running, hread]
  rfl

end Follows

/-- A stream that is `done` gives nothing by `next` and stays as it is. -/
theorem next_of_done {s : Stream} (h : s.done = true) : s.next = (none, s) := by
  rw [next, h]
  rfl

/-- Where a stream stands that gave some events of what a decoder reads. -/
inductive Stands (mode : Strictness) (d₀ : Decoder) (seen : List Event) (s : Stream) : Prop where
  /-- It follows the decoder. -/
  | inside {d : Decoder} (h : s.Follows mode d)
      (hrun : d₀.run mode [] = d.run mode seen.reverse)
      (hnested : openAfter? d₀.openNames seen = some d.openNames)
  /-- It has ended with all events. -/
  | ended {fault? : Option Error} {opened : List Name} (hdone : s.done = true)
      (hrun : d₀.run mode [] = (seen.reverse, fault?))
      (hnested : openAfter? d₀.openNames seen = some opened) (hopened : s.opened = opened.length)

section Stands

variable {mode : Strictness} {d₀ : Decoder} {seen : List Event} {s : Stream}

theorem Stands.next (h : Stands mode d₀ seen s) :
    Stands mode d₀ (seen ++ s.next.1.toList) s.next.2 := by
  cases h with
  | ended hdone hrun hnested hopened =>
      rw [next_of_done hdone, Option.toList_none, List.append_nil]
      exact .ended hdone hrun hnested hopened
  | @inside d h hrun hnested =>
      have hopened : s.opened = d.openNames.length := h.opened.trans d.length_openNames.symm
      cases hstep : d.step mode with
      | finished =>
          rw [h.next_of_finished hstep, Option.toList_none, List.append_nil]
          rw [Decoder.run_of_finished hstep] at hrun
          exact .ended rfl hrun hnested hopened
      | failed e =>
          rw [h.next_of_failed hstep, Option.toList_none, List.append_nil]
          rw [Decoder.run_of_failed hstep] at hrun
          exact .ended rfl hrun hnested hopened
      | event e d' =>
          obtain ⟨after, hnext, hafter⟩ := h.next_of_event hstep
          rw [hnext, Option.toList_some]
          rw [Decoder.run_of_event hstep] at hrun
          refine .inside hafter (by simpa using hrun) ?_
          rw [openAfter?_append, hnested, Option.bind_some, openAfter?_cons,
            Decoder.openAfter?_step hstep]
          rfl

theorem Stands.takeError (h : Stands mode d₀ seen s) : Stands mode d₀ seen s.takeError.2 := by
  cases h with
  | ended hdone hrun hnested hopened => exact .ended hdone hrun hnested hopened
  | inside h hrun hnested =>
      exact .inside ⟨h.mode, h.tokenizer, h.pile, h.opened, rfl, h.running⟩ hrun hnested

/-- Whatever calls a stream gets, it `Stands` somewhere in the document. -/
theorem Stands.run (h : Stands mode d₀ seen s) (calls : List Call) :
    Stands mode d₀ (seen ++ (s.run calls).1) (s.run calls).2 := by
  induction calls generalizing s seen with
  | nil =>
      rw [Stream.run, List.append_nil]
      exact h
  | cons call calls ih =>
      cases call with
      | takeError => exact ih h.takeError
      | next =>
          have hnext := ih h.next
          rw [Stream.run]
          cases hresult : s.next with
          | mk found after =>
              rw [hresult] at hnext
              cases found with
              | none => simpa using hnext
              | some e => simpa using hnext

end Stands

/-! ### What a stream gives -/

/-- What is known of a stream that gave some events. -/
structure WellNested (seen : List Event) (s : Stream) : Prop where
  /-- An end tag has the name of the innermost element that is open where it stands. -/
  closes : ∀ before after offset name, seen = before ++ ⟨offset, .finish name⟩ :: after →
    ∃ outer, openAfter? [] before = some (name :: outer)
  /-- The elements that are open are counted. When the stream ends with nothing wrong there are
  none, and when it ends inside of elements they are counted right. -/
  counts : ∃ opened, openAfter? [] seen = some opened ∧ s.opened = opened.length ∧
    (s.done = false → s.next.1 = none →
      (s.next.2.error? = none → opened = []) ∧
      ∀ offset unclosed, s.next.2.error? = some (.truncated offset unclosed) →
        unclosed = opened.length ∧ 0 < unclosed)
  /-- Where there is no next event there are none later, not even when the error was taken. -/
  ends : s.next.1 = none → ∀ calls, (s.next.2.run calls).1 = []

/-- A stream that is `done` gives no events, whatever calls it gets. -/
theorem run_of_done {s : Stream} (h : s.done = true) (calls : List Call) :
    (s.run calls).1 = [] := by
  induction calls generalizing s with
  | nil => rfl
  | cons call calls ih =>
      cases call with
      | takeError => exact ih h
      | next =>
          rw [Stream.run, next_of_done h]
          exact ih h

/-- A stream whose `next` gives no event is `done`. -/
theorem done_of_next {s : Stream} (h : s.next.1 = none) : s.next.2.done = true := by
  unfold Stream.next at h ⊢
  split
  · assumption
  · rename_i hrunning
    rw [if_neg hrunning] at h
    split at h
    · cases h
    · rfl
    · rfl

theorem Stands.counts {mode : Strictness} {d₀ : Decoder} {seen : List Event} {s : Stream}
    (h : Stands mode d₀ seen s) : ∃ opened, openAfter? d₀.openNames seen = some opened ∧
      s.opened = opened.length ∧
      (s.done = false → s.next.1 = none →
        (s.next.2.error? = none → opened = []) ∧
        ∀ offset unclosed, s.next.2.error? = some (.truncated offset unclosed) →
          unclosed = opened.length ∧ 0 < unclosed) := by
  cases h with
  | ended hdone hrun hnested hopened =>
      refine ⟨_, hnested, hopened, fun hrunning => ?_⟩
      rw [hdone] at hrunning
      cases hrunning
  | @inside d h hrun hnested =>
      have hopened : s.opened = d.openNames.length := h.opened.trans d.length_openNames.symm
      refine ⟨_, hnested, hopened, fun _ hnone => ?_⟩
      cases hstep : d.step mode with
      | finished =>
          rw [h.next_of_finished hstep]
          refine ⟨fun _ => Decoder.openNames_of_finished hstep, fun offset unclosed herror => ?_⟩
          rw [h.error] at herror
          cases herror
      | failed e =>
          rw [h.next_of_failed hstep]
          refine ⟨fun herror => absurd herror (Option.some_ne_none e),
            fun offset unclosed herror => ?_⟩
          rw [Option.some.inj herror] at hstep
          exact Decoder.unclosed_of_step hstep
      | event e d' =>
          obtain ⟨after, hnext, -⟩ := h.next_of_event hstep
          rw [hnext] at hnone
          cases hnone

/-- **The events of a stream are well nested.** Whatever calls a stream gets and however far it is
read, what it gives is `WellNested`: the strict and the lenient one, over a document of any bytes.
-/
theorem run_wellNested (mode : Strictness) (block? : Option Nat) (bytes : Bytes)
    (calls : List Call) :
    ((start mode block? bytes).run calls).2.WellNested ((start mode block? bytes).run calls).1 := by
  have hstart : Stands mode (.start block? bytes) [] (start mode block? bytes) :=
    .inside (follows_start mode block? bytes) rfl rfl
  have hcounts := (hstart.run calls).counts
  rw [List.nil_append, Decoder.openNames_start] at hcounts
  refine ⟨fun before after offset name hseen => ?_, hcounts, fun hnone more => ?_⟩
  · obtain ⟨opened, hnested, -⟩ := hcounts
    exact exists_open_of_finish (hseen ▸ hnested)
  · exact run_of_done (done_of_next hnone) more

/-- An error is given out once, and it is no reason to go on. -/
example : let s := (start .lenient none (Bytes.ofString "<a><b></a>")).run (List.replicate 3 .next)
    s.1.length = 2 ∧ s.2.error?.isSome = true ∧ (s.2.run [.takeError, .next]).2.error? = none := by
  decide +kernel

/-- Asked by `next` often enough, a stream gives the events of the decoder that it `Follows` and
ends with the same error. -/
theorem Follows.exists_run {s : Stream} {mode : Strictness} {d : Decoder} (h : s.Follows mode d)
    (seen : List Event) : ∃ n, let given := s.run (List.replicate n .next)
      given.2.done = true ∧ d.run mode seen = (given.1.reverse ++ seen, given.2.error?) := by
  -- along the run of the decoder
  fun_induction Decoder.run mode d seen generalizing s with
  | case1 d seen hstep =>
      refine ⟨1, ?_⟩
      simp [run, h.next_of_finished hstep, h.error]
  | case2 d seen e hstep =>
      refine ⟨1, ?_⟩
      simp [run, h.next_of_failed hstep]
  | case3 d seen e next hstep ih =>
      obtain ⟨after, hnext, hafter⟩ := h.next_of_event hstep
      obtain ⟨n, hdone, hrun⟩ := ih hafter
      refine ⟨n + 1, ?_⟩
      rw [List.replicate_succ, run, hnext]
      exact ⟨hdone, by simp [hrun]⟩

/-- A stream gives the events of `Document.ofDecoder` and ends with its fault. -/
theorem exists_run_document (mode : Strictness) (block? : Option Nat) (bytes : Bytes) :
    ∃ n, let given := (start mode block? bytes).run (List.replicate n .next)
      given.2.done = true ∧
        Document.ofDecoder mode (.start block? bytes) = ⟨given.1, given.2.error?⟩ := by
  obtain ⟨n, hdone, hrun⟩ := (follows_start mode block? bytes).exists_run []
  refine ⟨n, hdone, ?_⟩
  rw [Document.ofDecoder, hrun]
  simp

end Stream

end ResourceShards.Markup
