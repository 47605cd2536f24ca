import Mathlib.Data.List.Infix
import ResourceShards.Proofs.Markup.Surroundings

/-!
# ResourceShards.Proofs.Markup.Indentation

**What a layout adds to a document.** An encoder with a layout fails where one without fails, and
gets to the same marks and tables; to what is written it only adds beginnings of lines. As long as
all can be written, the layout keeps count of the open elements and knows whether the innermost one
holds an element. So what goes before a token can be told from the tokens before it alone.

* `GetsLine`, `LineBegun`, `depthAround?`: what the tokens before tell
* `Layout.Follows`: a layout that knows what they tell
* `Encoder.OnlyInserts`: what a layout adds to a token, and nothing else
* `Encoder.onlyInserts`: a layout set before the first token does no more than that
-/

namespace ResourceShards.Markup

/-! ### What the tokens before tell -/

/-- The innermost element that is open after some tokens holds an element. -/
def HoldsElement (before : List Token) : Prop :=
  ∃ tag inside, .start tag :: inside <:+ before ∧ depthAfter? 0 inside = some 0 ∧
    ∃ inner, .start inner ∈ inside

/-- A token after others gets a line of its own. -/
def GetsLine (before : List Token) : Token → Prop
  | .start _ => True
  | .finish _ => HoldsElement before
  | .text _ => False
  | .cdata _ => False
  | .comment _ => True
  | .instruction _ => True
  | .doctype _ => True

/-- Among some tokens there is one that got a line of its own. -/
def LineBegun (before : List Token) : Prop :=
  ∃ earlier t, earlier ++ [t] <+: before ∧ GetsLine earlier t

/-- How many elements are open around a token. The element that an end tag closes is not around
it. -/
def depthAround? (before : List Token) : Token → Option Nat
  | .finish name => depthAfter? 0 (before ++ [.finish name])
  | _ => depthAfter? 0 before

theorem depthAfter?_concat (depth : Nat) (before : List Token) (t : Token) :
    depthAfter? depth (before ++ [t]) = (depthAfter? depth before).bind t.depthAfter? := by
  rw [depthAfter?_append]
  refine congrArg _ (funext fun middle => ?_)
  rw [depthAfter?_cons]
  exact Option.bind_fun_some _

/-- `depthAfter?` tells the same inside more elements. -/
theorem depthAfter?_add {tokens : List Token} {depth after : Nat}
    (h : depthAfter? depth tokens = some after) (around : Nat) :
    depthAfter? (depth + around) tokens = some (after + around) := by
  induction tokens generalizing depth with
  | nil =>
      obtain rfl := Option.some.inj h
      rfl
  | cons t tokens ih =>
      rw [depthAfter?_cons, Option.bind_eq_some_iff] at h
      obtain ⟨middle, hmiddle, hrest⟩ := h
      have hstep : t.depthAfter? (depth + around) = some (middle + around) := by
        rcases t.tag_or_names_eq_nil with ⟨tag, rfl⟩ | ⟨name, rfl⟩ | hplain
        · obtain rfl := Option.some.inj hmiddle
          exact congrArg some (Nat.add_right_comm depth around 1)
        · obtain ⟨hpos, rfl⟩ := Token.depthAfter?_finish.1 hmiddle
          exact Token.depthAfter?_finish.2 ⟨by omega, by omega⟩
        · rw [Token.depthAfter?_of_names_eq_nil hplain] at hmiddle ⊢
          obtain rfl := Option.some.inj hmiddle
          rfl
      rw [depthAfter?_cons, hstep, Option.bind_some]
      exact ih hrest

/-- A whole element behind tokens that leave nothing open leaves nothing open. -/
theorem depthAfter?_element {between inside : List Token}
    (hbetween : depthAfter? 0 between = some 0) (hinside : depthAfter? 0 inside = some 0)
    (tag : StartTag) (name : Name) :
    depthAfter? 0 (between ++ .start tag :: (inside ++ [.finish name])) = some 0 := by
  have hopen : depthAfter? 1 inside = some 1 := depthAfter?_add hinside 1
  rw [depthAfter?_append, hbetween, Option.bind_some, depthAfter?_cons, Token.depthAfter?,
    Option.bind_some, depthAfter?_concat, hopen]
  rfl

/-- Where an element is open, the innermost one has a start tag such that nothing but the elements
around is open before it, and nothing more behind it. -/
theorem exists_innermost {before : List Token} {depth : Nat}
    (h : depthAfter? 0 before = some (depth + 1)) :
    ∃ outside tag inside, before = outside ++ .start tag :: inside ∧
      depthAfter? 0 outside = some depth ∧ depthAfter? 0 inside = some 0 := by
  induction hlength : before.length using Nat.strong_induction_on generalizing before depth with
  | _ n ih =>
      rcases List.eq_nil_or_concat before with rfl | ⟨front, t, rfl⟩
      · cases h
      rw [List.concat_eq_append] at h hlength ⊢
      rw [List.length_append, List.length_singleton] at hlength
      rw [depthAfter?_concat, Option.bind_eq_some_iff] at h
      obtain ⟨middle, hfront, ht⟩ := h
      rcases t.tag_or_names_eq_nil with ⟨tag, rfl⟩ | ⟨name, rfl⟩ | hplain
      · obtain rfl := Nat.succ.inj (Option.some.inj ht)
        exact ⟨front, tag, [], rfl, hfront, rfl⟩
      · obtain ⟨hpos, hdepth⟩ := Token.depthAfter?_finish.1 ht
        obtain rfl : middle = depth + 1 + 1 := by omega
        -- the element that was just closed, and the one around it
        obtain ⟨outside, tag, inside, rfl, houtside, hinside⟩ :=
          ih front.length (by omega) hfront rfl
        obtain ⟨outer, outerTag, between, rfl, houter, hbetween⟩ :=
          ih outside.length (by simp only [List.length_append] at hlength; omega) houtside rfl
        exact ⟨outer, outerTag, between ++ .start tag :: (inside ++ [.finish name]), by simp,
          houter, depthAfter?_element hbetween hinside tag name⟩
      · rw [Token.depthAfter?_of_names_eq_nil hplain] at ht
        obtain rfl := Option.some.inj ht
        obtain ⟨outside, tag, inside, rfl, houtside, hinside⟩ :=
          ih front.length (by omega) hfront rfl
        refine ⟨outside, tag, inside ++ [t], by simp, houtside, ?_⟩
        rw [depthAfter?_concat, hinside]
        exact Token.depthAfter?_of_names_eq_nil hplain 0

/-! ### One more token -/

theorem cons_suffix_concat {α : Type} {first last : α} {inside before : List α} :
    first :: inside <:+ before ++ [last] ↔
      (first = last ∧ inside = []) ∨
        ∃ inner, inside = inner ++ [last] ∧ first :: inner <:+ before := by
  rw [List.suffix_concat_iff]
  constructor
  · rintro (hnil | ⟨front, hfront, hsuffix⟩)
    · cases hnil
    · rcases List.cons_eq_append_iff.1 hfront with ⟨rfl, hlast⟩ | ⟨inner, rfl, hinside⟩
      · obtain ⟨rfl, hnil⟩ := List.cons.inj hlast
        exact .inl ⟨rfl, hnil.symm⟩
      · exact .inr ⟨inner, hinside, hsuffix⟩
  · rintro (⟨rfl, rfl⟩ | ⟨inner, rfl, hsuffix⟩)
    · exact .inr ⟨[], rfl, List.nil_suffix⟩
    · exact .inr ⟨first :: inner, rfl, hsuffix⟩

theorem lineBegun_concat {before : List Token} {t : Token} :
    LineBegun (before ++ [t]) ↔ LineBegun before ∨ GetsLine before t := by
  constructor
  · rintro ⟨earlier, u, hprefix, hline⟩
    rcases List.prefix_concat_iff.1 hprefix with heq | hprefix
    · obtain ⟨rfl, hlast⟩ := List.append_inj' heq rfl
      obtain rfl := (List.cons.inj hlast).1
      exact .inr hline
    · exact .inl ⟨earlier, u, hprefix, hline⟩
  · rintro (⟨earlier, u, hprefix, hline⟩ | hline)
    · exact ⟨earlier, u, hprefix.trans (List.prefix_append _ _), hline⟩
    · exact ⟨before, t, List.prefix_rfl, hline⟩

/-- `HoldsElement` is not true right behind a start tag. -/
theorem not_holdsElement_start (before : List Token) (tag : StartTag) :
    ¬HoldsElement (before ++ [.start tag]) := by
  rintro ⟨opening, inside, hsuffix, hdepth, inner, hinner⟩
  rcases cons_suffix_concat.1 hsuffix with ⟨-, rfl⟩ | ⟨front, rfl, -⟩
  · exact absurd hinner List.not_mem_nil
  · rw [depthAfter?_concat, Option.bind_eq_some_iff] at hdepth
    obtain ⟨depth, -, hlast⟩ := hdepth
    exact Nat.succ_ne_zero depth (Option.some.inj hlast)

theorem holdsElement_content {t : Token} (h : t.names = []) (before : List Token) :
    HoldsElement (before ++ [t]) ↔ HoldsElement before := by
  have hnever : ∀ tag, Token.start tag ≠ t := by
    rintro tag rfl
    exact absurd h (List.cons_ne_nil _ _)
  have hlevel : ∀ inside, depthAfter? 0 (inside ++ [t]) = depthAfter? 0 inside := by
    intro inside
    rw [depthAfter?_concat, funext (Token.depthAfter?_of_names_eq_nil h)]
    exact Option.bind_fun_some _
  constructor
  · rintro ⟨tag, inside, hsuffix, hdepth, inner, hinner⟩
    rcases cons_suffix_concat.1 hsuffix with ⟨heq, -⟩ | ⟨front, rfl, hfront⟩
    · exact absurd heq (hnever tag)
    · refine ⟨tag, front, hfront, (hlevel front).symm.trans hdepth, inner, ?_⟩
      rcases List.mem_append.1 hinner with hmem | hmem
      · exact hmem
      · exact absurd (List.mem_singleton.1 hmem) (hnever inner)
  · rintro ⟨tag, inside, hsuffix, hdepth, inner, hinner⟩
    exact ⟨tag, inside ++ [t], cons_suffix_concat.2 (.inr ⟨inside, rfl, hsuffix⟩),
      (hlevel inside).trans hdepth, inner, List.mem_append_left _ hinner⟩

/-- `HoldsElement` is true behind an end tag, where another element is still open. -/
theorem holdsElement_finish {before : List Token} {depth : Nat}
    (h : depthAfter? 0 before = some (depth + 2)) (name : Name) :
    HoldsElement (before ++ [.finish name]) := by
  obtain ⟨outside, tag, inside, rfl, houtside, hinside⟩ := exists_innermost h
  obtain ⟨outer, outerTag, between, rfl, -, hbetween⟩ := exists_innermost houtside
  exact ⟨outerTag, between ++ .start tag :: (inside ++ [.finish name]), ⟨outer, by simp⟩,
    depthAfter?_element hbetween hinside tag name, tag, by simp⟩

/-! ### A layout that keeps up -/

namespace Layout

/-- The beginning of a line: a line feed if it is not the first one, the lead, and some units. -/
def beginning (newline : Bool) (lead unit : String) (k : Nat) : String :=
  (if newline then "\n" else "") ++ lead ++ String.join (List.replicate k unit)

/-- A layout knows what the tokens before tell. -/
structure Follows (l : Layout) (before : List Token) : Prop where
  /-- It has counted the open elements. -/
  depth : depthAfter? 0 before = some l.depth
  /-- It knows whether the innermost one holds an element. -/
  opened : 0 < l.depth → (l.opened = true ↔ ¬HoldsElement before)
  /-- It knows whether a line was begun. -/
  started : l.started = true ↔ LineBegun before

/-- `move` changes neither `lead` nor `unit`. -/
theorem words_move (l : Layout) (s? : Option Shift) :
    (l.move s?).2.lead = l.lead ∧ (l.move s?).2.unit = l.unit := by
  cases s? with
  | none => exact ⟨rfl, rfl⟩
  | some s =>
      cases s with
      | deeper => exact ⟨rfl, rfl⟩
      | level => exact ⟨rfl, rfl⟩
      | back =>
          simp only [move, shift]
          split <;> exact ⟨rfl, rfl⟩

theorem depth_move (l : Layout) {t : Token} {after : Nat} (h : t.depthAfter? l.depth = some after) :
    (l.move t.shift?).2.depth = after := by
  cases t with
  | start tag => exact Option.some.inj h
  | finish name =>
      obtain ⟨-, rfl⟩ := Token.depthAfter?_finish.1 h
      simp only [Token.shift?, move, shift]
      split <;> rfl
  | _ => exact Option.some.inj h

/-- `move` puts nothing before a token, or the `beginning` of a line. -/
theorem move_fst (l : Layout) (s? : Option Shift) :
    (l.move s?).1 = "" ∨ ∃ newline k, (l.move s?).1 = beginning newline l.lead l.unit k := by
  cases s? with
  | none => exact .inl rfl
  | some s =>
      cases s with
      | deeper => exact .inr ⟨l.started, l.depth, rfl⟩
      | level => exact .inr ⟨l.started, l.depth, rfl⟩
      | back =>
          simp only [move, shift]
          split
          · exact .inl rfl
          · exact .inr ⟨l.started, l.depth - 1, rfl⟩

namespace Follows

variable {l : Layout} {before : List Token} {t : Token} {after : Nat}

/-- A layout that `Follows` the tokens knows whether the next one `GetsLine`, and with how many
units. -/
theorem line (h : l.Follows before) (ht : t.depthAfter? l.depth = some after) :
    (¬GetsLine before t → (l.move t.shift?).1 = "") ∧
      (GetsLine before t → ∃ k, depthAround? before t = some k ∧
        (l.move t.shift?).1 = beginning l.started l.lead l.unit k) := by
  cases t with
  | finish name =>
      obtain ⟨hpos, rfl⟩ := Token.depthAfter?_finish.1 ht
      have hopened := h.opened hpos
      have haround : depthAround? before (.finish name) = some (l.depth - 1) := by
        rw [depthAround?, depthAfter?_concat, h.depth]
        exact ht
      simp only [GetsLine, Token.shift?, move, shift]
      constructor
      · intro hbare
        rw [if_pos (hopened.2 hbare)]
      · intro hholds
        have hclosed : ¬l.opened = true := fun htrue => hopened.1 htrue hholds
        refine ⟨l.depth - 1, haround, ?_⟩
        rw [if_neg hclosed]
        rfl
  | text content => exact ⟨fun _ => rfl, False.elim⟩
  | cdata content => exact ⟨fun _ => rfl, False.elim⟩
  | _ => exact ⟨fun h => absurd trivial h, fun _ => ⟨l.depth, h.depth, rfl⟩⟩

/-- A layout that `Follows` the tokens written before follows them with the next one too. -/
theorem next (h : l.Follows before) (ht : t.depthAfter? l.depth = some after) :
    (l.move t.shift?).2.Follows (before ++ [t]) where
  depth := by
    rw [depthAfter?_concat, h.depth, Option.bind_some, ht, l.depth_move ht]
  opened := by
    rw [l.depth_move ht]
    intro hpos
    rcases t.tag_or_names_eq_nil with ⟨tag, rfl⟩ | ⟨name, rfl⟩ | hplain
    · exact iff_of_true rfl (not_holdsElement_start before tag)
    · -- the element around holds the one that is closed
      obtain ⟨-, rfl⟩ := Token.depthAfter?_finish.1 ht
      obtain ⟨outer, houter⟩ : ∃ outer, l.depth = outer + 2 := ⟨l.depth - 2, by omega⟩
      have hholds := holdsElement_finish (h.depth.trans (congrArg some houter)) name
      refine iff_of_false ?_ (not_not_intro hholds)
      simp only [Token.shift?, move, shift]
      split <;> exact Bool.false_ne_true
    · rw [Token.depthAfter?_of_names_eq_nil hplain] at ht
      obtain rfl := Option.some.inj ht
      rw [holdsElement_content hplain, ← h.opened hpos]
      cases t with
      | start tag => exact absurd hplain (List.cons_ne_nil _ _)
      | finish name => exact absurd hplain (List.cons_ne_nil _ _)
      | _ => rfl
  started := by
    rw [lineBegun_concat, ← h.started]
    cases t with
    | finish name =>
        have hopened := h.opened (Token.depthAfter?_finish.1 ht).1
        simp only [GetsLine, Token.shift?, move, shift]
        by_cases hlast : l.opened = true
        · rw [if_pos hlast]
          exact (or_iff_left (hopened.1 hlast)).symm
        · rw [if_neg hlast]
          exact iff_of_true rfl (.inr (not_not.1 fun hbare => hlast (hopened.2 hbare)))
    | text content => exact (or_iff_left id).symm
    | cdata content => exact (or_iff_left id).symm
    | _ => exact iff_of_true rfl (.inr trivial)

end Follows

end Layout

namespace Encoder

/-! ### Runs in which all is written -/

theorem encodeAll_concat_ok {e : Encoder} {before : List Token} {t : Token}
    (h : (e.encodeAll (before ++ [t])).outcome = .ok ()) :
    (e.encodeAll before).outcome = .ok () ∧ ((e.afterEach before).encode t).outcome = .ok () := by
  induction before generalizing e with
  | nil => exact ⟨rfl, (encodeAll_cons_ok h).1⟩
  | cons first before ih =>
      obtain ⟨hfirst, hrest, -⟩ := encodeAll_cons_ok h
      obtain ⟨hbefore, ht⟩ := ih hrest
      refine ⟨?_, ht⟩
      rw [encodeAll]
      generalize e.encode first = written at hfirst hbefore
      obtain ⟨text, next, outcome⟩ := written
      obtain rfl : outcome = .ok () := hfirst
      exact hbefore

theorem countP_of_unwind {e : Encoder} {marks : List Mark} {name : Name}
    (h : (e.unwind marks).1 = some name) : 0 < marks.countP Mark.isElement := by
  induction marks generalizing e with
  | nil => cases h
  | cons mark marks ih =>
      cases mark with
      | element opened => exact List.countP_pos_iff.2 ⟨.element opened, List.mem_cons_self, rfl⟩
      | binding label previous =>
          rw [List.countP_cons_of_neg Bool.false_ne_true]
          exact ih h

/-- An end tag that `encodeEnd` writes closes an element, and takes just this one from the marks. -/
theorem countP_of_encodeEnd {e : Encoder} {name : Name}
    (h : (e.encodeEnd name).outcome = .ok ()) :
    0 < e.marks.countP Mark.isElement ∧
      (e.encodeEnd name).encoder.marks.countP Mark.isElement =
        e.marks.countP Mark.isElement - 1 := by
  have hbelow := e.countP_unwind e.marks
  unfold encodeEnd at h ⊢
  split at h
  · cases h
  · split at h
    · cases h
    · rename_i hunwind
      rw [hunwind] at hbelow
      split at h
      · rename_i hname
        refine ⟨countP_of_unwind (congrArg Prod.fst hunwind), ?_⟩
        rw [if_pos hname]
        exact hbelow
      · cases h

/-- The elements among the marks are as many as `depthAfter?` says, behind every token that is
written. -/
theorem depthAfter?_of_ok {e : Encoder} {t : Token} (h : (e.encode t).outcome = .ok ()) :
    t.depthAfter? (e.marks.countP Mark.isElement) =
      some ((e.encode t).encoder.marks.countP Mark.isElement) := by
  cases t with
  | start tag =>
      show some _ = some ((e.encodeStart tag).encoder.marks.countP Mark.isElement)
      rw [encodeStart_eq, countP_entered]
  | finish name => exact Token.depthAfter?_finish.2 (countP_of_encodeEnd h)
  | _ => rfl

/-! ### What a layout adds -/

/-- What a layout set before the first token adds to a token that is given after others. -/
structure OnlyInserts (lead unit : String) (e : Encoder) (before : List Token) (t : Token) :
    Prop where
  /-- The token is written, or fails, as it does without a layout. -/
  outcome : (((e.withLayout lead unit).afterEach before).encode t).outcome =
    ((e.afterEach before).encode t).outcome
  /-- The marks are the same after it. -/
  marks : ((e.withLayout lead unit).afterEach (before ++ [t])).marks =
    (e.afterEach (before ++ [t])).marks
  /-- The URIs of the prefixes are the same after it. -/
  uris : ((e.withLayout lead unit).afterEach (before ++ [t])).uris =
    (e.afterEach (before ++ [t])).uris
  /-- The prefixes of the URIs are the same after it. -/
  labels : ((e.withLayout lead unit).afterEach (before ++ [t])).labels =
    (e.afterEach (before ++ [t])).labels
  /-- What is written is the same behind the beginning of a line, or behind nothing. -/
  text : ∃ inserted, (((e.withLayout lead unit).afterEach before).encode t).text =
      inserted ++ ((e.afterEach before).encode t).text ∧
    (inserted = "" ∨ ∃ newline k, inserted = Layout.beginning newline lead unit k)
  /-- If all can be written, a token without a line of its own gets nothing. -/
  bare : (e.encodeAll (before ++ [t])).outcome = .ok () → ¬GetsLine before t →
    (((e.withLayout lead unit).afterEach before).encode t).text =
      ((e.afterEach before).encode t).text
  /-- If all can be written, a token with a line of its own gets a unit for each element around, and
  a line feed unless it has the first line. -/
  line : (e.encodeAll (before ++ [t])).outcome = .ok () → GetsLine before t →
    ∃ newline k, (newline = true ↔ LineBegun before) ∧ depthAround? before t = some k ∧
      (((e.withLayout lead unit).afterEach before).encode t).text =
        Layout.beginning newline lead unit k ++ ((e.afterEach before).encode t).text
  /-- If all can be written, it is the end tags of elements without elements that get nothing. -/
  closing : (e.encodeAll (before ++ [t])).outcome = .ok () → ∀ name, t = .finish name →
    ((((e.withLayout lead unit).afterEach before).encode t).text =
      ((e.afterEach before).encode t).text ↔ ¬HoldsElement before)

/-- As long as all tokens are written a layout knows what they tell, and has counted the elements
among the marks. -/
def KeepsUp (e : Encoder) (l : Layout) (before : List Token) : Prop :=
  (e.encodeAll before).outcome = .ok () →
    l.Follows before ∧ l.depth = (e.afterEach before).marks.countP Mark.isElement

/-- What a layout that `KeepsUp` knows about a token that is written too. -/
theorem KeepsUp.of_ok {e : Encoder} {l : Layout} {before : List Token} {t : Token}
    (h : e.KeepsUp l before) (hok : (e.encodeAll (before ++ [t])).outcome = .ok ()) :
    l.Follows before ∧
      t.depthAfter? l.depth = some ((e.afterEach (before ++ [t])).marks.countP Mark.isElement) ∧
      (e.afterEach before).shift? t = t.shift? := by
  obtain ⟨hbefore, ht⟩ := encodeAll_concat_ok hok
  obtain ⟨hl, hdepth⟩ := h hbefore
  refine ⟨hl, ?_, shift?_of_ok ht⟩
  rw [hdepth, afterEach_append]
  exact depthAfter?_of_ok ht

/-- An encoder with a layout gets where the same encoder without it does, and its layout `KeepsUp`.
-/
theorem exists_page {e : Encoder} (hmarks : e.marks = []) (hlayout : e.layout = none)
    (lead unit : String) (before : List Token) :
    ∃ l : Layout, l.lead = lead ∧ l.unit = unit ∧ e.KeepsUp l before ∧
      (e.withLayout lead unit).afterEach before = (e.afterEach before).within [] (some l) := by
  induction before using List.reverseRecOn with
  | nil =>
      refine ⟨{ lead, unit }, rfl, rfl, ?_, ?_⟩
      · intro _
        refine ⟨⟨rfl, fun hpos => absurd hpos (Nat.lt_irrefl 0), ?_⟩, ?_⟩
        · refine iff_of_false Bool.false_ne_true ?_
          rintro ⟨earlier, t, hprefix, -⟩
          exact absurd (List.prefix_nil.1 hprefix) (by simp)
        · show 0 = e.marks.countP Mark.isElement
          rw [hmarks]
          rfl
      · show e.withLayout lead unit = e.within [] _
        rw [within_nil]
        rfl
  | append_singleton before t ih =>
      obtain ⟨l, rfl, rfl, hkeeps, hrun⟩ := ih
      have hencode := encode_within (layout_afterEach hlayout before) [] (some l) t
        fun _ _ => .inl rfl
      obtain ⟨hlead, hunit⟩ := l.words_move ((e.afterEach before).shift? t)
      refine ⟨(l.move ((e.afterEach before).shift? t)).2, hlead, hunit, ?_, ?_⟩
      · intro hok
        obtain ⟨hl, hafter, hshift⟩ := hkeeps.of_ok hok
        rw [hshift]
        exact ⟨hl.next hafter, l.depth_move hafter⟩
      · rw [afterEach_append, hrun, afterEach_append]
        exact congrArg Encoded.encoder hencode

theorem beginning_append_ne {lead unit text : String} {k : Nat} :
    Layout.beginning true lead unit k ++ text ≠ text := by
  intro h
  have hlength := congrArg String.length h
  simp [Layout.beginning] at hlength

/-- Where `HoldsElement` is true, a line was begun. -/
theorem lineBegun_of_holdsElement {before : List Token} (h : HoldsElement before) :
    LineBegun before := by
  obtain ⟨tag, inside, ⟨outside, rfl⟩, -, -⟩ := h
  exact ⟨outside, .start tag, ⟨inside, by simp⟩, trivial⟩

/-- **A layout only inserts.** A layout does nothing but put beginnings of lines before tokens,
whether these can be written or not. Where all can be written, text and CDATA get none, an end tag
gets one if its element holds an element, and every other token gets one. -/
theorem onlyInserts {e : Encoder} (hmarks : e.marks = []) (hlayout : e.layout = none)
    (lead unit : String) (before : List Token) (t : Token) : OnlyInserts lead unit e before t := by
  obtain ⟨l, rfl, rfl, hkeeps, hrun⟩ := exists_page hmarks hlayout lead unit before
  have hencode := encode_within (layout_afterEach hlayout before) [] (some l) t
    fun _ _ => .inl rfl
  rw [← hrun] at hencode
  have hafter : (e.withLayout l.lead l.unit).afterEach (before ++ [t]) =
      (e.afterEach (before ++ [t])).within []
        (some (l.move ((e.afterEach before).shift? t)).2) := by
    rw [afterEach_append, afterEach_append]
    exact congrArg Encoded.encoder hencode
  have htext : (((e.withLayout l.lead l.unit).afterEach before).encode t).text =
      (l.move ((e.afterEach before).shift? t)).1 ++ ((e.afterEach before).encode t).text :=
    congrArg Encoded.text hencode
  have hbare : (e.encodeAll (before ++ [t])).outcome = .ok () → ¬GetsLine before t →
      (((e.withLayout l.lead l.unit).afterEach before).encode t).text =
        ((e.afterEach before).encode t).text := by
    intro hok hnone
    obtain ⟨hl, hdepth, hshift⟩ := hkeeps.of_ok hok
    rw [htext, hshift, (hl.line hdepth).1 hnone, String.empty_append]
  refine ⟨(congrArg Encoded.outcome hencode :), ?_, ?_, ?_, ⟨_, htext, l.move_fst _⟩, hbare, ?_,
    ?_⟩
  · rw [hafter]
    exact List.append_nil _
  · rw [hafter]
    rfl
  · rw [hafter]
    rfl
  · intro hok hgets
    obtain ⟨hl, hdepth, hshift⟩ := hkeeps.of_ok hok
    obtain ⟨k, haround, hinserted⟩ := (hl.line hdepth).2 hgets
    exact ⟨l.started, k, hl.started, haround, by rw [htext, hshift, hinserted]⟩
  · rintro hok name rfl
    refine ⟨?_, hbare hok⟩
    -- an insertion before an end tag has a line feed, so that it is never empty
    intro hsame hholds
    obtain ⟨hl, hdepth, hshift⟩ := hkeeps.of_ok hok
    obtain ⟨k, -, hinserted⟩ := (hl.line hdepth).2 hholds
    rw [htext, hshift, hinserted, hl.started.2 (lineBegun_of_holdsElement hholds)] at hsame
    exact beginning_append_ne hsame

/-- An element with an element inside, and one without. -/
theorem onlyInserts_child :
    let a : StartTag := ⟨⟨"", "a"⟩, []⟩
    let b : StartTag := ⟨⟨"", "b"⟩, []⟩
    let before : List Token := [.start a, .text "x", .start b, .finish b.name]
    (({} : Encoder).marks = [] ∧ ({} : Encoder).layout = none) ∧
      (({} : Encoder).encodeAll (before ++ [.finish a.name])).outcome = .ok () ∧
      HoldsElement before ∧
      OnlyInserts "" "  " {} before (.finish a.name) ∧
      (((({} : Encoder).withLayout "" "  ").afterEach before).encode (.finish a.name)).text ≠
        ((({} : Encoder).afterEach before).encode (.finish a.name)).text := by
  intro a b before
  have hok : (({} : Encoder).encodeAll (before ++ [.finish a.name])).outcome = .ok () := by rfl
  have hholds : HoldsElement before :=
    ⟨a, [.text "x", .start b, .finish b.name], List.suffix_rfl, rfl, b, by simp⟩
  have hinserts := onlyInserts (e := {}) rfl rfl "" "  " before (.finish a.name)
  refine ⟨⟨rfl, rfl⟩, hok, hholds, hinserts, ?_⟩
  intro hsame
  exact (hinserts.closing hok a.name rfl).1 hsame hholds

/-- Elements without elements stay on their lines. -/
example :
    ((({} : Encoder).withLayout "" "  ").encodeAll [.start ⟨⟨"", "a"⟩, []⟩,
      .start ⟨⟨"", "b"⟩, []⟩, .finish ⟨"", "b"⟩, .start ⟨⟨"", "c"⟩, []⟩, .finish ⟨"", "c"⟩,
      .finish ⟨"", "a"⟩]).text = "<a>\n  <b></b>\n  <c></c>\n</a>" := by
  decide +kernel

end Encoder

end ResourceShards.Markup
