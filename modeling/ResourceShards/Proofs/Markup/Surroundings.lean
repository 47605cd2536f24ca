import ResourceShards.Proofs.Markup.Lexing
import ResourceShards.Proofs.Markup.Undo

/-!
# ResourceShards.Proofs.Markup.Surroundings

**Where an encoder stands.** Names are written from the tables alone. The marks below those of the
elements that tokens open and close are out of reach, and a page only decides what goes before a
token. So the same tokens are written inside other elements, and on another page, as they are
anywhere else with these tables. A child encoder has the tables of its parent and none of its marks:
it writes what the parent would, and from then on neither hears of the other.

* `Encoder.encode_within`: what other elements around and another page change about a token
* `Encoder.run_within`: what they change about a run, past tokens that can not be written
* `WholeElements`: tokens that close what they open
* `Encoder.child_writes_alike`: a child writes what its parent would, whoever has a turn between
-/

namespace ResourceShards.Markup

/-! ### Tags and the rest -/

theorem Token.depthAfter?_of_names_eq_nil {t : Token} (h : t.names = []) (depth : Nat) :
    t.depthAfter? depth = some depth := by
  cases t with
  | start tag => exact absurd h (List.cons_ne_nil _ _)
  | finish name => exact absurd h (List.cons_ne_nil _ _)
  | _ => rfl

theorem Token.depthAfter?_finish {name : Name} {depth after : Nat} :
    (Token.finish name).depthAfter? depth = some after ↔ 0 < depth ∧ after = depth - 1 := by
  unfold Token.depthAfter?
  by_cases h : depth = 0
  · simp [h]
  · simp [h, Nat.pos_of_ne_zero h, eq_comm]

/-! ### Pages -/

/-- What a token that is written does to the depth, if it does anything to a page. -/
def Token.shift? : Token → Option Shift
  | .start _ => some .deeper
  | .finish _ => some .back
  | .text _ => none
  | .cdata _ => none
  | .comment _ => some .level
  | .instruction _ => some .level
  | .doctype _ => some .level

namespace Layout

/-- What goes before a token, and where it leads, if it does anything to the page. -/
def move (l : Layout) : Option Shift → String × Layout
  | none => ("", l)
  | some s => l.shift s

/-- `move` on a page that may not be there. -/
def moved (page : Option Layout) (s? : Option Shift) : String × Option Layout :=
  (page.elim "" fun l => (l.move s?).1, page.map fun l => (l.move s?).2)

@[simp] theorem moved_none (s? : Option Shift) : moved none s? = ("", none) := rfl

@[simp] theorem moved_still (page : Option Layout) : moved page none = ("", page) := by
  cases page <;> rfl

end Layout

namespace Encoder

/-- What a token does to a page of the encoder. An end tag that can not be written leaves the page
as it is. -/
def shift? (e : Encoder) : Token → Option Shift
  | .finish name =>
    match (e.encodeEnd name).outcome with
    | .ok () => some .back
    | .error _ => none
  | t => t.shift?

theorem shift?_of_ok {e : Encoder} {t : Token} (h : (e.encode t).outcome = .ok ()) :
    e.shift? t = t.shift? := by
  cases t with
  | finish name =>
      have hend : (e.encodeEnd name).outcome = .ok () := h
      rw [shift?, hend]
      rfl
  | _ => rfl

theorem lead_within (e : Encoder) (outer : List Mark) (page : Option Layout) (s : Shift) :
    (e.within outer page).lead s = (Layout.moved page (some s)).1 := by
  cases page <;> rfl

theorem shifted_within (e : Encoder) (outer : List Mark) (page : Option Layout) (s : Shift) :
    (e.within outer page).shifted s = e.within outer (Layout.moved page (some s)).2 :=
  rfl

/-- An encoder without a layout is its own `child`, put back `within` its own elements. -/
theorem child_within {e : Encoder} (h : e.layout = none) : e.child.within e.marks none = e := by
  rw [← h]
  rfl

/-! ### Start tags -/

/-- A start tag as it is written with the prefixes in sight, up to the first name that can not be
written. -/
def tagText (inner : Encoder) (tag : StartTag) : String × Except Error Unit :=
  match inner.qualify false tag.name with
  | .error err => ("", .error err)
  | .ok name =>
    match inner.attributesText tag.attributes with
    | (text, .ok ()) => ("<" ++ name ++ text ++ ">", .ok ())
    | (text, .error err) => ("<" ++ name ++ text, .error err)

/-- The encoder behind a start tag. -/
def entered (e : Encoder) (tag : StartTag) : Encoder :=
  tag.attributes.foldl bindDeclared (e.opening tag.name)

theorem encodeStart_eq (e : Encoder) (tag : StartTag) :
    e.encodeStart tag = ⟨e.lead .deeper ++ ((e.entered tag).tagText tag).1, e.entered tag,
      ((e.entered tag).tagText tag).2⟩ := by
  show (match (e.entered tag).qualify false tag.name with | .error _ => _ | .ok _ => _) = _
  unfold tagText
  cases (e.entered tag).qualify false tag.name with
  | error err => simp [entered, opening]
  | ok name =>
      show (match (e.entered tag).attributesText tag.attributes with
        | (_, .ok ()) => _ | (_, .error _) => _) = _
      simp only
      generalize (e.entered tag).attributesText tag.attributes = written
      obtain ⟨text, outcome⟩ := written
      cases outcome <;> simp [String.append_assoc, entered, opening]

theorem bindDeclared_within (e : Encoder) (outer : List Mark) (page : Option Layout)
    (a : Attribute) :
    (e.within outer page).bindDeclared a = (e.bindDeclared a).within outer page := by
  unfold bindDeclared
  cases a.name.declaredLabel? <;> rfl

theorem entered_within (e : Encoder) (outer : List Mark) (page : Option Layout) (tag : StartTag) :
    (e.within outer page).entered tag =
      (e.entered tag).within outer (Layout.moved page (some .deeper)).2 := by
  have hfold : ∀ (attributes : List Attribute) (e : Encoder) (page : Option Layout),
      attributes.foldl bindDeclared (e.within outer page) =
        (attributes.foldl bindDeclared e).within outer page := by
    intro attributes
    induction attributes with
    | nil =>
        intro e page
        rfl
    | cons a attributes ih =>
        intro e page
        rw [List.foldl_cons, bindDeclared_within, ih, List.foldl_cons]
  exact hfold tag.attributes (e.opening tag.name) _

theorem attributesText_within (e : Encoder) (outer : List Mark) (page : Option Layout)
    (attributes : List Attribute) :
    (e.within outer page).attributesText attributes = e.attributesText attributes := by
  induction attributes with
  | nil => rfl
  | cons a attributes ih =>
      have hname : (e.within outer page).qualify true a.name = e.qualify true a.name := rfl
      rw [attributesText, attributesText, hname, ih]

/-- `tagText` depends on the tables alone. -/
theorem tagText_within (e : Encoder) (outer : List Mark) (page : Option Layout) (tag : StartTag) :
    (e.within outer page).tagText tag = e.tagText tag := by
  have hname : (e.within outer page).qualify false tag.name = e.qualify false tag.name := rfl
  rw [tagText, tagText, hname, attributesText_within]

/-! ### End tags -/

theorem encodeEnd_within {e : Encoder} (hlayout : e.layout = none) (outer : List Mark)
    (page : Option Layout) (name : Name)
    (h : outer = [] ∨ 0 < e.marks.countP Mark.isElement) :
    (e.within outer page).encodeEnd name =
      ⟨(Layout.moved page (e.shift? (.finish name))).1 ++ (e.encodeEnd name).text,
        (e.encodeEnd name).encoder.within outer (Layout.moved page (e.shift? (.finish name))).2,
        (e.encodeEnd name).outcome⟩ := by
  have hname : (e.within outer page).qualify false name = e.qualify false name := rfl
  have hmarks : (e.within outer page).marks = e.marks ++ outer := rfl
  have hunwind : (e.within outer page).unwind (e.marks ++ outer) =
      ((e.unwind e.marks).1, (e.unwind e.marks).2.within outer page) :=
    e.unwind_append (e.marks ++ outer) e.marks page h
  have hbelow : (e.unwind e.marks).2.layout = none := (e.layout_unwind e.marks).trans hlayout
  rw [shift?]
  unfold encodeEnd
  rw [hname]
  cases e.qualify false name with
  | error err => simp
  | ok qualified =>
      simp only
      rw [hmarks, hunwind]
      generalize e.unwind e.marks = unwound at hbelow
      obtain ⟨opened, below⟩ := unwound
      cases opened with
      | none => simp
      | some opened =>
          by_cases heq : opened = name
          · simp [heq, lead_within, shifted_within, lead_of_layout hbelow,
              shifted_of_layout hbelow, String.append_assoc]
          · simp [heq]

/-! ### One token -/

/-- What an encoder is `within` changes nothing about a token but what goes before it, unless the
token closes one of the elements around. -/
theorem encode_within {e : Encoder} (hlayout : e.layout = none) (outer : List Mark)
    (page : Option Layout) (t : Token)
    (h : ∀ name, t = .finish name → outer = [] ∨ 0 < e.marks.countP Mark.isElement) :
    (e.within outer page).encode t =
      ⟨(Layout.moved page (e.shift? t)).1 ++ (e.encode t).text,
        (e.encode t).encoder.within outer (Layout.moved page (e.shift? t)).2,
        (e.encode t).outcome⟩ := by
  cases t with
  | start tag =>
      show (e.within outer page).encodeStart tag = ⟨_ ++ (e.encodeStart tag).text,
        (e.encodeStart tag).encoder.within outer _, (e.encodeStart tag).outcome⟩
      rw [encodeStart_eq, encodeStart_eq, entered_within, tagText_within, lead_within,
        lead_of_layout hlayout, String.empty_append]
      rfl
  | finish name => exact encodeEnd_within hlayout outer page name (h name rfl)
  | text content => simp [encode, shift?, Token.shift?]
  | cdata content => simp [encode, shift?, Token.shift?]
  | comment content =>
      simp [encode, shift?, Token.shift?, lead_within, shifted_within, lead_of_layout hlayout,
        shifted_of_layout hlayout, String.append_assoc]
  | instruction content =>
      simp [encode, shift?, Token.shift?, lead_within, shifted_within, lead_of_layout hlayout,
        shifted_of_layout hlayout, String.append_assoc]
  | doctype content =>
      simp [encode, shift?, Token.shift?, lead_within, shifted_within, lead_of_layout hlayout,
        shifted_of_layout hlayout, String.append_assoc]

/-- `encode` gives no layout to an encoder without one. -/
theorem layout_encode {e : Encoder} (h : e.layout = none) (t : Token) :
    (e.encode t).encoder.layout = none := by
  have hsame : e.within [] none = e := by
    rw [within_nil, ← h]
  have hencode := encode_within h [] none t fun _ _ => .inl rfl
  rw [hsame] at hencode
  rw [hencode, Layout.moved_none]
  rfl

/-! ### Runs, whether all is written or not -/

/-- The encoder after it was given some tokens, of which it may not have been able to write all. -/
def afterEach (e : Encoder) (tokens : List Token) : Encoder :=
  tokens.foldl (fun e t => (e.encode t).encoder) e

@[simp] theorem afterEach_append (e : Encoder) (tokens more : List Token) :
    e.afterEach (tokens ++ more) = (e.afterEach tokens).afterEach more :=
  List.foldl_append

theorem layout_afterEach {e : Encoder} (h : e.layout = none) (tokens : List Token) :
    (e.afterEach tokens).layout = none := by
  induction tokens generalizing e with
  | nil => exact h
  | cons t tokens ih => exact ih (layout_encode h t)

/-- What came of each of some tokens: what was written, and whether it is all of the token. -/
def answers (e : Encoder) : List Token → List (String × Except Error Unit)
  | [] => []
  | t :: rest => ((e.encode t).text, (e.encode t).outcome) :: (e.encode t).encoder.answers rest

/-- `encodeAll` is told by the `answers` to each token. -/
theorem encodeAll_congr {e e' : Encoder} {tokens : List Token}
    (h : e.answers tokens = e'.answers tokens) :
    (e.encodeAll tokens).text = (e'.encodeAll tokens).text ∧
      (e.encodeAll tokens).outcome = (e'.encodeAll tokens).outcome := by
  induction tokens generalizing e e' with
  | nil => exact ⟨rfl, rfl⟩
  | cons t tokens ih =>
      simp only [answers, List.cons.injEq, Prod.mk.injEq] at h
      obtain ⟨⟨htext, houtcome⟩, hrest⟩ := h
      rw [encodeAll, encodeAll]
      generalize e.encode t = first at htext houtcome hrest
      generalize e'.encode t = first' at htext houtcome hrest
      obtain ⟨text, next, outcome⟩ := first
      obtain ⟨text', next', outcome'⟩ := first'
      obtain rfl : text = text' := htext
      obtain rfl : outcome = outcome' := houtcome
      cases outcome with
      | error err => exact ⟨rfl, rfl⟩
      | ok _ =>
          obtain ⟨hmore, hlast⟩ := ih hrest
          exact ⟨congrArg (text ++ ·) hmore, hlast⟩

/-! ### Elements of its own -/

theorem countP_bindDeclared (e : Encoder) (a : Attribute) :
    (e.bindDeclared a).marks.countP Mark.isElement = e.marks.countP Mark.isElement := by
  unfold bindDeclared
  cases a.name.declaredLabel? with
  | none => rfl
  | some label => exact List.countP_cons_of_neg Bool.false_ne_true

theorem countP_entered (e : Encoder) (tag : StartTag) :
    (e.entered tag).marks.countP Mark.isElement = e.marks.countP Mark.isElement + 1 := by
  have hopening : (e.opening tag.name).marks.countP Mark.isElement =
      e.marks.countP Mark.isElement + 1 := List.countP_cons_of_pos rfl
  rw [entered, ← hopening]
  generalize e.opening tag.name = inner
  induction tag.attributes generalizing inner with
  | nil => rfl
  | cons a attributes ih => rw [List.foldl_cons, ih, countP_bindDeclared]

theorem countP_unwind (e : Encoder) (marks : List Mark) :
    (e.unwind marks).2.marks.countP Mark.isElement = marks.countP Mark.isElement - 1 := by
  induction marks generalizing e with
  | nil => rfl
  | cons mark marks ih =>
      cases mark with
      | element name =>
          show marks.countP Mark.isElement = _
          rw [List.countP_cons_of_pos rfl, Nat.add_sub_cancel]
      | binding label previous =>
          rw [List.countP_cons_of_neg Bool.false_ne_true]
          exact ih _

/-- The elements that tokens opened are among the marks: a start tag leaves one even if it fails,
and an end tag takes one at most. -/
theorem le_countP_encode {e : Encoder} {t : Token} {depth after : Nat}
    (hdepth : t.depthAfter? depth = some after) (h : depth ≤ e.marks.countP Mark.isElement) :
    after ≤ (e.encode t).encoder.marks.countP Mark.isElement := by
  cases t with
  | start tag =>
      obtain rfl := Option.some.inj hdepth
      show depth + 1 ≤ (e.encodeStart tag).encoder.marks.countP Mark.isElement
      rw [encodeStart_eq, countP_entered]
      exact Nat.succ_le_succ h
  | finish name =>
      obtain ⟨-, rfl⟩ := Token.depthAfter?_finish.1 hdepth
      show depth - 1 ≤ (e.encodeEnd name).encoder.marks.countP Mark.isElement
      rcases e.encoder_encodeEnd name with ⟨-, hmarks⟩ | ⟨-, hmarks⟩
      · rw [hmarks]
        exact Nat.le_trans (Nat.sub_le _ _) h
      · rw [hmarks, countP_unwind]
        exact Nat.sub_le_sub_right h 1
  | _ =>
      obtain rfl := Option.some.inj hdepth
      exact h

/-- Tokens that close no elements but their own have the same `answers` within any elements. -/
theorem run_within {e : Encoder} (hlayout : e.layout = none) (outer : List Mark)
    {tokens : List Token} {depth after : Nat} (hdepth : depthAfter? depth tokens = some after)
    (h : depth ≤ e.marks.countP Mark.isElement) :
    (e.within outer none).answers tokens = e.answers tokens ∧
      (e.within outer none).afterEach tokens = (e.afterEach tokens).within outer none := by
  induction tokens generalizing e depth with
  | nil => exact ⟨rfl, rfl⟩
  | cons t tokens ih =>
      rw [depthAfter?_cons, Option.bind_eq_some_iff] at hdepth
      obtain ⟨middle, hmiddle, hrest⟩ := hdepth
      have hown : ∀ name, t = .finish name → outer = [] ∨ 0 < e.marks.countP Mark.isElement := by
        rintro name rfl
        obtain ⟨hpos, -⟩ := Token.depthAfter?_finish.1 hmiddle
        exact .inr (Nat.lt_of_lt_of_le hpos h)
      have hencode := encode_within hlayout outer none t hown
      rw [Layout.moved_none, String.empty_append] at hencode
      obtain ⟨hanswers, hafter⟩ := ih (layout_encode hlayout t) hrest (le_countP_encode hmiddle h)
      refine ⟨?_, ?_⟩
      · rw [answers, answers, hencode, hanswers]
      · rw [afterEach, afterEach, List.foldl_cons, List.foldl_cons, hencode]
        exact hafter

end Encoder

/-- Tokens in which every element is closed by an end tag of its name, inside the element in which
it was opened. -/
inductive WholeElements : List Token → Prop where
  /-- Nothing. -/
  | nil : WholeElements []
  /-- Text, a comment or the like, and what follows it. -/
  | content {t : Token} {rest : List Token} (plain : t.names = []) (hrest : WholeElements rest) :
      WholeElements (t :: rest)
  /-- An element and what follows it. -/
  | element (tag : StartTag) {inside rest : List Token} (hinside : WholeElements inside)
      (hrest : WholeElements rest) :
      WholeElements (.start tag :: (inside ++ .finish tag.name :: rest))

theorem WholeElements.depthAfter?_eq {tokens : List Token} (h : WholeElements tokens) :
    ∀ depth, depthAfter? depth tokens = some depth := by
  induction h with
  | nil =>
      intro depth
      rfl
  | @content t rest plain hrest ih =>
      intro depth
      rw [depthAfter?_cons, Token.depthAfter?_of_names_eq_nil plain, Option.bind_some]
      exact ih depth
  | element tag hinside hrest ihInside ihRest =>
      intro depth
      rw [depthAfter?_cons, Token.depthAfter?, Option.bind_some, depthAfter?_append,
        ihInside (depth + 1), Option.bind_some]
      exact ihRest depth

namespace Encoder

/-! ### Parent and child -/

/-- One of the two. -/
inductive Member where
  /-- The encoder that was there before. -/
  | parent
  /-- The one that was made from it. -/
  | child
  deriving DecidableEq, Repr

/-- A parent and its child, with what came of the tokens that each of them was given. -/
structure Family where
  /-- The parent. -/
  parent : Encoder
  /-- The child. -/
  child : Encoder
  /-- What came of the parent's tokens since there is a child. -/
  byParent : List (String × Except Error Unit) := []
  /-- What came of the child's tokens. -/
  byChild : List (String × Except Error Unit) := []

namespace Family

/-- One of the two is given a token. -/
def give (f : Family) : Member × Token → Family
  | (.parent, t) =>
    { f with
      parent := (f.parent.encode t).encoder
      byParent := f.byParent ++ [((f.parent.encode t).text, (f.parent.encode t).outcome)] }
  | (.child, t) =>
    { f with
      child := (f.child.encode t).encoder
      byChild := f.byChild ++ [((f.child.encode t).text, (f.child.encode t).outcome)] }

/-- The tokens that one of them is given. -/
def tokensOf (m : Member) (turns : List (Member × Token)) : List Token :=
  (turns.filter fun turn => turn.1 == m).map Prod.snd

/-- Whatever the turns, parent and child give the `answers` that each gives to its own tokens alone.
-/
theorem foldl_give (f : Family) (turns : List (Member × Token)) :
    turns.foldl give f =
      { parent := f.parent.afterEach (tokensOf .parent turns)
        child := f.child.afterEach (tokensOf .child turns)
        byParent := f.byParent ++ f.parent.answers (tokensOf .parent turns)
        byChild := f.byChild ++ f.child.answers (tokensOf .child turns) } := by
  induction turns generalizing f with
  | nil => simp [tokensOf, afterEach, answers]
  | cons turn turns ih =>
      obtain ⟨m, t⟩ := turn
      rw [List.foldl_cons, ih]
      cases m with
      | parent => simp [give, tokensOf, afterEach, answers]
      | child => simp [give, tokensOf, afterEach, answers]

end Family

/-- An encoder, and a child made from it as it stands. -/
def family (e : Encoder) : Family where
  parent := e
  child := e.child

/-- **A child writes what its parent would.** For tokens of `WholeElements` `e.child` gives the same
text as `e` and fails at the same token in the same way. If both go on after failures, it also says
the same of every token by itself, and gets where the parent would, apart from the elements around.
It makes no difference to it what the parent is given in the meantime, and none to the parent what
the child is given. -/
theorem child_writes_alike {e : Encoder} (hlayout : e.layout = none) {tokens : List Token}
    (h : WholeElements tokens) :
    (e.child.encodeAll tokens).text = (e.encodeAll tokens).text ∧
      (e.child.encodeAll tokens).outcome = (e.encodeAll tokens).outcome ∧
      ∀ turns, Family.tokensOf .child turns = tokens →
        (turns.foldl Family.give e.family).byChild = e.answers tokens ∧
          (turns.foldl Family.give e.family).child.within e.marks none = e.afterEach tokens ∧
          (turns.foldl Family.give e.family).byParent =
            e.answers (Family.tokensOf .parent turns) ∧
          (turns.foldl Family.give e.family).parent =
            e.afterEach (Family.tokensOf .parent turns) := by
  have hrun := run_within (e := e.child) rfl e.marks (h.depthAfter?_eq 0) (Nat.zero_le _)
  rw [child_within hlayout] at hrun
  obtain ⟨hanswers, hafter⟩ := hrun
  obtain ⟨htext, houtcome⟩ := encodeAll_congr hanswers
  refine ⟨htext.symm, houtcome.symm, ?_⟩
  intro turns hturns
  rw [Family.foldl_give, hturns]
  exact ⟨hanswers.symm, hafter.symm, rfl, rfl⟩

/-- A prefix that the parent bound is bound to another URI by the child, which so can not write what
is in the first one; meanwhile the parent binds it once more. -/
theorem child_writes_alike_shadowing :
    let binding (name : String) (uri : String) : StartTag :=
      ⟨⟨uri, name⟩, [⟨⟨"xmlns", "p"⟩, uri⟩]⟩
    let lost : StartTag := ⟨⟨"urn:1", "c"⟩, []⟩
    let e : Encoder := ({} : Encoder).afterEach [.start (binding "a" "urn:1")]
    let tokens : List Token :=
      [.start (binding "b" "urn:2"), .start lost, .finish lost.name, .finish ⟨"urn:2", "b"⟩]
    let turns : List (Member × Token) :=
      [(.child, .start (binding "b" "urn:2")), (.parent, .start (binding "d" "urn:3")),
        (.child, .start lost), (.child, .finish lost.name), (.child, .finish ⟨"urn:2", "b"⟩)]
    e.layout = none ∧ WholeElements tokens ∧
      (e.encodeAll tokens).outcome = .error (.unknownNamespace "urn:1") ∧
      (e.child.encodeAll tokens).text = (e.encodeAll tokens).text ∧
      (e.child.encodeAll tokens).outcome = (e.encodeAll tokens).outcome ∧
      (turns.foldl Family.give e.family).byChild = e.answers tokens := by
  intro binding lost e tokens turns
  have hlayout : e.layout = none := rfl
  have hnested : WholeElements tokens :=
    .element (binding "b" "urn:2") (.element lost .nil .nil) .nil
  obtain ⟨htext, houtcome, hturns⟩ := child_writes_alike hlayout hnested
  exact ⟨hlayout, hnested, by rfl, htext, houtcome, (hturns turns rfl).1⟩

end Encoder

end ResourceShards.Markup
