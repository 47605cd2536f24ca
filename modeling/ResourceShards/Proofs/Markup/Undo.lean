import ResourceShards.Proofs.Markup.Spelling
import ResourceShards.Proofs.Table

/-!
# ResourceShards.Proofs.Markup.Undo

**What an encoder can take back.** The marks of an encoder are an undo stack: each declaration
leaves what it has to put back, and end tags, failed ones too, only take marks from the top. So
whatever was written, and whatever could not be, the marks that are left lead back to the tables
with which the encoder was made, and what they stand for is all that the tables hold beyond these.

* `Encoder.takeBack`, `Encoder.declaredBy`: what marks lead back to, and what they stand for
* `Encoder.within`, `Encoder.unwind_append`: marks of other elements below are not looked at
* `Encoder.Grown`: tables that were made from others by declarations, with their marks
* `Encoder.Grown.encodeStart`, `Encoder.Grown.encodeEnd`: what tags add to these and take away
* `Encoder.History`: everything that can happen to an encoder
* `Encoder.History.consistent`: tables and marks match, after any history
-/

namespace ResourceShards.Markup

/-- The prefix whose declaration a mark takes back. -/
def Mark.label? : Mark → Option String
  | .element _ => none
  | .binding label _ => some label

/-- Whether a mark is that of an element. -/
def Mark.isElement : Mark → Bool
  | .element _ => true
  | .binding _ _ => false

namespace Encoder

/-! ### Undoing -/

/-- The encoder after the declarations of some marks were taken back, from the top on. -/
def takeBack (e : Encoder) : List Mark → Encoder
  | [] => e
  | .element _ :: rest => e.takeBack rest
  | .binding label previous :: rest => (e.unbind label previous).takeBack rest

/-- The declarations that marks stand for, latest first. A mark tells only which prefix it is about:
the URI is the one which that prefix has as soon as all marks above are taken back. -/
def declaredBy (e : Encoder) : List Mark → Scope
  | [] => []
  | .element _ :: rest => e.declaredBy rest
  | .binding label previous :: rest =>
    ((e.uris.get? label).map (label, ·)).toList ++ (e.unbind label previous).declaredBy rest

/-- No URI is kept with no prefix. -/
def Filled (e : Encoder) : Prop :=
  ∀ uri, e.labels.get? uri ≠ some []

/-- The encoder apart from its layout. -/
def unlaid (e : Encoder) : Encoder :=
  { e with layout := none }

theorem filled_bind {e : Encoder} (h : e.Filled) (label uri : String) :
    (e.bind label uri).Filled := by
  intro other
  show (e.labels.insert uri _).get? other ≠ _
  rw [Table.get?_insert]
  split
  · rintro ⟨⟩
  · exact h other

/-! ### Taking a declaration back -/

/-- `unbind` reads the tables and puts back nothing else: `marks` and `layout` pass through it. -/
theorem unbind_with (e : Encoder) (marks : List Mark) (layout : Option Layout) (label : String)
    (previous : Option String) :
    ({ e with marks, layout } : Encoder).unbind label previous =
      { e.unbind label previous with marks, layout } := by
  unfold unbind
  cases e.uris.get? label with
  | none => rfl
  | some current =>
      simp only
      cases e.labels.get? current with
      | none => rfl
      | some known =>
          simp only
          cases known.erase label <;> rfl

theorem child_unbind (e : Encoder) (label : String) (previous : Option String) :
    (e.unbind label previous).child = e.child.unbind label previous :=
  (e.unbind_with [] none label previous).symm

theorem uris_unbind (e : Encoder) (label : String) (previous : Option String) :
    (e.unbind label previous).uris =
      previous.elim (e.uris.erase label) fun uri => e.uris.insert label uri := by
  unfold unbind
  cases previous <;> (simp only [Option.elim]; (repeat' split) <;> rfl)

theorem labels_unbind {e : Encoder} {label uri : String} {known : List String}
    (huri : e.uris.get? label = some uri) (hknown : e.labels.get? uri = some known)
    (previous : Option String) :
    (e.unbind label previous).labels =
      if known.erase label = [] then e.labels.erase uri
      else e.labels.insert uri (known.erase label) := by
  unfold unbind
  simp only [huri, hknown]
  cases known.erase label with
  | nil => rw [if_pos rfl]
  | cons first rest => rw [if_neg (List.cons_ne_nil first rest)]

/-- `unbind` takes what `bind` has just declared back from the tables. -/
theorem child_bind_unbind {e : Encoder} (h : e.Filled) (label uri : String) :
    ((e.bind label uri).unbind label (e.uris.get? label)).child = e.child := by
  have huri : (e.bind label uri).uris.get? label = some uri := by simp [bind, Table.get?_insert]
  have hknown : (e.bind label uri).labels.get? uri =
      some (label :: (e.labels.get? uri).getD []) := by
    simp [bind, Table.alter, Table.get?_insert]
  -- a prefix and a URI that had nothing before lose their places again
  have huris : ((e.bind label uri).unbind label (e.uris.get? label)).uris = e.uris := by
    rw [uris_unbind]
    cases hprevious : e.uris.get? label with
    | none => exact Table.erase_insert hprevious uri
    | some previous => exact (Table.insert_insert ..).trans (Table.insert_self hprevious)
  have hlabels : ((e.bind label uri).unbind label (e.uris.get? label)).labels = e.labels := by
    rw [labels_unbind huri hknown, List.erase_cons_head]
    show (if _ then (e.labels.insert uri _).erase uri
      else (e.labels.insert uri _).insert uri _) = _
    cases hlabels : e.labels.get? uri with
    | none => exact (if_pos rfl).trans (Table.erase_insert hlabels _)
    | some known =>
        have hne : known ≠ [] := fun hnil => h uri (hnil ▸ hlabels)
        exact (if_neg hne).trans ((Table.insert_insert ..).trans (Table.insert_self hlabels))
  rw [child, huris, hlabels, child]

theorem marks_unbind (e : Encoder) (label : String) (previous : Option String) :
    (e.unbind label previous).marks = e.marks :=
  (congrArg Encoder.marks (e.unbind_with e.marks e.layout label previous)).trans rfl

/-- `unbind` takes back all of `bind` but the mark. -/
theorem bind_unbind {e : Encoder} (h : e.Filled) (label uri : String) :
    (e.bind label uri).unbind label (e.uris.get? label) =
      { e with marks := .binding label (e.uris.get? label) :: e.marks } := by
  have hchild := child_bind_unbind h label uri
  have hmarks := (e.bind label uri).marks_unbind label (e.uris.get? label)
  have hlayout := (e.bind label uri).layout_unbind label (e.uris.get? label)
  generalize (e.bind label uri).unbind label (e.uris.get? label) = back at hchild hmarks hlayout
  calc back = { back.child with marks := back.marks, layout := back.layout } := rfl
    _ = { e with marks := .binding label (e.uris.get? label) :: e.marks } := by
      rw [hchild, hmarks, hlayout]
      rfl

/-! ### Tables and their marks -/

/-- Tables that were made from those of `origin` by declarations of prefixes, with the marks of
these and of open elements. -/
inductive Grown (origin : Encoder) : Scope → List Mark → Encoder → Prop where
  /-- Nothing was declared. -/
  | nothing : Grown origin [] [] origin.child
  /-- An element was opened. -/
  | element {declared : Scope} {marks : List Mark} {e : Encoder} (name : Name)
      (h : Grown origin declared marks e) : Grown origin declared (.element name :: marks) e
  /-- A prefix was declared. -/
  | binding {declared : Scope} {marks : List Mark} {e : Encoder} (label uri : String)
      (h : Grown origin declared marks e) :
      Grown origin ((label, uri) :: declared) (.binding label (e.uris.get? label) :: marks)
        (e.bind label uri).child

namespace Grown

variable {origin e : Encoder} {declared : Scope} {marks : List Mark}

theorem child_eq (h : Grown origin declared marks e) : e.child = e := by
  induction h with
  | nothing => rfl
  | element name h ih => exact ih
  | binding label uri h ih => rfl

theorem filled (h : Grown origin declared marks e) (horigin : origin.Filled) : e.Filled := by
  induction h with
  | nothing => exact horigin
  | element name h ih => exact ih
  | binding label uri h ih => exact filled_bind ih label uri

/-- The latest declaration of a `Grown` encoder is taken back first. -/
theorem unbind_binding (h : Grown origin declared marks e) (horigin : origin.Filled)
    (label uri : String) : (e.bind label uri).child.unbind label (e.uris.get? label) = e := by
  rw [← child_unbind, child_bind_unbind (h.filled horigin), h.child_eq]

/-- `takeBack` leads along the marks of a `Grown` encoder back to its `origin`. -/
theorem takeBack_eq (h : Grown origin declared marks e) (horigin : origin.Filled) :
    e.takeBack marks = origin.child := by
  induction h with
  | nothing => rfl
  | element name h ih => exact ih
  | binding label uri h ih => rw [takeBack, h.unbind_binding horigin, ih]

/-- `declaredBy` reads what was declared off the marks of a `Grown` encoder. -/
theorem declaredBy_eq (h : Grown origin declared marks e) (horigin : origin.Filled) :
    e.declaredBy marks = declared := by
  induction h with
  | nothing => rfl
  | element name h ih => exact ih
  | @binding declared marks e label uri h ih =>
      have huri : (e.bind label uri).child.uris.get? label = some uri := by
        simp [bind, child, Table.get?_insert]
      rw [declaredBy, huri, h.unbind_binding horigin, ih]
      rfl

/-- A `Grown` encoder `Reflects` what was declared, in front of the `scope` that its `origin`
reflects. -/
theorem reflects (h : Grown origin declared marks e) {scope : Scope}
    (horigin : origin.Reflects scope) : e.Reflects (declared ++ scope) := by
  induction h with
  | nothing => exact horigin.of_eq rfl rfl
  | element name h ih => exact ih
  | binding label uri h ih => exact (ih.bind label uri).of_eq rfl rfl

/-- Every declaration of a `Grown` encoder has its mark. -/
theorem map_fst (h : Grown origin declared marks e) :
    declared.map Prod.fst = marks.filterMap Mark.label? := by
  induction h with
  | nothing => rfl
  | element name h ih => exact ih
  | binding label uri h ih => rw [List.map_cons, ih]; rfl

end Grown

/-- An encoder whose tables were made from those of `origin`, and whose marks say how. -/
def GrownFrom (origin e : Encoder) : Prop :=
  ∃ declared, Grown origin declared e.marks e.child

theorem GrownFrom.filled {origin e : Encoder} (h : GrownFrom origin e) (horigin : origin.Filled) :
    e.Filled := by
  obtain ⟨declared, hgrown⟩ := h
  exact hgrown.filled horigin

/-! ### One token -/

theorem Grown.bindDeclared {origin e : Encoder} {declared : Scope}
    (h : Grown origin declared e.marks e.child) (a : Attribute) :
    Grown origin (a.declared?.toList ++ declared) (e.bindDeclared a).marks
      (e.bindDeclared a).child := by
  unfold Encoder.bindDeclared Attribute.declared?
  cases a.name.declaredLabel? with
  | none => exact h
  | some label => exact h.binding label a.value

/-- `bindDeclared` pushes what each attribute declares, in their order, so that the last one is on
top. -/
theorem Grown.foldl_bindDeclared {origin e : Encoder} {declared : Scope}
    (h : Grown origin declared e.marks e.child) (attributes : List Attribute) :
    Grown origin (Scope.ofAttributes attributes ++ declared)
      (attributes.foldl Encoder.bindDeclared e).marks
      (attributes.foldl Encoder.bindDeclared e).child := by
  induction attributes generalizing e declared with
  | nil => exact h
  | cons a attributes ih =>
      rw [List.foldl_cons, Scope.ofAttributes_cons, List.append_assoc]
      exact ih (h.bindDeclared a)

/-- The encoder inside a new element, before the declarations of its start tag. -/
def opening (e : Encoder) (name : Name) : Encoder :=
  { e.shifted .deeper with marks := .element name :: e.marks }

/-- `encodeStart` leads into the new element with all its declarations, whether all of the tag could
be written or not. -/
theorem encoder_encodeStart (e : Encoder) (tag : StartTag) :
    (e.encodeStart tag).encoder = tag.attributes.foldl bindDeclared (e.opening tag.name) := by
  unfold encodeStart
  simp only
  split
  · rfl
  · split <;> rfl

/-- A start tag pushes its `StartTag.declared`, whether all of it could be written or not. -/
theorem Grown.encodeStart {origin e : Encoder} {declared : Scope}
    (h : Grown origin declared e.marks e.child) (tag : StartTag) :
    Grown origin (tag.declared ++ declared) (e.encodeStart tag).encoder.marks
      (e.encodeStart tag).encoder.child := by
  rw [encoder_encodeStart]
  have hopening : Grown origin declared (e.opening tag.name).marks (e.opening tag.name).child :=
    h.element tag.name
  exact hopening.foldl_bindDeclared tag.attributes

/-- `unwind` leaves tables with the marks below, and the declarations that these stand for. -/
theorem Grown.unwind {origin e : Encoder} {declared : Scope} {marks : List Mark}
    (h : Grown origin declared marks e.child) (horigin : origin.Filled) :
    ∃ below, below <:+ declared ∧
      Grown origin below (e.unwind marks).2.marks (e.unwind marks).2.child := by
  generalize he : e.child = tables at h
  induction h generalizing e with
  | nothing => exact ⟨[], List.suffix_rfl, he ▸ .nothing⟩
  | @element declared marks tables name h ih => exact ⟨declared, List.suffix_rfl, he ▸ h⟩
  | @binding declared marks tables label uri h ih =>
      have hback : (e.unbind label (tables.uris.get? label)).child = tables := by
        rw [child_unbind, he, h.unbind_binding horigin]
      obtain ⟨below, hbelow, hgrown⟩ := ih hback
      exact ⟨below, hbelow.trans (List.suffix_cons _ _), hgrown⟩

/-- `encodeEnd` leads nowhere if the name can not be written at all, otherwise to where `unwind`
does, whether the innermost element has that name or not. -/
theorem encoder_encodeEnd (e : Encoder) (name : Name) :
    (e.encodeEnd name).encoder.child = e.child ∧ (e.encodeEnd name).encoder.marks = e.marks ∨
      (e.encodeEnd name).encoder.child = (e.unwind e.marks).2.child ∧
        (e.encodeEnd name).encoder.marks = (e.unwind e.marks).2.marks := by
  unfold encodeEnd
  split
  · exact .inl ⟨rfl, rfl⟩
  · split
    · rename_i hunwind
      exact .inr ⟨by rw [hunwind], by rw [hunwind]⟩
    · rename_i hunwind
      rw [hunwind]
      split <;> exact .inr ⟨rfl, rfl⟩

/-- `encodeEnd` takes the latest declarations away, and none but these. -/
theorem Grown.encodeEnd {origin e : Encoder} {declared : Scope}
    (h : Grown origin declared e.marks e.child) (horigin : origin.Filled) (name : Name) :
    ∃ below, below <:+ declared ∧
      Grown origin below (e.encodeEnd name).encoder.marks (e.encodeEnd name).encoder.child := by
  rcases e.encoder_encodeEnd name with ⟨hchild, hmarks⟩ | ⟨hchild, hmarks⟩
  · rw [hchild, hmarks]
    exact ⟨declared, List.suffix_rfl, h⟩
  · rw [hchild, hmarks]
    exact h.unwind horigin

/-- `encode` keeps an encoder `GrownFrom` its origin, whether it can write the token or not. -/
theorem GrownFrom.encode {origin e : Encoder} (h : GrownFrom origin e) (horigin : origin.Filled)
    (t : Token) : GrownFrom origin (e.encode t).encoder := by
  obtain ⟨declared, hgrown⟩ := h
  cases t with
  | start tag => exact ⟨_, hgrown.encodeStart tag⟩
  | finish name =>
      obtain ⟨below, -, hbelow⟩ := hgrown.encodeEnd horigin name
      exact ⟨below, hbelow⟩
  | _ => exact ⟨declared, hgrown⟩

/-! ### Runs that close what they open -/

end Encoder

/-- How many elements are open after a token, if they are `depth` before it and the token closes
none but these. -/
def Token.depthAfter? (depth : Nat) : Token → Option Nat
  | .start _ => some (depth + 1)
  | .finish _ => if depth = 0 then none else some (depth - 1)
  | _ => some depth

/-- How many elements are open after a run of tokens. -/
def depthAfter? (depth : Nat) (tokens : List Token) : Option Nat :=
  tokens.foldlM (fun depth t => t.depthAfter? depth) depth

theorem depthAfter?_cons (depth : Nat) (t : Token) (rest : List Token) :
    depthAfter? depth (t :: rest) = (t.depthAfter? depth).bind (depthAfter? · rest) := by
  rw [depthAfter?, List.foldlM_cons, Option.bind_eq_bind]
  rfl

theorem depthAfter?_append (depth : Nat) (tokens more : List Token) :
    depthAfter? depth (tokens ++ more) = (depthAfter? depth tokens).bind (depthAfter? · more) := by
  rw [depthAfter?, List.foldlM_append, Option.bind_eq_bind]
  rfl

namespace Encoder

/-- The encoder after the innermost elements were closed, so many of them. -/
def close : Nat → Encoder → Encoder
  | 0, e => e
  | n + 1, e => close n (e.unwind e.marks).2

/-- The encoder inside the elements of other marks, on another page. -/
def within (e : Encoder) (outer : List Mark) (page : Option Layout) : Encoder :=
  { e with marks := e.marks ++ outer, layout := page }

theorem within_nil (e : Encoder) (page : Option Layout) :
    e.within [] page = { e with layout := page } := by
  rw [within, List.append_nil]

theorem layout_unwind (e : Encoder) (marks : List Mark) :
    (e.unwind marks).2.layout = e.layout := by
  induction marks generalizing e with
  | nil => rfl
  | cons mark marks ih =>
      cases mark with
      | element name => rfl
      | binding label previous => exact (ih _).trans (e.layout_unbind label previous)

/-- `unwind` takes back the marks above an element without a look at those below it, at the `marks`
that the encoder keeps or at its page. -/
theorem unwind_append (e : Encoder) (kept marks : List Mark) {outer : List Mark}
    (page : Option Layout) (h : outer = [] ∨ 0 < marks.countP Mark.isElement) :
    ({ e with marks := kept, layout := page } : Encoder).unwind (marks ++ outer) =
      ((e.unwind marks).1, (e.unwind marks).2.within outer page) := by
  induction marks generalizing e with
  | nil =>
      rcases h with rfl | hpos
      · rfl
      · exact absurd hpos (Nat.lt_irrefl 0)
  | cons mark marks ih =>
      cases mark with
      | element name => rfl
      | binding label previous =>
          rw [List.cons_append, unwind, unwind, unbind_with]
          exact ih _ h

theorem unwind_unlaid (e : Encoder) (marks : List Mark) :
    (e.unlaid.unwind marks).2 = (e.unwind marks).2.unlaid := by
  have happend := e.unwind_append e.marks marks none (.inl rfl)
  rw [List.append_nil, within_nil] at happend
  exact congrArg Prod.snd happend

theorem close_unlaid (n : Nat) (e : Encoder) : close n e.unlaid = (close n e).unlaid := by
  induction n generalizing e with
  | zero => rfl
  | succ n ih => exact (congrArg (close n) (e.unwind_unlaid e.marks)).trans (ih _)

/-- The `marks` that the encoder keeps play no part in `unwind`. -/
theorem unwind_with (e : Encoder) (kept marks : List Mark) :
    ({ e with marks := kept } : Encoder).unwind marks = e.unwind marks := by
  have happend := e.unwind_append kept marks e.layout (.inl rfl)
  have hlayout : (e.unwind marks).2.within [] e.layout = (e.unwind marks).2 := by
    rw [within_nil, ← e.layout_unwind marks]
  rw [List.append_nil, hlayout] at happend
  exact happend

/-- `unwind` takes back what the start tag of the innermost element declared. -/
theorem unwind_foldl_bindDeclared {e : Encoder} (h : e.Filled) (attributes : List Attribute) :
    (attributes.foldl bindDeclared e).unwind (attributes.foldl bindDeclared e).marks =
      e.unwind e.marks := by
  induction attributes generalizing e with
  | nil => rfl
  | cons a attributes ih =>
      rw [List.foldl_cons]
      cases hlabel : a.name.declaredLabel? with
      | none =>
          have hbind : e.bindDeclared a = e := by rw [bindDeclared, hlabel]
          rw [hbind, ih h]
      | some label =>
          have hbind : e.bindDeclared a = e.bind label a.value := by rw [bindDeclared, hlabel]
          rw [hbind, ih (filled_bind h label a.value)]
          show ((e.bind label a.value).unbind label (e.uris.get? label)).unwind e.marks = _
          rw [bind_unbind h, unwind_with]

/-- A token that is written opens or closes as many elements as `depthAfter?` says: what `close`
leads back to is the same before and after it. -/
theorem close_encode {e : Encoder} (h : e.Filled) {t : Token} {depth after : Nat}
    (hdepth : t.depthAfter? depth = some after) (hok : (e.encode t).outcome = .ok ()) :
    (close after (e.encode t).encoder).unlaid = (close depth e).unlaid := by
  cases t with
  | start tag =>
      obtain rfl := Option.some.inj hdepth
      show (close (depth + 1) (e.encodeStart tag).encoder).unlaid = _
      have hopening : (e.opening tag.name).Filled := h
      rw [encoder_encodeStart, close, unwind_foldl_bindDeclared hopening]
      show (close depth (e.shifted .deeper)).unlaid = _
      rw [← close_unlaid, ← close_unlaid]
      rfl
  | finish name =>
      simp only [Token.depthAfter?] at hdepth
      split at hdepth
      · exact absurd hdepth.symm (Option.some_ne_none _)
      · rename_i hpos
        obtain rfl := Option.some.inj hdepth
        obtain ⟨n, rfl⟩ := Nat.exists_eq_succ_of_ne_zero hpos
        show (close n (e.encodeEnd name).encoder).unlaid = (close n (e.unwind e.marks).2).unlaid
        have hend : (e.encodeEnd name).encoder.unlaid = (e.unwind e.marks).2.unlaid := by
          simp only [encode, encodeEnd] at hok ⊢
          split at hok
          · cases hok
          · split at hok
            · cases hok
            · rename_i hunwind
              rw [hunwind]
              split at hok
              · rename_i hname
                simp only [if_pos hname]
                rfl
              · cases hok
        rw [← close_unlaid, hend, close_unlaid]
  | _ =>
      obtain rfl := Option.some.inj hdepth
      rw [← close_unlaid, ← close_unlaid]
      rfl

/-- If `encodeAll` writes all tokens, `encode` writes the first one and `encodeAll` the others. -/
theorem encodeAll_cons_ok {e : Encoder} {t : Token} {rest : List Token}
    (h : (e.encodeAll (t :: rest)).outcome = .ok ()) :
    (e.encode t).outcome = .ok () ∧ ((e.encode t).encoder.encodeAll rest).outcome = .ok () ∧
      (e.encodeAll (t :: rest)).encoder = ((e.encode t).encoder.encodeAll rest).encoder := by
  rw [encodeAll] at h ⊢
  generalize e.encode t = first at h ⊢
  obtain ⟨text, next, outcome⟩ := first
  cases outcome with
  | error err => cases h
  | ok _ => exact ⟨rfl, h, rfl⟩

/-- A run of tokens that is written opens or closes as many elements as `depthAfter?` says. -/
theorem GrownFrom.close_encodeAll {origin : Encoder} (horigin : origin.Filled) {e : Encoder}
    (h : GrownFrom origin e) {tokens : List Token} {depth after : Nat}
    (hdepth : depthAfter? depth tokens = some after)
    (hok : (e.encodeAll tokens).outcome = .ok ()) :
    (close after (e.encodeAll tokens).encoder).unlaid = (close depth e).unlaid := by
  induction tokens generalizing e depth with
  | nil =>
      obtain rfl := Option.some.inj hdepth
      rfl
  | cons t tokens ih =>
      obtain ⟨hfirst, hrest, hencoder⟩ := encodeAll_cons_ok hok
      rw [depthAfter?_cons, Option.bind_eq_some_iff] at hdepth
      obtain ⟨middle, hmiddle, hdepth⟩ := hdepth
      rw [hencoder, ih (h.encode horigin t) hdepth hrest]
      exact close_encode (h.filled horigin) hmiddle hfirst

end Encoder

/-! ### The prefix in sight -/

namespace Scope

theorem uri?_append {front rest : Scope} {label : String} (h : ∀ entry ∈ front, entry.1 ≠ label) :
    uri? (front ++ rest) label = rest.uri? label := by
  induction front with
  | nil => rfl
  | cons entry front ih =>
      obtain ⟨other, uri⟩ := entry
      rw [List.cons_append, uri?_cons, if_neg (h _ List.mem_cons_self)]
      exact ih fun entry hentry => h entry (List.mem_cons_of_mem _ hentry)

/-- `find?` among the `labels` of a URI is `find?` among the prefixes of all declarations: the
latest prefix that is bound to a URI was bound to it by the declaration where it is found, or a
later one would have been found before. -/
theorem find?_labels (front : Scope) {rest : Scope} {uri : String} {p : String → Bool}
    (hp : ∀ label, p label = true → uri? (front ++ rest) label = some uri)
    (hfront : ∀ entry ∈ front, p entry.1 = false) :
    (rest.labels uri).find? p = (rest.map Prod.fst).find? p := by
  induction rest generalizing front with
  | nil => rfl
  | cons entry rest ih =>
      obtain ⟨label, bound⟩ := entry
      rw [labels_cons, List.map_cons]
      cases hlabel : p label with
      | true =>
          have hnew : ∀ entry ∈ front, entry.1 ≠ label := by
            rintro entry hentry rfl
            rw [hfront entry hentry] at hlabel
            exact Bool.noConfusion hlabel
          have hbound := hp label hlabel
          rw [uri?_append hnew, uri?_cons, if_pos rfl, Option.some.injEq] at hbound
          rw [if_pos hbound, List.find?_cons_of_pos hlabel, List.find?_cons_of_pos hlabel]
      | false =>
          have hrest : (labels rest uri).find? p = (rest.map Prod.fst).find? p := by
            refine ih (front ++ [(label, bound)]) ?_ ?_
            · simpa using hp
            · intro entry hentry
              rcases List.mem_append.1 hentry with hold | hlast
              · exact hfront entry hold
              · rw [List.mem_singleton.1 hlast]
                exact hlabel
          rw [List.find?_cons_of_neg (ne_true_of_eq_false hlabel), ← hrest]
          split
          · exact List.find?_cons_of_neg (ne_true_of_eq_false hlabel)
          · rfl

theorem visible?_eq_find? (scope : Scope) (forAttribute : Bool) (uri : String) :
    scope.visible? forAttribute uri =
      (scope.map Prod.fst).find? fun label =>
        scope.uri? label == some uri && !(forAttribute && label == "") := by
  refine find?_labels [] ?_ (fun entry h => absurd h List.not_mem_nil)
  intro label h
  exact beq_iff_eq.1 (Bool.and_eq_true_iff.1 h).1

end Scope

/-! ### Histories -/

namespace Encoder

/-- What can happen to an encoder. -/
inductive History where
  /-- It is made. -/
  | fresh
  /-- It is made from another one, for a piece of the document. -/
  | child (parent : History)
  /-- It was given a token, which it could write or could not. -/
  | encode (before : History) (t : Token)
  /-- It was given another layout, or did not get to the end of a line. -/
  | relaid (before : History) (layout : Option Layout)

namespace History

/-- The encoder after a history. -/
def encoder : History → Encoder
  | fresh => {}
  | child parent => parent.encoder.child
  | encode before t => (before.encoder.encode t).encoder
  | relaid before layout => { before.encoder with layout }

/-- The encoder as it was made. -/
def origin : History → Encoder
  | fresh => {}
  | child parent => parent.encoder.child
  | encode before _ => before.origin
  | relaid before _ => before.origin

/-- What the marks of the encoder stand for. -/
def declared (h : History) : Scope :=
  h.encoder.child.declaredBy h.encoder.marks

/-- The prefixes that were in scope when the encoder was made. -/
def inherited : History → Scope
  | fresh => []
  | child parent => parent.declared ++ parent.inherited
  | encode before _ => before.inherited
  | relaid before _ => before.inherited

/-- The prefixes in scope. -/
def scope (h : History) : Scope :=
  h.declared ++ h.inherited

/-- The marks and the tables of an encoder belong together. -/
structure Consistent (h : History) : Prop where
  /-- Taking back the marks, from the top on, gives the tables with which the encoder was made. -/
  undone : h.encoder.child.takeBack h.encoder.marks = h.origin
  /-- Every declaration has its mark. -/
  marked : h.declared.map Prod.fst = h.encoder.marks.filterMap Mark.label?
  /-- A start tag, written or not, pushes the declarations of its attributes. -/
  opened : ∀ tag : StartTag, (h.encode (.start tag)).declared = tag.declared ++ h.declared
  /-- An end tag, written or not, takes away the latest ones at most. -/
  closed : ∀ name, (h.encode (.finish name)).declared <:+ h.declared
  /-- A URI has the prefixes that marks bind to it, and below these the ones it had at first. -/
  labels : ∀ uri, (h.encoder.labels.get? uri).getD [] =
    h.declared.labels uri ++ (h.origin.labels.get? uri).getD []
  /-- No URI is kept with no prefix. -/
  filled : h.encoder.Filled
  /-- A prefix has the URI of its latest declaration. -/
  current : ∀ label, h.encoder.uris.get? label = h.scope.uri? label
  /-- The prefix that is seen for a URI is the latest one in scope that is bound to it now. -/
  visible : ∀ uri forAttribute, h.encoder.visibleLabel? uri forAttribute =
    (h.scope.map Prod.fst).find? fun label =>
      h.encoder.uris.get? label == some uri && !(forAttribute && label == "")
  /-- A run of tokens that closes what it opens, and is written, leaves everything as it was. -/
  balanced : ∀ tokens, depthAfter? 0 tokens = some 0 →
    (h.encoder.encodeAll tokens).outcome = .ok () →
      (h.encoder.encodeAll tokens).encoder.marks = h.encoder.marks ∧
        (h.encoder.encodeAll tokens).encoder.uris = h.encoder.uris ∧
        (h.encoder.encodeAll tokens).encoder.labels = h.encoder.labels

/-- After any history the encoder is `GrownFrom` its `origin`, which is `Filled`. -/
theorem grown (h : History) : h.origin.Filled ∧ GrownFrom h.origin h.encoder := by
  induction h with
  | fresh => exact ⟨fun uri => Option.some_ne_none [] ∘ Eq.symm, [], .nothing⟩
  | child parent ih => exact ⟨ih.2.filled ih.1, [], .nothing⟩
  | encode before t ih => exact ⟨ih.1, ih.2.encode ih.1 t⟩
  | relaid before layout ih => exact ih

theorem grown_declared (h : History) :
    Grown h.origin h.declared h.encoder.marks h.encoder.child := by
  obtain ⟨hfilled, declared, hgrown⟩ := h.grown
  rwa [History.declared, hgrown.declaredBy_eq hfilled]

theorem declared_encode_start (h : History) (tag : StartTag) :
    (h.encode (.start tag)).declared = tag.declared ++ h.declared :=
  (h.grown_declared.encodeStart tag).declaredBy_eq h.grown.1

theorem declared_encode_finish (h : History) (name : Name) :
    (h.encode (.finish name)).declared <:+ h.declared := by
  obtain ⟨below, hbelow, hgrown⟩ := h.grown_declared.encodeEnd h.grown.1 name
  rw [History.declared]
  rwa [← hgrown.declaredBy_eq h.grown.1] at hbelow

theorem origin_child (h : History) : h.origin.child = h.origin := by
  induction h with
  | fresh => rfl
  | child parent ih => rfl
  | encode before t ih => exact ih
  | relaid before layout ih => exact ih

/-- The tables of the `origin` hold what was `inherited`. -/
theorem reflects_origin (h : History) : h.origin.Reflects h.inherited := by
  induction h with
  | fresh => exact reflects_nil
  | child parent ih => exact parent.grown_declared.reflects ih
  | encode before t ih => exact ih
  | relaid before layout ih => exact ih

/-- The tables of the encoder hold what is in `scope`. -/
theorem reflects (h : History) : h.encoder.Reflects h.scope :=
  (h.grown_declared.reflects h.reflects_origin).of_eq rfl rfl

/-- **Tables always match the marks.** After any `History`, whatever the encoder was given and
whether it could write it or not, its marks and its tables are `Consistent`. -/
theorem consistent (h : History) : h.Consistent where
  undone := (h.grown_declared.takeBack_eq h.grown.1).trans h.origin_child
  marked := h.grown_declared.map_fst
  opened := h.declared_encode_start
  closed := h.declared_encode_finish
  labels uri := by
    rw [h.reflects.labels, h.reflects_origin.labels]
    simp [scope, Scope.labels]
  filled := h.grown.2.filled h.grown.1
  current := h.reflects.uris
  visible uri forAttribute := by
    rw [h.reflects.visibleLabel?, Scope.visible?_eq_find?]
    simp only [h.reflects.uris]
  balanced tokens hdepth hok := by
    have hclose := h.grown.2.close_encodeAll h.grown.1 hdepth hok
    exact ⟨(congrArg Encoder.marks hclose :), (congrArg Encoder.uris hclose :),
      (congrArg Encoder.labels hclose :)⟩

/-- A document in which a prefix is bound to another URI inside, twice by the same tag, after an end
tag that could not be written. -/
theorem consistent_of_shadowing :
    let outer : StartTag := ⟨⟨"urn:1", "a"⟩, [⟨⟨"xmlns", "p"⟩, "urn:1"⟩]⟩
    let inner : StartTag := ⟨⟨"urn:2", "b"⟩, [⟨⟨"xmlns", "p"⟩, "urn:3"⟩, ⟨⟨"xmlns", "p"⟩, "urn:2"⟩]⟩
    let h : History := .child (.encode (.encode .fresh (.start outer)) (.finish ⟨"urn:4", "a"⟩))
    let tokens : List Token := [.start inner, .text "x", .finish inner.name]
    depthAfter? 0 tokens = some 0 ∧ (h.encoder.encodeAll tokens).outcome = .ok () ∧
      (h.encoder.encodeAll tokens).encoder.marks = h.encoder.marks ∧
      (h.encoder.encodeAll tokens).encoder.uris = h.encoder.uris ∧
      (h.encoder.encodeAll tokens).encoder.labels = h.encoder.labels := by
  intro outer inner h tokens
  have hdepth : depthAfter? 0 tokens = some 0 := rfl
  have hok : (h.encoder.encodeAll tokens).outcome = .ok () := by rfl
  exact ⟨hdepth, hok, h.consistent.balanced tokens hdepth hok⟩

end History

end Encoder

end ResourceShards.Markup
