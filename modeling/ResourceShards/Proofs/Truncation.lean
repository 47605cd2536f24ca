import ResourceShards.Payload.Collect
import ResourceShards.Proofs.Listing.Declared
import ResourceShards.Proofs.Markup.Strictness

/-!
# ResourceShards.Proofs.Truncation

**Truncated values documents.** A view ends where its events end, so a reader of an element can not
tell from what it is given whether the element was closed. What a values file declares is believed
all the same only if the first `<resources>` element was: cutting payloads looks at the view of that
element, and listing has run past the end of the document then, which fails for a document with
elements that are open.

* `Markup.CountedOut`: the end tag that closes an element, among events whose tags need not be
  nested
* `Markup.FirstEnds`: the first element of some kind is closed
* `values_not_truncated`: for both readers, and for the walk over any events
-/

namespace ResourceShards

open Markup (Closes Document Encoder Event Name NoneWanted StartTag Token View closes_or_open
  openAfter?)

namespace Markup

/-! ### Counting tags of one name -/

/-- What a token adds to the number of elements of a name that are open. -/
def Token.weight (name : Name) : Token → Int
  | .start tag => if tag.name = name then 1 else 0
  | .finish found => if found = name then -1 else 0
  | _ => 0

/-- How many more elements of a name some events open than they close. -/
def balance (name : Name) (events : List Event) : Int :=
  (events.map fun e => e.token.weight name).sum

theorem balance_cons (name : Name) (e : Event) (events : List Event) :
    balance name (e :: events) = e.token.weight name + balance name events := rfl

/-- Where the events that follow a start tag come to the end tag that closes its element: as many
elements of its name are closed in front of it as are opened, and never more. -/
structure CountedOut (name : Name) (following inside : List Event) (closing : Nat)
    (rest : List Event) : Prop where
  /-- What the end tag stands between. -/
  eq : following = inside ++ ⟨closing, .finish name⟩ :: rest
  /-- What was opened in front of it is closed. -/
  balanced : balance name inside = 0
  /-- Nothing is closed that was not opened before. -/
  nonneg : ∀ front, front <+: inside → 0 ≤ balance name front

namespace View

/-- Where `splitFrom` finds an end tag, the tags of that name before it add up to the depth at which
it began, and to no less at any place between. -/
theorem exists_end_of_splitFrom {name : Name} {depth : Nat} {seen events : List Event}
    (h : (splitFrom name depth seen events).closing.isSome) :
    ∃ inside closing rest, events = inside ++ ⟨closing, .finish name⟩ :: rest ∧
      depth + balance name inside = 0 ∧
      ∀ front, front <+: inside → 0 ≤ depth + balance name front := by
  induction events generalizing depth seen with
  | nil => cases h
  | cons e events ih =>
      -- every event that is passed moves the depth by its weight
      have hpass {next : Nat} (hnext : (next : Int) = depth + e.token.weight name)
          (hcut : (splitFrom name next (e :: seen) events).closing.isSome) :
          ∃ inside closing rest, e :: events = inside ++ ⟨closing, .finish name⟩ :: rest ∧
            depth + balance name inside = 0 ∧
            ∀ front, front <+: inside → 0 ≤ depth + balance name front := by
        obtain ⟨inside, closing, rest, rfl, hzero, hfront⟩ := ih hcut
        refine ⟨e :: inside, closing, rest, rfl, ?_, fun front hprefix => ?_⟩
        · rw [balance_cons, ← add_assoc, ← hnext, hzero]
        · rcases List.prefix_cons_iff.1 hprefix with rfl | ⟨front', rfl, hprefix'⟩
          · exact add_nonneg (Int.natCast_nonneg depth) (le_refl 0)
          · rw [balance_cons, ← add_assoc, ← hnext]
            exact hfront front' hprefix'
      obtain ⟨offset, token⟩ := e
      cases token with
      | start tag =>
          refine hpass ?_ h
          by_cases hname : tag.name = name <;> simp [Token.weight, hname]
      | finish found =>
          by_cases hname : found = name
          · obtain rfl := hname
            cases depth with
            | zero =>
                refine ⟨[], offset, events, rfl, rfl, fun front hprefix => ?_⟩
                rw [List.prefix_nil.1 hprefix]
                exact le_refl 0
            | succ outer =>
                simp only [splitFrom, if_true] at h
                exact hpass (by simp [Token.weight]) h
          · simp only [splitFrom, if_neg hname] at h
            exact hpass (by simp [Token.weight, hname]) h
      | _ => exact hpass (by simp [Token.weight]) h

/-- `split` finds an end tag only where the element is `CountedOut`. -/
theorem exists_countedOut {name : Name} {following : List Event}
    (h : (split name following).closing.isSome) :
    ∃ inside closing rest, CountedOut name following inside closing rest := by
  obtain ⟨inside, closing, rest, heq, hzero, hfront⟩ := exists_end_of_splitFrom h
  simp only [Nat.cast_zero, zero_add] at hzero hfront
  exact ⟨inside, closing, rest, heq, hzero, hfront⟩

/-- Among nested tags, the end tag that `split` finds is the one that `Closes` the element. -/
theorem exists_closes {name : Name} {around last : List Name} {following : List Event}
    (hnested : openAfter? (name :: around) following = some last)
    (h : (split name following).closing.isSome) :
    ∃ inside closing rest, Closes name following inside closing rest := by
  rcases closes_or_open hnested with hcloses | ⟨inner, hopen, -⟩
  · exact hcloses
  · rw [split_of_open hopen] at h
    cases h

end View

/-! ### The first element of some kind -/

/-- The first start tag with a name that is wanted, if there is one, has the end tag that closes its
element among the events that follow it. -/
def FirstEnds (wanted : Name → Bool) (ends : Name → List Event → Prop) (events : List Event) :
    Prop :=
  ∀ before offset tag following, events = before ++ ⟨offset, .start tag⟩ :: following →
    NoneWanted wanted before → wanted tag.name = true → ends tag.name following

namespace FirstEnds

variable {wanted : Name → Bool} {ends ends' : Name → List Event → Prop} {events : List Event}

theorem nil : FirstEnds wanted ends [] := by
  intro before _ _ _ heq
  exact absurd heq.symm (List.append_ne_nil_of_right_ne_nil _ (List.cons_ne_nil _ _))

/-- `FirstEnds` is decided at the first event if that is a wanted start tag. -/
theorem found {e : Event} {tag : StartTag} (hstart : e.start? = some tag)
    (hname : wanted tag.name = true) (h : ends tag.name events) :
    FirstEnds wanted ends (e :: events) := by
  intro before offset tag' following heq hbefore _
  cases before with
  | nil =>
      obtain ⟨rfl, rfl⟩ := List.cons.inj heq
      obtain rfl := Option.some.inj hstart
      exact h
  | cons first before =>
      obtain ⟨rfl, -⟩ := List.cons.inj heq
      have hnot := hbefore e List.mem_cons_self tag hstart
      rw [hname] at hnot
      cases hnot

/-- `FirstEnds` is not touched by a first event that is no wanted start tag. -/
theorem skip {e : Event} (hskip : ∀ tag, e.start? = some tag → wanted tag.name = false)
    (h : FirstEnds wanted ends events) : FirstEnds wanted ends (e :: events) := by
  intro before offset tag following heq hbefore hname
  cases before with
  | nil =>
      obtain ⟨rfl, -⟩ := List.cons.inj heq
      have hnot := hskip tag rfl
      rw [hname] at hnot
      cases hnot
  | cons first before =>
      obtain ⟨rfl, rfl⟩ := List.cons.inj heq
      exact h before offset tag following rfl
        (fun e' he' => hbefore e' (List.mem_cons_of_mem _ he')) hname

theorem mono (h : FirstEnds wanted ends events)
    (hends : ∀ name following, ends name following → ends' name following) :
    FirstEnds wanted ends' events :=
  fun before offset tag following heq hbefore hname =>
    hends _ _ (h before offset tag following heq hbefore hname)

/-- Among nested tags, `FirstEnds` with the end tag that `split` finds is `FirstEnds` with the one
that `Closes` the element. -/
theorem closes {last : List Name} (hnested : openAfter? [] events = some last)
    (h : FirstEnds wanted (fun name following => (View.split name following).closing.isSome)
      events) :
    FirstEnds wanted (fun name following => ∃ inside closing rest,
      Closes name following inside closing rest) events := by
  intro before offset tag following heq hbefore hname
  rw [heq, openAfter?_append, Option.bind_eq_some_iff] at hnested
  obtain ⟨around, -, hfollowing⟩ := hnested
  exact View.exists_closes hfollowing (h before offset tag following heq hbefore hname)

end FirstEnds

end Markup

open Markup (CountedOut FirstEnds)

/-! ### Cutting payloads -/

namespace Payload

variable {σ : Type} {emit : Listener Collected σ}

/-- A step of the walk that succeeds goes on behind an event, or has found the view of a
`<resources>` element closed. -/
theorem collectFrom_step {label : String} {shadow : Encoder} {v : View} {e : Event}
    {rest : List Event} {p q : Progress σ} {u : Unit}
    (h : collectFrom label emit shadow v (e :: rest) p = .ok u q) :
    (∃ shadow', (∀ tag, e.start? = some tag → Tag.isResources tag.name = false) ∧
        collectFrom label emit shadow' v rest p = .ok u q) ∨
      ∃ tag, e.start? = some tag ∧ Tag.isResources tag.name = true ∧
        (View.split tag.name rest).closing.isSome := by
  rw [collectFrom] at h
  cases hok : (shadow.encode e.token).outcome with
  | error err =>
      simp only [hok] at h
      exact absurd h not_ok_of_throw
  | ok u' =>
      simp only [hok] at h
      cases hstart : e.start? with
      | none =>
          simp only [hstart] at h
          exact .inl ⟨_, fun _ => nofun, h⟩
      | some tag =>
          simp only [hstart] at h
          by_cases hresources : Tag.isResources tag.name = true
          · rw [if_pos hresources] at h
            obtain ⟨u₁, p₁, -, hblock⟩ := exists_of_bind_ok h
            obtain ⟨shadow', p₂, -, hend⟩ := exists_of_bind_ok hblock
            refine .inr ⟨tag, rfl, hresources, ?_⟩
            cases hclosed : (View.split tag.name rest).closing.isSome with
            | true => rfl
            | false =>
                simp only [View.enter, hclosed] at hend
                cases hend
          · rw [if_neg hresources] at h
            refine .inl ⟨_, fun tag' htag' => ?_, h⟩
            obtain rfl := Option.some.inj htag'
            exact Bool.eq_false_iff.2 hresources

/-- The walk of a values document that succeeds has found the view of the first `<resources>`
element closed. Without such an element it has run out of events. -/
theorem collectFrom_ends {label : String} {shadow : Encoder} {v : View} {events : List Event}
    {p q : Progress σ} {u : Unit} (h : collectFrom label emit shadow v events p = .ok u q) :
    FirstEnds Tag.isResources (fun name following => (View.split name following).closing.isSome)
        events ∧
      (NoneWanted Tag.isResources events → v.final = true → q.ranOut = true) := by
  induction events generalizing shadow with
  | nil => exact ⟨.nil, fun _ hfinal => Reading.ranOut_of_exhaust h hfinal⟩
  | cons e rest ih =>
      rcases collectFrom_step h with ⟨shadow', hskip, hrest⟩ | ⟨tag, hstart, hresources, hclosed⟩
      · obtain ⟨hends, hran⟩ := ih hrest
        exact ⟨.skip hskip hends,
          fun hnone => hran fun e' he' => hnone e' (List.mem_cons_of_mem e he')⟩
      · refine ⟨.found hstart hresources hclosed, fun hnone => ?_⟩
        rw [hnone e List.mem_cons_self tag hstart] at hresources
        cases hresources

end Payload

/-! ### Listing -/

namespace Markup

/-- What holds behind the start tag that `skipTo` finds makes `FirstEnds` true for the loosely
matching ones. -/
theorem View.firstEnds_of_skipTo {name : Name} {ends : Name → List Event → Prop}
    {events : List Event}
    (h : ∀ e tag rest, skipTo name events = some (e, tag, rest) → ends tag.name rest) :
    FirstEnds (·.looselyMatches name) ends events := by
  induction events with
  | nil => exact .nil
  | cons e rest ih =>
      rw [skipTo] at h
      cases hstart : e.start? with
      | none =>
          simp only [hstart] at h
          exact .skip (by simp [hstart]) (ih h)
      | some tag =>
          simp only [hstart] at h
          by_cases hname : tag.name.looselyMatches name = true
          · rw [if_pos hname] at h
            exact .found hstart hname (h e tag rest rfl)
          · rw [if_neg hname] at h
            refine .skip (fun tag' htag' => ?_) (ih h)
            obtain rfl := Option.some.inj (hstart.symm.trans htag')
            exact Bool.eq_false_iff.2 hname

theorem View.skipTo_of_noneWanted {name : Name} {events : List Event}
    (h : NoneWanted (·.looselyMatches name) events) : skipTo name events = none := by
  induction events with
  | nil => rfl
  | cons e rest ih =>
      have hrest := ih fun e' he' => h e' (List.mem_cons_of_mem e he')
      unfold skipTo
      cases hstart : e.start? with
      | none => exact hrest
      | some tag =>
          have hname : tag.name.looselyMatches name = false := h e List.mem_cons_self tag hstart
          simp only [hname]
          exact hrest

end Markup

namespace Listing

variable {σ : Type} {emit : Listener Resource σ}

/-- The walk of a document that succeeds has found the first `<resources>` element closed or has run
out of events. -/
theorem declared_ends {label : String} {v : View} {p q : Progress σ} {u : Unit}
    (hfinal : v.final = true) (h : declared label emit v p = .ok u q) :
    FirstEnds (·.looselyMatches Tag.resources)
        (fun name following => (View.split name following).closing.isSome ∨ q.ranOut = true)
        v.events ∧
      (NoneWanted (·.looselyMatches Tag.resources) v.events → q.ranOut = true) := by
  unfold declared at h
  refine ⟨View.firstEnds_of_skipTo fun e tag rest hskip => ?_, fun hnone => ?_⟩
  · simp only [hskip] at h
    cases hclosing : (View.split tag.name rest).closing with
    | some found => exact .inl rfl
    | none =>
        refine .inr (ranOut_of_children ?_ h)
        simp [View.enter, hfinal, hclosing]
  · simp only [View.skipTo_of_noneWanted hnone] at h
    exact Reading.ranOut_of_exhaust h hfinal

end Listing

/-! ### Whole documents -/

/-- The first element of a document with a name that is wanted is closed, and if there is none the
document was read to its end. -/
structure Markup.Document.Complete (wanted : Name → Bool) (doc : Document) : Prop where
  /-- The first such element is closed. -/
  ends : FirstEnds wanted (fun name following => ∃ inside closing rest,
    Closes name following inside closing rest) doc.events
  /-- Without one, nothing is wrong with the document. -/
  sound : NoneWanted wanted doc.events → doc.fault? = none

/-- Cutting payloads succeeds for a document only if its `<resources>` element is closed. -/
theorem Payload.complete_of_ofDocument {σ : Type} {label : String} {block? : Option Nat}
    {bytes : Bytes} {emit : Listener Collected σ} {before after : σ} {u : Unit}
    (h : ofDocument label (.ofDecoder .strict (.start block? bytes)) emit before = .ok u after) :
    (Document.ofDecoder .strict (.start block? bytes)).Complete Tag.isResources := by
  obtain ⟨t, hevents, -⟩ := Document.exists_tree .strict block? bytes
  have hnested := t.openAfter?_events []
  rw [hevents] at hnested
  obtain ⟨u', p, hwalk, -, hfault⟩ := Reading.document_ok h
  obtain ⟨hends, hran⟩ := collectFrom_ends hwalk
  exact ⟨hends.closes hnested, fun hnone => hfault (hran hnone rfl)⟩

/-- Listing succeeds for a values file that is read only if its `<resources>` element is closed. -/
theorem Listing.complete_of_file {σ : Type} {label : String} {f : ResourceFile} {opened : Opened}
    {emit : Listener Resource σ} {before after : σ} {u : Unit} (hvalues : f.isValues = true)
    (hread : needsReading f opened = .ok true)
    (h : file label f opened emit before = .ok u after) :
    ∃ doc, document f opened = .ok doc ∧ doc.Complete (·.looselyMatches Tag.resources) := by
  have hself : f.resource? = .ok none := by
    rw [ResourceFile.resource?, if_pos hvalues]
  rw [file, hself, hread] at h
  cases hdoc : document f opened with
  | error e =>
      simp only [hdoc] at h
      cases h
  | ok doc =>
      simp only [hdoc, hvalues, if_true] at h
      obtain ⟨u', p, hwalk, -, hfault⟩ := Reading.document_ok h
      obtain ⟨t, hevents, hopened⟩ := exists_tree_of_document hdoc
      obtain ⟨hends, hran⟩ := declared_ends rfl hwalk
      refine ⟨doc, rfl, fun front offset tag following heq hfront hname => ?_,
        fun hnone => hfault (hran hnone)⟩
      have hnested := t.openAfter?_events []
      rw [hevents, heq, Markup.openAfter?_append, Option.bind_eq_some_iff] at hnested
      obtain ⟨around, -, hfollowing⟩ := hnested
      rcases hends front offset tag following heq hfront hname with hclosed | hranOut
      · exact View.exists_closes hfollowing hclosed
      · -- a document with an element that is left open would have been refused
        rcases closes_or_open hfollowing with hcloses | ⟨inner, -, hlast⟩
        · exact hcloses
        · rw [hopened (hfault hranOut)] at hlast
          exact absurd hlast.symm (List.append_ne_nil_of_right_ne_nil _ (List.cons_ne_nil _ _))

/-- **A truncated values document is never taken for a whole one.** Whoever listens:
`Payload.ofDocument` succeeds for a strict reader, and `Listing.file` for a values file that is
read, only if the document is `Complete`: its first element that is called `resources`, with no
namespace for the one and with any for the other, is closed, or there is none and the document was
read to its end. Over any events whatever, whether their tags are nested or not, `Payload.collect`
succeeds only if they come to the end tag that closes the first such element. -/
theorem values_not_truncated {σ : Type} :
    (∀ label block? bytes (emit : Listener Collected σ) before after,
      Payload.ofDocument label (.ofDecoder .strict (.start block? bytes)) emit before =
          .ok () after →
        (Document.ofDecoder .strict (.start block? bytes)).Complete (· == .plain "resources")) ∧
    (∀ label f opened (emit : Listener Resource σ) before after, f.isValues = true →
      Listing.needsReading f opened = .ok true →
      Listing.file label f opened emit before = .ok () after →
        ∃ doc, Listing.document f opened = .ok doc ∧
          doc.Complete (·.localPart == "resources")) ∧
    ∀ label (emit : Listener Collected σ) v p q, Payload.collect label emit v p = .ok () q →
      FirstEnds (· == .plain "resources") (fun name following => ∃ inside closing rest,
        CountedOut name following inside closing rest) v.events := by
  refine ⟨fun label block? bytes emit before after h => Payload.complete_of_ofDocument h,
    fun label f opened emit before after hvalues hread h => ?_, fun label emit v p q h => ?_⟩
  · have hname : (fun name : Name => name.looselyMatches Tag.resources) =
        fun name => name.localPart == "resources" := Tag.looselyMatches_resources
    rw [← hname]
    exact Listing.complete_of_file hvalues hread h
  · exact (Payload.collectFrom_ends h).1.mono fun name following => View.exists_countedOut

/-- A block inside a block is part of what the outer one holds, for both readers, and over events
that no document has a stray end tag closes nothing. -/
theorem values_not_truncated_nested :
    let bytes := Bytes.ofString "<resources><skip><resources/></skip></resources>"
    let events : List Event :=
      [⟨0, .start ⟨.plain "resources", []⟩⟩, ⟨1, .finish (.plain "x")⟩,
        ⟨2, .finish (.plain "resources")⟩]
    (Document.decode .strict bytes).Complete (· == .plain "resources") ∧
      (Document.decode .lenient bytes).Complete (·.localPart == "resources") ∧
      FirstEnds (· == .plain "resources") (fun name following => ∃ inside closing rest,
        CountedOut name following inside closing rest) events := by
  intro bytes events
  refine ⟨?_, ?_, ?_⟩
  · have htrace :
        Listening.trace (Payload.ofDocument "" (.decode .strict bytes)) = ([], .ok ()) := by
      decide +kernel
    obtain ⟨u, hrun⟩ := trace_ok htrace
    exact values_not_truncated.1 "" none bytes Listener.collecting [] _ hrun
  · have htrace : Listing.ofFile "" Listing.mixedFile (.given bytes) = ([], .ok ()) := by
      decide +kernel
    obtain ⟨u, hrun⟩ := trace_ok htrace
    obtain ⟨doc, hdoc, hcomplete⟩ := values_not_truncated.2.1 "" Listing.mixedFile (.given bytes)
      Listener.collecting [] _ (by decide +kernel) (by decide +kernel) hrun
    obtain rfl := Except.ok.inj hdoc
    exact hcomplete
  · have hok : (match Payload.collect "" (Listener.collecting (α := Collected)) (View.kept events)
        { listener := [] } with
        | .ok _ _ => true
        | .error _ _ => false) = true := by
      decide +kernel
    cases hrun : Payload.collect "" (Listener.collecting (α := Collected)) (View.kept events)
        { listener := [] } with
    | ok u q => exact values_not_truncated.2.2 "" _ _ _ q hrun
    | error e q =>
        rw [hrun] at hok
        cases hok

/-- A values file whose name does not end in `xml`. -/
def textFile : ResourceFile where
  path := Path.ofString "res/values/strings.txt"
  resDir := Path.ofString "res"
  typeDir := "values"
  type := .values
  qualifier := ""
  density := {}

/-- A values file that `needsReading` rejects is not read, so nothing is wrong with it whatever it
holds. -/
theorem truncated_values_unread :
    ResourceFile.ofPath (Path.ofString "res/values/strings.txt") = .ok textFile ∧
      textFile.isValues = true ∧
      Listing.ofFile "" textFile (.given (Bytes.ofString "<resources>")) = ([], .ok ()) ∧
      ¬ FirstEnds (·.localPart == "resources") (fun name following => ∃ inside closing rest,
        Closes name following inside closing rest)
        (Document.decode .lenient (Bytes.ofString "<resources>")).events := by
  refine ⟨by decide +kernel, by decide +kernel, by decide +kernel, fun hends => ?_⟩
  have hevents : (Document.decode .lenient (Bytes.ofString "<resources>")).events =
      [] ++ [⟨11, .start ⟨.plain "resources", []⟩⟩] := by
    decide +kernel
  obtain ⟨inside, closing, rest, heq, -⟩ := hends [] _ _ _ hevents .nil rfl
  exact absurd heq.symm (List.append_ne_nil_of_right_ne_nil _ (List.cons_ne_nil _ _))

end ResourceShards
