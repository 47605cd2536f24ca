import ResourceShards.Proofs.Markup.Strictness
import ResourceShards.Proofs.Markup.WholePieces

/-!
# ResourceShards.Proofs.Markup.Continuation

**Documents that go on.** A document that falls into whole pieces is read the same whatever is put
behind it: reading fails where it failed, or comes to the events that it came to and goes on from
there. That a document falls into whole pieces can be told from what is read of it: it does if
nothing is wrong with it but elements that are open, its last event is an end tag and its last byte
a `>`.

* `Decoder.followedBy`: a decoder with more to read
* `Decoder.foreseen_of_apart`: how its run goes, whatever more there is
* `Decoder.apart_of_run`: bytes that fall into whole pieces
* `Document.ofDecoder_append`: whole documents
-/

namespace ResourceShards.Markup

/-! ### Decoders with more behind them -/

/-- A decoder with more bytes behind those that are left. -/
def Decoder.followedBy (d : Decoder) (more : Bytes) : Decoder :=
  { d with rest := d.rest ++ more }

/-- What a step gives, with more bytes behind those that are left. -/
def Step.followedBy (more : Bytes) : Step → Step
  | .event e d => .event e (d.followedBy more)
  | step => step

namespace Decoder

/-- What is left falls into whole pieces. -/
def Apart (d : Decoder) : Prop :=
  Lexeme.Apart d.block? (d.skipped + d.taken) d.rest

/-- What a piece has given, and where the decoder stands behind it. -/
structure Passed (d : Decoder) (lexeme : Lexeme) (taken : Nat) (rest : Bytes) (e : Event)
    (next : Decoder) : Prop where
  /-- What follows the piece is left. -/
  rest : next.rest = rest
  /-- The bytes up to there are counted. -/
  taken : next.taken = taken
  /-- The mark in front of the document stays counted apart. -/
  skipped : next.skipped = d.skipped
  /-- The bytes arrive as before. -/
  block : next.block? = d.block?
  /-- No element is closed, or about to be, by a piece that closes none. -/
  unclosed : lexeme.closes = false → d.due = none →
    next.due = none ∧ ∀ name, e.token ≠ .finish name

/-- Behind a piece that was `Passed`, what is left is `Apart` if what follows the piece is. -/
theorem Passed.apart_iff {d next : Decoder} {lexeme : Lexeme} {n : Nat} {rest : Bytes} {e : Event}
    (h : d.Passed lexeme (d.taken + n) rest e next) :
    next.Apart ↔ Lexeme.Apart d.block? (d.skipped + d.taken + n) rest := by
  rw [Apart, h.rest, h.taken, h.skipped, h.block, Nat.add_assoc]

/-- A piece is `Passed`, or `piece` fails with a fault in it. -/
theorem piece_cases (mode : Strictness) (d : Decoder) (lexeme : Lexeme) (taken : Nat)
    (rest : Bytes) :
    (∃ offset fault, d.piece mode lexeme taken rest = .failed (.decode offset fault)) ∨
      ∃ e next, d.piece mode lexeme taken rest = .event e next ∧
        d.Passed lexeme taken rest e next := by
  cases lexeme with
  | text raw =>
      simp only [piece]
      cases Reference.readText mode raw with
      | error fault => exact .inl ⟨_, _, rfl⟩
      | ok text =>
          refine .inr ⟨_, _, rfl, rfl, rfl, rfl, rfl, fun _ hdue => ⟨hdue, fun _ h => ?_⟩⟩
          cases h
  | startTag raw closesItself =>
      simp only [piece]
      cases openElement mode d.scope raw with
      | error fault => exact .inl ⟨_, _, rfl⟩
      | ok opened =>
          obtain ⟨e, tag⟩ := opened
          cases closesItself with
          | true =>
              refine .inr ⟨_, _, rfl, rfl, rfl, rfl, rfl, fun hcloses => ?_⟩
              cases hcloses
          | false =>
              refine .inr ⟨_, _, rfl, rfl, rfl, rfl, rfl, fun _ hdue => ⟨hdue, fun _ h => ?_⟩⟩
              cases h
  | endTag raw =>
      simp only [piece]
      cases closeElement d.opened raw with
      | error fault => exact .inl ⟨_, _, rfl⟩
      | ok closed =>
          refine .inr ⟨_, _, rfl, rfl, rfl, rfl, rfl, fun hcloses => ?_⟩
          cases hcloses
  | _ =>
      refine .inr ⟨_, _, rfl, rfl, rfl, rfl, rfl, fun _ hdue => ⟨hdue, fun _ h => ?_⟩⟩
      cases h

/-- `piece` gives the same with more bytes behind it, except for text that nothing followed. -/
theorem piece_followedBy (mode : Strictness) (d : Decoder) {lexeme : Lexeme} {rest : Bytes}
    (htext : ∀ raw, lexeme = .text raw → rest ≠ []) (taken : Nat) (more : Bytes) :
    (d.followedBy more).piece mode lexeme taken (rest ++ more) =
      (d.piece mode lexeme taken rest).followedBy more := by
  cases lexeme with
  | text raw =>
      obtain ⟨b, rest, rfl⟩ := List.exists_cons_of_ne_nil (htext raw rfl)
      simp only [piece, List.cons_append, List.isEmpty_cons]
      cases Reference.readText mode raw <;> rfl
  | startTag raw closesItself =>
      have hscope : (d.followedBy more).scope = d.scope := rfl
      simp only [piece, hscope]
      cases openElement mode d.scope raw with
      | error fault => rfl
      | ok opened => cases closesItself <;> rfl
  | endTag raw =>
      have hopened : (d.followedBy more).opened = d.opened := rfl
      simp only [piece, hopened]
      cases closeElement d.opened raw <;> rfl
  | _ => rfl

/-- If the next piece `isWhole`, `step` gives the same with more bytes. -/
theorem step_followedBy (mode : Strictness) {d : Decoder}
    (h : d.due = none → Lexeme.isWhole d.block? (d.skipped + d.taken) d.rest = true)
    (more : Bytes) : (d.followedBy more).step mode = (d.step mode).followedBy more := by
  have hdue : (d.followedBy more).due = d.due := rfl
  unfold step
  rw [hdue]
  cases hd : d.due with
  | some e => rfl
  | none =>
      have hwhole := h hd
      have hread : Lexeme.read (d.followedBy more).block?
          ((d.followedBy more).skipped + (d.followedBy more).taken) (d.followedBy more).rest =
          (Lexeme.read d.block? (d.skipped + d.taken) d.rest).followedBy more :=
        Lexeme.read_append hwhole more
      rw [hread]
      rcases Lexeme.read_cut d.block? (d.skipped + d.taken) d.rest with
        ⟨hbytes, -⟩ | ⟨n, fault, hbad⟩ | ⟨lexeme, n, rest, hpiece, hcut⟩
      · rcases hbytes with hnil | hlast
        · rw [hnil] at hwhole
          cases hwhole
        · rw [hlast] at hwhole
          cases hwhole
      · rw [hbad]
        rfl
      · rw [hpiece]
        cases hcut with
        | whole _ _ htext => exact d.piece_followedBy mode htext _ more
        | short hshort =>
            rw [hwhole] at hshort
            cases hshort

/-- `run` finds nothing wrong behind the last piece but elements that are open. -/
theorem run_of_nil {d : Decoder} (hrest : d.rest = []) (hdue : d.due = none) (mode : Strictness)
    (seen : List Event) : ∃ fault?, d.run mode seen = (seen, fault?) ∧
      ∀ offset fault, fault? ≠ some (.decode offset fault) := by
  have hstep : d.step mode = d.atEnd (d.taken + 0) := by
    unfold step
    rw [hdue, hrest]
    rfl
  unfold atEnd at hstep
  by_cases hopened : d.opened.isEmpty = true
  · rw [if_pos hopened] at hstep
    exact ⟨none, run_of_finished hstep seen, fun _ _ => nofun⟩
  · rw [if_neg hopened] at hstep
    exact ⟨_, run_of_failed hstep seen, fun _ _ => nofun⟩

/-- How the run of a decoder goes whose bytes fall into whole pieces, whatever follows: it fails
among them, or it comes to their end. -/
inductive Foreseen (mode : Strictness) (d : Decoder) (seen : List Event) : Prop
  /-- Something among the bytes is wrong. -/
  | failed {events : List Event} {offset : Nat} {fault : Fault}
      (hrun : ∀ more, (d.followedBy more).run mode seen = (events, some (.decode offset fault)))
  /-- All of them are read. -/
  | passed {last : Decoder} {events : List Event} (hrest : last.rest = []) (hdue : last.due = none)
      (hrun : ∀ more, (d.followedBy more).run mode seen = (last.followedBy more).run mode events)

section

variable {mode : Strictness} {d next : Decoder} {seen : List Event}

/-- If the next piece `isWhole`, and what is behind its event is `Foreseen`, so is the whole. -/
theorem Foreseen.of_event {e : Event}
    (hwhole : d.due = none → Lexeme.isWhole d.block? (d.skipped + d.taken) d.rest = true)
    (hstep : d.step mode = .event e next) (h : next.Foreseen mode (e :: seen)) :
    d.Foreseen mode seen := by
  have hrun (more : Bytes) : (d.followedBy more).run mode seen =
      (next.followedBy more).run mode (e :: seen) := by
    refine run_of_event ?_ seen
    rw [step_followedBy mode hwhole, hstep]
    rfl
  cases h with
  | failed hfailed => exact .failed fun more => (hrun more).trans (hfailed more)
  | passed hrest hdue hpassed =>
      exact .passed hrest hdue fun more => (hrun more).trans (hpassed more)

theorem Foreseen.of_failed {offset : Nat} {fault : Fault}
    (hwhole : Lexeme.isWhole d.block? (d.skipped + d.taken) d.rest = true)
    (hstep : d.step mode = .failed (.decode offset fault)) : d.Foreseen mode seen := by
  have hfailed (more : Bytes) : (d.followedBy more).step mode = .failed (.decode offset fault) := by
    rw [step_followedBy mode fun _ => hwhole, hstep]
    rfl
  exact .failed fun more => run_of_failed (hfailed more) seen

end

theorem foreseen_of_apart {d : Decoder} (h : d.Apart) (mode : Strictness) (seen : List Event) :
    d.Foreseen mode seen := by
  induction hsize : d.size using Nat.strongRecOn generalizing d seen with
  | ind size ih =>
      cases hdue : d.due with
      | some e =>
          have hstep : d.step mode = .event ⟨d.taken, .finish e.name⟩ { d with due := none } := by
            rw [step, hdue]
          have hnext : Apart { d with due := none } := h
          refine .of_event (fun hnone => absurd hnone (by simp [hdue])) hstep ?_
          exact ih _ (hsize ▸ size_lt_of_step hstep) hnext _ rfl
      | none =>
          cases h with
          | nothing hnil => exact .passed hnil hdue fun _ => rfl
          | @bad _ n _ fault hwhole hread =>
              have hstep : d.step mode = .failed (.decode (d.taken + n) fault) := by
                rw [step, hdue, hread]
              exact .of_failed hwhole hstep
          | @piece _ n _ rest lexeme hwhole hread hrest =>
              have hstep : d.step mode = d.piece mode lexeme (d.taken + n) rest := by
                rw [step, hdue, hread]
              rcases piece_cases mode d lexeme (d.taken + n) rest with
                ⟨offset, fault, hfailed⟩ | ⟨e, next, hevent, hpassed⟩
              · exact .of_failed hwhole (hstep.trans hfailed)
              · have hapart : next.Apart := hpassed.apart_iff.2 hrest
                have hnextStep := hstep.trans hevent
                refine .of_event (fun _ => hwhole) hnextStep ?_
                exact ih _ (hsize ▸ size_lt_of_step hnextStep) hapart _ rfl

/-- Bytes fall into whole pieces if a decoder finds nothing wrong with them but elements that are
open, if its last event is an end tag, and if the last byte is a `>`. -/
theorem apart_of_run {mode : Strictness} {d : Decoder} {seen events : List Event} {offset : Nat}
    {name : Name} {fault? : Option Error}
    (hrun : d.run mode seen = (⟨offset, .finish name⟩ :: events, fault?))
    (hsound : ∀ offset fault, fault? ≠ some (.decode offset fault))
    (hlast : d.rest = [] ∨ d.rest.getLast? = some Lexeme.closing) : d.Apart := by
  induction hsize : d.size using Nat.strongRecOn generalizing d seen with
  | ind size ih =>
      cases hdue : d.due with
      | some e =>
          have hstep : d.step mode = .event ⟨d.taken, .finish e.name⟩ { d with due := none } := by
            rw [step, hdue]
          have hnext : Apart { d with due := none } :=
            ih _ (hsize ▸ size_lt_of_step hstep) ((run_of_event hstep seen).symm.trans hrun) hlast
              rfl
          exact hnext
      | none =>
          rcases hlast with hnil | hlast
          · exact .nothing hnil
          rcases Lexeme.read_cut d.block? (d.skipped + d.taken) d.rest with
            ⟨hbytes, -⟩ | ⟨n, fault, hbad⟩ | ⟨lexeme, n, rest, hpiece, hcut⟩
          · rcases hbytes with hnil | hopening
            · exact .nothing hnil
            · rw [hopening] at hlast
              exact absurd hlast (by decide)
          · have hstep : d.step mode = .failed (.decode (d.taken + n) fault) := by
              rw [step, hdue, hbad]
            rw [run_of_failed hstep] at hrun
            exact absurd (Prod.mk.inj hrun).2.symm (hsound _ _)
          · have hstep : d.step mode = d.piece mode lexeme (d.taken + n) rest := by
              rw [step, hdue, hpiece]
            rcases piece_cases mode d lexeme (d.taken + n) rest with
              ⟨offset, fault, hfailed⟩ | ⟨e, next, hevent, hpassed⟩
            · rw [run_of_failed (hstep.trans hfailed)] at hrun
              exact absurd (Prod.mk.inj hrun).2.symm (hsound _ _)
            have hnextStep := hstep.trans hevent
            rw [run_of_event hnextStep] at hrun
            cases hcut with
            | whole hwhole hsuffix =>
                have hapart : next.Apart := by
                  refine ih _ (hsize ▸ size_lt_of_step hnextStep) hrun ?_ rfl
                  rw [hpassed.rest]
                  exact Lexeme.getLast?_of_suffix hsuffix hlast
                exact .piece hwhole hpiece (hpassed.apart_iff.1 hapart)
            | short _ hrest hcloses =>
                -- the piece is the last one and no end tag
                obtain ⟨hnone, htoken⟩ := hpassed.unclosed (hcloses hlast) hdue
                obtain ⟨_, hend, -⟩ := run_of_nil (hpassed.rest.trans hrest) hnone mode (e :: seen)
                rw [hend] at hrun
                obtain ⟨rfl, -⟩ := List.cons.inj (Prod.mk.inj hrun).1
                exact absurd rfl (htoken name)

@[simp] theorem followedBy_nil (d : Decoder) : d.followedBy [] = d := by
  simp [followedBy]

/-- A byte order mark is known as soon as there is a `>`. -/
theorem start_append {block? : Option Nat} {bytes : Bytes}
    (hlast : bytes.getLast? = some Lexeme.closing) (more : Bytes) :
    start block? (bytes ++ more) = (start block? bytes).followedBy more := by
  unfold start
  rw [Bytes.dropRun?_append_of_getLast? hlast (by decide)]
  cases Bytes.dropRun? mark bytes <;> rfl

end Decoder

/-! ### Whole documents -/

namespace Document

/-- If a document is `Apart`, then `ofDecoder` reads it alike up to its end, whatever is put behind
it. -/
theorem ofDecoder_append {block? : Option Nat} {bytes : Bytes}
    (hlast : bytes.getLast? = some Lexeme.closing) (h : (Decoder.start block? bytes).Apart)
    (mode : Strictness) :
    (∀ more, ofDecoder mode (.start block? (bytes ++ more)) =
        ofDecoder mode (.start block? bytes)) ∨
      (∀ offset fault, (ofDecoder mode (.start block? bytes)).fault? ≠
          some (.decode offset fault)) ∧
        ∀ more, (ofDecoder mode (.start block? bytes)).events <+:
          (ofDecoder mode (.start block? (bytes ++ more))).events := by
  have hwhole := Decoder.followedBy_nil (.start block? bytes)
  cases Decoder.foreseen_of_apart h mode [] with
  | failed hrun =>
      refine .inl fun more => ?_
      have hfront := hrun []
      rw [hwhole] at hfront
      rw [Decoder.start_append hlast, ofDecoder, ofDecoder, hrun, hfront]
  | @passed last events hrest hdue hrun =>
      have hfront := hrun []
      obtain ⟨fault?, hend, hsound⟩ := Decoder.run_of_nil hrest hdue mode events
      rw [hwhole, Decoder.followedBy_nil, hend] at hfront
      refine .inr ⟨?_, fun more => ?_⟩
      · rw [ofDecoder, hfront]
        exact hsound
      · obtain ⟨new, -, hnew, -⟩ := (last.followedBy more).run_nested mode events
        refine ⟨new, ?_⟩
        rw [Decoder.start_append hlast, ofDecoder, ofDecoder, hfront]
        show events.reverse ++ new =
          (((Decoder.start block? bytes).followedBy more).run mode []).1.reverse
        rw [hrun, hnew, List.reverse_append, List.reverse_reverse]

end Document

end ResourceShards.Markup
