import Mathlib.Data.List.Infix
import ResourceShards.Proofs.Markup.Fidelity

/-!
# ResourceShards.Proofs.Markup.Decoded

**What decoding never gives.** Whatever the bytes are, the tokens of a document that is read
strictly could be written again as far as their content goes: no text is empty or stands next to
another one, no comment holds its own end, and so on. Document types are left out, since one that
arrives in blocks may end anywhere.

* `Decoder.enclosed_of_step`: the content of one event
* `Document.ofDecoder_tokens`: the tokens of a whole document
-/

namespace ResourceShards.Markup

open ResourceShards.Utf8

/-! ### Cuts -/

/-- What `cutRun` gives as being before a run does not hold the run. -/
theorem not_infix_of_cutRun {run seen bytes before after : Bytes} (hrun : run ≠ [])
    (h : Bytes.cutRun run seen bytes = some (before, after)) :
    ∃ x, before = seen.reverse ++ x ∧ bytes = x ++ (run ++ after) ∧ ¬run <:+: x := by
  induction bytes generalizing seen with
  | nil =>
      unfold Bytes.cutRun at h
      cases hdrop : Bytes.dropRun? run [] with
      | none => rw [hdrop] at h; exact absurd h.symm (Option.some_ne_none _)
      | some rest =>
          have hnil := Bytes.dropRun?_eq hdrop
          exact absurd (List.append_eq_nil_iff.1 hnil.symm).1 hrun
  | cons b bytes ih =>
      unfold Bytes.cutRun at h
      cases hdrop : Bytes.dropRun? run (b :: bytes) with
      | some rest =>
          rw [hdrop] at h
          simp only [Option.some.injEq, Prod.mk.injEq] at h
          obtain ⟨rfl, rfl⟩ := h
          refine ⟨[], (List.append_nil _).symm, ?_, ?_⟩
          · rw [List.nil_append]
            exact Bytes.dropRun?_eq hdrop
          · exact fun hinfix => hrun (List.infix_nil.1 hinfix)
      | none =>
          rw [hdrop] at h
          simp only at h
          obtain ⟨x, hbefore, hbytes, hno⟩ := ih h
          refine ⟨b :: x, by rw [hbefore]; simp, by rw [hbytes]; rfl, ?_⟩
          intro hinfix
          rcases List.infix_cons_iff.1 hinfix with ⟨more, hmore⟩ | hinside
          · -- a run that begins here would have been found here
            rw [hbytes, ← List.cons_append, ← hmore, List.append_assoc, dropRun?_append] at hdrop
            exact Option.some_ne_none _ hdrop
          · exact hno hinside

/-! ### Text -/

/-- `unescapeFrom` makes no text of some characters empty. -/
theorem Reference.length_of_unescapeFrom {size place : Nat} {seen chars out : List Char}
    (h : unescapeFrom size place seen chars = .ok out) :
    seen.length ≤ out.length ∧ (chars ≠ [] → seen.length < out.length) := by
  fun_induction unescapeFrom size place seen chars with
  | case1 place seen =>
      obtain rfl : seen.reverse = out := Except.ok.inj h
      exact ⟨by rw [List.length_reverse], fun hne => absurd rfl hne⟩
  | case2 place seen c rest hamp stop after hafter r hresolve ih =>
      obtain ⟨hle, -⟩ := ih h
      rw [List.length_cons] at hle
      exact ⟨by omega, fun _ => by omega⟩
  | case3 => cases h
  | case4 => cases h
  | case5 place seen c rest hamp ih =>
      obtain ⟨hle, -⟩ := ih h
      rw [List.length_cons] at hle
      exact ⟨by omega, fun _ => by omega⟩

/-- `readText` reads no bytes but none as the empty text. -/
theorem Reference.ne_empty_of_readText {raw : Bytes} {text : String} (hraw : raw ≠ [])
    (h : readText .strict raw = .ok text) : text ≠ "" := by
  have hstrict : readStrict raw = .ok text := by
    unfold readText at h
    cases hread : readStrict raw with
    | ok found => rw [hread] at h; exact h
    | error fault => simp [hread] at h
  unfold readStrict at hstrict
  cases hdecode : decode raw with
  | error fault => simp [hdecode] at hstrict
  | ok found =>
      rw [hdecode] at hstrict
      simp only [unescape] at hstrict
      cases hunescape : unescapeFrom found.utf8ByteSize 0 [] found.toList with
      | error fault => simp [hunescape, Except.map] at hstrict
      | ok out =>
          rw [hunescape] at hstrict
          obtain rfl : String.ofList out = text := Except.ok.inj hstrict
          have hne : found.toList ≠ [] := fun hnil =>
            hraw (eq_nil_of_decodeLossy ((decodeLossy_of_decode hdecode).trans
              (String.toList_eq_nil_iff.1 hnil)))
          have hlength := (length_of_unescapeFrom hunescape).2 hne
          intro hempty
          have hnil : out = [] := by
            rw [← String.toList_ofList (l := out), hempty]
            rfl
          rw [hnil] at hlength
          exact Nat.lt_irrefl 0 hlength

/-! ### Pieces -/

/-- Markup whose content keeps within its delimiters. -/
def Lexeme.EnclosedMarkup : Lexeme → Prop
  | .text _ => False
  | .cdata raw => ¬[0x5d, 0x5d, 0x3e] <:+: raw
  | .comment raw => ¬[0x2d, 0x2d, 0x3e] <:+: raw
  | .instruction raw => raw ≠ [] ∧ (0x3e : UInt8) ∉ raw
  | _ => True

namespace Lexeme

theorem dropWord?_suffix {word : String} {raw content : Bytes}
    (h : dropWord? word raw = some content) : content <:+ raw := by
  simp only [dropWord?] at h
  split at h
  · rw [Option.some.injEq] at h
    rw [← h]
    exact List.drop_suffix _ _
  · exact absurd h.symm (Option.some_ne_none _)

theorem enclosed_of_readCData {bytes rest : Bytes} {lexeme : Lexeme} {n : Nat}
    (h : readCData bytes = .piece lexeme n rest) : lexeme.EnclosedMarkup := by
  unfold readCData at h
  cases hcut : Bytes.cutRun [0x5d, 0x5d, closing] [] bytes with
  | none => simp [hcut] at h
  | some cut =>
      obtain ⟨raw, after⟩ := cut
      obtain ⟨x, hraw, -, hno⟩ := not_infix_of_cutRun (by decide) hcut
      rw [List.reverse_nil, List.nil_append] at hraw
      simp only [hcut] at h
      cases hword : dropWord? "[CDATA[" raw with
      | none => simp [hword] at h
      | some content =>
          simp only [hword, Lexed.piece.injEq] at h
          rw [← h.1]
          intro hinfix
          exact hno (hraw ▸ hinfix.trans (dropWord?_suffix hword).isInfix)

theorem enclosed_of_readComment {bytes rest : Bytes} {lexeme : Lexeme} {n : Nat}
    (h : readComment bytes = .piece lexeme n rest) : lexeme.EnclosedMarkup := by
  unfold readComment at h
  cases hcut : Bytes.cutRun [0x2d, 0x2d, closing] [] (bytes.drop 2) with
  | none => simp [hcut] at h
  | some cut =>
      obtain ⟨raw, after⟩ := cut
      obtain ⟨x, hraw, -, hno⟩ := not_infix_of_cutRun (by decide) hcut
      rw [List.reverse_nil, List.nil_append] at hraw
      simp only [hcut] at h
      by_cases hdashes : (dropWord? "--" bytes).isSome = true
      · rw [if_pos hdashes, Lexed.piece.injEq] at h
        rw [← h.1, hraw]
        exact hno
      · rw [if_neg hdashes] at h
        exact Lexed.noConfusion h

theorem enclosed_of_readInstruction {bytes rest : Bytes} {lexeme : Lexeme} {n : Nat}
    (h : readInstruction bytes = .piece lexeme n rest) : lexeme.EnclosedMarkup := by
  have hraw : (toClosing bytes).1 = bytes.takeWhile (· != closing) := by
    unfold toClosing
    split <;> rfl
  unfold readInstruction at h
  simp only [hraw] at h
  by_cases hfits : (2 ≤ (bytes.takeWhile (· != closing)).length &&
      (bytes.takeWhile (· != closing)).getLast? == some question) = true
  · rw [if_pos hfits, Lexed.piece.injEq] at h
    rw [← h.1]
    rw [Bool.and_eq_true, decide_eq_true_iff] at hfits
    refine ⟨fun hnil => ?_, fun hmem => ?_⟩
    · have hlength := congrArg List.length hnil
      rw [List.length_dropLast, List.length_nil] at hlength
      omega
    · have hall := List.all_takeWhile (p := (· != closing)) (l := bytes)
      have hpass := List.all_eq_true.1 hall _ (List.mem_of_mem_dropLast hmem)
      exact absurd hpass (by decide)
  · rw [if_neg hfits] at h
    exact Lexed.noConfusion h

theorem enclosed_of_readDoctype {arrival : Arrival} {bytes rest : Bytes} {lexeme : Lexeme} {n : Nat}
    (h : readDoctype arrival bytes = .piece lexeme n rest) : lexeme.EnclosedMarkup := by
  unfold readDoctype at h
  cases hend : doctypeEnd arrival 0 [] bytes with
  | none => simp [hend] at h
  | some cut =>
      obtain ⟨raw, after⟩ := cut
      simp only [hend] at h
      cases hword : dropWord? "DOCTYPE" raw with
      | none => simp [hword] at h
      | some content =>
          simp only [hword] at h
          cases hcontent : content.dropWhile Bytes.isBlank with
          | nil => simp [hcontent] at h
          | cons b more =>
              simp only [hcontent, Lexed.piece.injEq] at h
              rw [← h.1]
              trivial

theorem enclosed_of_readDeclaration {arrival : Arrival} {bytes rest : Bytes} {lexeme : Lexeme}
    {n : Nat} (h : readDeclaration arrival bytes = .piece lexeme n rest) :
    lexeme.EnclosedMarkup := by
  unfold readDeclaration at h
  split at h
  · exact Lexed.noConfusion h
  · split at h
    · exact enclosed_of_readCData h
    · split at h
      · exact enclosed_of_readComment h
      · split at h
        · exact enclosed_of_readDoctype h
        · exact Lexed.noConfusion h

/-- A piece is text up to the next `<` or the end, or markup that begins with a `<`. -/
theorem read_cases {block? : Option Nat} {position : Nat} {bytes rest : Bytes} {lexeme : Lexeme}
    {n : Nat} (h : read block? position bytes = .piece lexeme n rest) :
    (∃ b more, bytes = b :: more ∧ b ≠ opening ∧
        lexeme = .text (b :: more.takeWhile (· != opening)) ∧
        rest = more.dropWhile (· != opening)) ∨
      (lexeme.EnclosedMarkup ∧ ∃ more, bytes = opening :: more) := by
  unfold read at h
  split at h
  · exact Lexed.noConfusion h
  · rename_i b after
    split at h
    · rename_i hb
      simp only [readTextFrom, Lexed.piece.injEq] at h
      exact .inl ⟨b, after, rfl, bne_iff_ne.1 hb, h.1.symm, h.2.2.symm⟩
    · rename_i hb
      have hopening : b = opening := by simpa using hb
      refine .inr ⟨?_, after, by rw [hopening]⟩
      split at h
      · exact Lexed.noConfusion h
      · rename_i c inner
        split at h
        · exact enclosed_of_readDeclaration h
        · split at h
          · simp only [readEnd, Lexed.piece.injEq] at h
            rw [← h.1]
            trivial
          · split at h
            · exact enclosed_of_readInstruction h
            · unfold readStart startOf at h
              split at h <;> split at h <;> simp only [Lexed.piece.injEq] at h <;>
                rw [← h.1] <;> trivial

end Lexeme

/-! ### Events -/

/-- Whether a token is a document type. -/
def Token.isDoctype : Token → Bool
  | .doctype _ => true
  | _ => false

/-- Bytes that do not begin with text. -/
def Lexeme.AtMarkup (bytes : Bytes) : Prop :=
  bytes = [] ∨ ∃ more, bytes = opening :: more

namespace Decoder

/-- A decoder whose next event is not text. -/
def BeforeMarkup (d : Decoder) : Prop :=
  d.due ≠ none ∨ Lexeme.AtMarkup d.rest

/-- What `decodeLossy` gives holds a run that `IsAscii` only if its bytes do. -/
theorem not_mem_decodeLossy {raw : Bytes} {run : List Char} (hrun : Utf8.IsAscii run)
    (h : ¬(run.map fun c => UInt8.ofNat c.toNat) <:+: raw) : ¬run <:+: (decodeLossy raw).toList :=
  fun hinfix => h (infix_of_decodeLossy hrun hinfix)

/-- What an event says about its content and about what comes next. -/
structure Settled (d : Decoder) (e : Event) (next : Decoder) : Prop where
  /-- The content keeps within the markup around it. -/
  enclosed : e.token.isDoctype = false → e.token.Enclosed
  /-- After text comes something else. -/
  after : e.token.isText = true → next.BeforeMarkup
  /-- Before markup there is no text. -/
  before : d.BeforeMarkup → e.token.isText = false

/-- Markup that is read as an event leaves a decoder that is `Settled`. -/
theorem settled_of_markup {d next : Decoder} {lexeme : Lexeme} {taken : Nat} {rest : Bytes}
    {e : Event} (hlexeme : lexeme.EnclosedMarkup)
    (h : d.piece .strict lexeme taken rest = .event e next) : d.Settled e next := by
  cases lexeme with
  | text raw => exact absurd hlexeme id
  | cdata raw =>
      obtain ⟨rfl, rfl⟩ := Step.event.inj h
      refine ⟨fun _ => not_mem_decodeLossy (by decide) hlexeme, fun ht => ?_, fun _ => rfl⟩
      exact Bool.noConfusion ht
  | comment raw =>
      obtain ⟨rfl, rfl⟩ := Step.event.inj h
      refine ⟨fun _ => not_mem_decodeLossy (by decide) hlexeme, fun ht => ?_, fun _ => rfl⟩
      exact Bool.noConfusion ht
  | doctype raw =>
      obtain ⟨rfl, rfl⟩ := Step.event.inj h
      exact ⟨fun hno => Bool.noConfusion hno, fun ht => Bool.noConfusion ht, fun _ => rfl⟩
  | instruction raw =>
      obtain ⟨rfl, rfl⟩ := Step.event.inj h
      refine ⟨fun _ => ⟨fun hempty => hlexeme.1 (eq_nil_of_decodeLossy hempty), fun hmem => ?_⟩,
        fun ht => Bool.noConfusion ht, fun _ => rfl⟩
      have hinfix : ['>'] <:+: (decodeLossy raw).toList := (List.singleton_infix_iff _ _).2 hmem
      refine hlexeme.2 ((List.singleton_infix_iff _ _).1 ?_)
      exact infix_of_decodeLossy (by decide) hinfix
  | startTag raw closesItself =>
      simp only [piece] at h
      split at h
      · exact Step.noConfusion h
      · split at h
        · obtain ⟨rfl, rfl⟩ := Step.event.inj h
          exact ⟨fun _ => trivial, fun ht => Bool.noConfusion ht, fun _ => rfl⟩
        · obtain ⟨rfl, rfl⟩ := Step.event.inj h
          exact ⟨fun _ => trivial, fun ht => Bool.noConfusion ht, fun _ => rfl⟩
  | endTag raw =>
      simp only [piece] at h
      split at h
      · exact Step.noConfusion h
      · obtain ⟨rfl, rfl⟩ := Step.event.inj h
        exact ⟨fun _ => trivial, fun ht => Bool.noConfusion ht, fun _ => rfl⟩

/-- Every event of a strict reader is `Settled`, of whatever kind its piece is. -/
theorem settled_of_step {d next : Decoder} {e : Event} (h : d.step .strict = .event e next) :
    d.Settled e next := by
  unfold step at h
  split at h
  · obtain ⟨rfl, rfl⟩ := Step.event.inj h
    exact ⟨fun _ => trivial, fun ht => Bool.noConfusion ht, fun _ => rfl⟩
  · rename_i hdue
    split at h
    · unfold atEnd at h
      split at h <;> exact Step.noConfusion h
    · exact Step.noConfusion h
    · rename_i lexeme n rest hread
      rcases Lexeme.read_cases hread with ⟨b, more, hbytes, hb, rfl, rfl⟩ | ⟨hmarkup, -⟩
      · simp only [piece] at h
        split at h
        · rename_i text htext
          obtain ⟨rfl, rfl⟩ := Step.event.inj h
          refine ⟨fun _ => Reference.ne_empty_of_readText (List.cons_ne_nil _ _) htext,
            fun _ => .inr ?_, fun hbefore => ?_⟩
          · -- text goes on to the next `<` or the end
            show Lexeme.AtMarkup (more.dropWhile (· != Lexeme.opening))
            cases hdrop : more.dropWhile (· != Lexeme.opening) with
            | nil => exact .inl rfl
            | cons c rest =>
                have hc := List.head?_dropWhile_not (· != Lexeme.opening) more
                rw [hdrop] at hc
                simp only [List.head?_cons] at hc
                refine .inr ⟨rest, ?_⟩
                simpa using hc
          · rcases hbefore with hsome | hnil | ⟨after, hafter⟩
            · exact absurd hdue hsome
            · rw [hbytes] at hnil
              exact absurd hnil (List.cons_ne_nil _ _)
            · rw [hbytes] at hafter
              exact absurd (List.cons.inj hafter).1 hb
        · exact Step.noConfusion h
      · exact settled_of_markup hmarkup h

/-- The tokens that `run` gives, document types apart, are `Enclosed`, and no two texts of them
stand next to each other. -/
theorem run_tokens (d : Decoder) (seen : List Event) :
    ∃ events, (d.run .strict seen).1 = events.reverse ++ seen ∧
      (∀ e ∈ events, e.token.isDoctype = false → e.token.Enclosed) ∧
      TextsApart (events.map Event.token) ∧
      (d.BeforeMarkup → ∀ e rest, events = e :: rest → e.token.isText = false) := by
  fun_induction run .strict d seen with
  | case1 d seen hstep =>
      exact ⟨[], rfl, fun e he => absurd he List.not_mem_nil, .nil, fun _ e rest h =>
        absurd h.symm (List.cons_ne_nil _ _)⟩
  | case2 d seen e hstep =>
      exact ⟨[], rfl, fun e he => absurd he List.not_mem_nil, .nil, fun _ e rest h =>
        absurd h.symm (List.cons_ne_nil _ _)⟩
  | case3 d seen e next hstep ih =>
      obtain ⟨events, hrun, henclosed, hapart, hfirst⟩ := ih
      have hsettled := settled_of_step hstep
      refine ⟨e :: events, by rw [hrun]; simp, ?_, ?_, ?_⟩
      · exact List.forall_mem_cons.2 ⟨hsettled.enclosed, henclosed⟩
      · cases events with
        | nil => exact .singleton _
        | cons e' events =>
            refine List.isChain_cons_cons.2 ⟨fun htext => ?_, hapart⟩
            exact hfirst (hsettled.after htext) e' events rfl
      · intro hbefore e' rest heq
        rw [← (List.cons.inj heq).1]
        exact hsettled.before hbefore

end Decoder

/-- In a document that is read strictly all tokens but document types are `Enclosed`, and texts
stand apart. -/
theorem Document.ofDecoder_tokens (d : Decoder) :
    (∀ e ∈ (ofDecoder .strict d).events, e.token.isDoctype = false → e.token.Enclosed) ∧
      TextsApart ((ofDecoder .strict d).events.map Event.token) := by
  obtain ⟨events, hrun, henclosed, hapart, -⟩ := d.run_tokens []
  have hevents : (ofDecoder .strict d).events = events := by
    unfold ofDecoder
    simp only
    rw [hrun, List.append_nil, List.reverse_reverse]
  rw [hevents]
  exact ⟨henclosed, hapart⟩

end ResourceShards.Markup
