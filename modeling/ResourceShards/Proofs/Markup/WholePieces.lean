import Mathlib.Data.List.TakeWhile
import ResourceShards.Markup.Lexeme

/-!
# ResourceShards.Proofs.Markup.WholePieces

**Pieces that end among the bytes that are there.** A piece is read up to its own end and no
further: once the end is found, no byte behind it matters. Where there is none, text, tags and
processing instructions reach to the end of the bytes; nothing else is read there. A tag that does
so is none whose last byte is a `>`.

* `Lexeme.isWhole`: whether the first piece ends among the bytes
* `Lexeme.read_append`: it is read the same then, whatever follows
* `Lexeme.read_cut`: what may be read at all
* `Lexeme.Apart`: bytes that fall into such pieces
-/

namespace ResourceShards

/-! ### Ends that were found -/

namespace Bytes

/-- Whether `dropRun?` finds the run does not depend on bytes behind as many as the run has. -/
theorem dropRun?_append_of_le {run bytes : Bytes} (h : run.length ≤ bytes.length) (more : Bytes) :
    dropRun? run (bytes ++ more) = (dropRun? run bytes).map (· ++ more) := by
  induction run generalizing bytes with
  | nil => rfl
  | cons a run ih =>
      cases bytes with
      | nil => cases h
      | cons b bytes =>
          rw [List.cons_append, dropRun?, dropRun?]
          by_cases hab : (a == b) = true
          · rw [if_pos hab, if_pos hab]
            exact ih (Nat.le_of_succ_le_succ h)
          · rw [if_neg hab, if_neg hab]
            rfl

/-- Whether `dropRun?` finds the run does not depend on bytes behind one that is not in the run. -/
theorem dropRun?_append_of_getLast? {run bytes : Bytes} {b : UInt8}
    (hlast : bytes.getLast? = some b) (hb : b ∉ run) (more : Bytes) :
    dropRun? run (bytes ++ more) = (dropRun? run bytes).map (· ++ more) := by
  induction run generalizing bytes with
  | nil => rfl
  | cons a run ih =>
      cases bytes with
      | nil => cases hlast
      | cons c bytes =>
          rw [List.cons_append, dropRun?, dropRun?]
          by_cases hac : (a == c) = true
          · rw [if_pos hac, if_pos hac]
            cases bytes with
            | nil =>
                obtain rfl : c = b := Option.some.inj hlast
                exact absurd (beq_iff_eq.1 hac ▸ List.mem_cons_self) hb
            | cons d bytes =>
                rw [List.getLast?_cons_cons] at hlast
                exact ih hlast fun hmem => hb (List.mem_cons_of_mem a hmem)
          · rw [if_neg hac, if_neg hac]
            rfl

theorem length_le_of_cutRun {run seen bytes before after : Bytes}
    (h : cutRun run seen bytes = some (before, after)) : run.length ≤ bytes.length := by
  induction bytes generalizing seen with
  | nil =>
      unfold cutRun at h
      split at h
      · rename_i rest hrest
        rw [dropRun?_eq hrest]
        simp
      · cases h
  | cons b bytes ih =>
      unfold cutRun at h
      split at h
      · rename_i rest hrest
        rw [dropRun?_eq hrest]
        simp
      · exact Nat.le_succ_of_le (ih h)

theorem cutRun_append {run seen bytes before after : Bytes}
    (h : cutRun run seen bytes = some (before, after)) (more : Bytes) :
    cutRun run seen (bytes ++ more) = some (before, after ++ more) := by
  have hdrop := dropRun?_append_of_le (length_le_of_cutRun h) more
  induction bytes generalizing seen with
  | nil =>
      unfold cutRun at h ⊢
      rw [hdrop]
      cases hfound : dropRun? run [] with
      | none =>
          rw [hfound] at h
          cases h
      | some rest =>
          rw [hfound] at h
          cases h
          rfl
  | cons b bytes ih =>
      unfold cutRun at h ⊢
      rw [hdrop]
      cases hfound : dropRun? run (b :: bytes) with
      | none =>
          rw [hfound] at h
          exact ih h (dropRun?_append_of_le (length_le_of_cutRun h) more)
      | some rest =>
          rw [hfound] at h
          cases h
          rfl

theorem suffix_of_cutRun {run bytes before after : Bytes}
    (h : cutRun run [] bytes = some (before, after)) : after <:+ bytes :=
  ⟨before ++ run, (cutRun_eq h).symm⟩

end Bytes

namespace Markup

namespace Lexeme

theorem tagEnd_append {quote : Option UInt8} {seen bytes raw rest : Bytes}
    (h : tagEnd quote seen bytes = some (raw, rest)) (more : Bytes) :
    tagEnd quote seen (bytes ++ more) = some (raw, rest ++ more) := by
  induction bytes generalizing quote seen with
  | nil => cases h
  | cons b bytes ih =>
      rw [List.cons_append]
      unfold tagEnd at h ⊢
      cases quote with
      | some q => exact ih h
      | none =>
          by_cases hclosing : (b == closing) = true
          · simp only [hclosing, if_true] at h ⊢
            cases h
            rfl
          · simp only [hclosing] at h ⊢
            exact ih h

theorem suffix_of_tagEnd {quote : Option UInt8} {seen bytes raw rest : Bytes}
    (h : tagEnd quote seen bytes = some (raw, rest)) : rest <:+ bytes := by
  induction bytes generalizing quote seen with
  | nil => simp [tagEnd] at h
  | cons b bytes ih =>
      unfold tagEnd at h
      cases quote with
      | some q => exact (ih h).trans (List.suffix_cons b bytes)
      | none =>
          by_cases hclosing : (b == closing) = true
          · simp only [hclosing, if_true] at h
            cases h
            exact List.suffix_cons b _
          · simp only [hclosing] at h
            exact (ih h).trans (List.suffix_cons b bytes)

theorem doctypeEnd_append {arrival : Arrival} {depth : Nat} {seen bytes raw rest : Bytes}
    (h : doctypeEnd arrival depth seen bytes = some (raw, rest)) (more : Bytes) :
    doctypeEnd arrival depth seen (bytes ++ more) = some (raw, rest ++ more) := by
  induction bytes generalizing arrival depth seen with
  | nil => cases h
  | cons b bytes ih =>
      rw [List.cons_append]
      simp only [doctypeEnd] at h ⊢
      by_cases hclosing : (b == closing) = true
      · simp only [hclosing, if_true] at h ⊢
        split at h
        · cases h
          rfl
        · exact ih h
      · simp only [hclosing] at h ⊢
        exact ih h

theorem suffix_of_doctypeEnd {arrival : Arrival} {depth : Nat} {seen bytes raw rest : Bytes}
    (h : doctypeEnd arrival depth seen bytes = some (raw, rest)) : rest <:+ bytes := by
  induction bytes generalizing arrival depth seen with
  | nil => cases h
  | cons b bytes ih =>
      simp only [doctypeEnd] at h
      by_cases hclosing : (b == closing) = true
      · simp only [hclosing, if_true] at h
        split at h
        · cases h
          exact List.suffix_cons b _
        · exact (ih h).trans (List.suffix_cons b bytes)
      · simp only [hclosing] at h
        exact (ih h).trans (List.suffix_cons b bytes)

/-- The first byte equal to `stop` is at the same place whatever is put behind. -/
theorem span_append_of_mem {stop : UInt8} {bytes : Bytes} (h : stop ∈ bytes) (more : Bytes) :
    (bytes ++ more).takeWhile (· != stop) = bytes.takeWhile (· != stop) ∧
      (bytes ++ more).dropWhile (· != stop) = bytes.dropWhile (· != stop) ++ more ∧
      bytes.dropWhile (· != stop) ≠ [] := by
  induction bytes with
  | nil => cases h
  | cons b bytes ih =>
      by_cases hb : b = stop
      · obtain rfl := hb
        simp
      · have hmem : stop ∈ bytes := by
          rcases List.mem_cons.1 h with heq | hmem
          · exact absurd heq.symm hb
          · exact hmem
        simpa [hb] using ih hmem

theorem toClosing_append_of_mem {bytes : Bytes} (h : closing ∈ bytes) (more : Bytes) :
    toClosing (bytes ++ more) =
      ((toClosing bytes).1, (toClosing bytes).2.1, (toClosing bytes).2.2 ++ more) := by
  obtain ⟨htake, hdrop, hne⟩ := span_append_of_mem h more
  unfold toClosing
  rw [htake, hdrop]
  cases hrest : bytes.dropWhile (· != closing) with
  | nil => exact absurd hrest hne
  | cons b rest => rfl

theorem suffix_of_toClosing (bytes : Bytes) : (toClosing bytes).2.2 <:+ bytes := by
  have hdrop := List.dropWhile_suffix (· != closing) (l := bytes)
  unfold toClosing
  split
  · exact List.nil_suffix
  · rename_i b rest hrest
    rw [hrest] at hdrop
    exact (List.suffix_cons b rest).trans hdrop

/-! ### Pieces that end among the bytes -/

/-- Whether markup that begins with `<!` ends among the bytes; `bytes` are those after it. -/
def isWholeDeclaration (arrival : Arrival) (bytes : Bytes) : Bool :=
  match bytes with
  | [] => false
  | b :: _ =>
    if b == 0x5b then (Bytes.cutRun [0x5d, 0x5d, closing] [] bytes).isSome
    else if b == 0x2d then (Bytes.cutRun [0x2d, 0x2d, closing] [] (bytes.drop 2)).isSome
    else if lower b == 0x64 then (doctypeEnd arrival 0 [] bytes).isSome
    else true

/-- Whether the first piece of what is left of a document ends among the bytes that are there. -/
def isWhole (block? : Option Nat) (position : Nat) : Bytes → Bool
  | [] => false
  | b :: after =>
    if b != opening then after.contains opening
    else
      match after with
      | [] => false
      | c :: inner =>
        if c == 0x21 then isWholeDeclaration (.ofPosition block? (position + 2)) inner
        else if c == slash || c == question then inner.contains closing
        else (tagEnd none [] after).isSome

end Lexeme

/-- What is at the front of bytes, with more behind them. -/
def Lexed.followedBy (more : Bytes) : Lexed → Lexed
  | .piece lexeme n rest => .piece lexeme n (rest ++ more)
  | found => found

namespace Lexeme

theorem readCData_append {bytes : Bytes}
    (h : (Bytes.cutRun [0x5d, 0x5d, closing] [] bytes).isSome) (more : Bytes) :
    readCData (bytes ++ more) = (readCData bytes).followedBy more := by
  obtain ⟨⟨raw, rest⟩, hcut⟩ := Option.isSome_iff_exists.1 h
  unfold readCData
  rw [Bytes.cutRun_append hcut, hcut]
  simp only
  cases dropWord? "[CDATA[" raw <;> rfl

/-- Whether `dropWord?` finds the word does not depend on bytes behind as many as the word has. -/
theorem dropWord?_append_of_le {word : String} {bytes : Bytes}
    (h : (Bytes.ofString word).length ≤ bytes.length) (more : Bytes) :
    dropWord? word (bytes ++ more) = (dropWord? word bytes).map (· ++ more) := by
  have hle : (Bytes.ofString word).length ≤ (bytes ++ more).length := by
    rw [List.length_append]
    exact Nat.le_add_right_of_le h
  unfold dropWord?
  simp only [List.take_append_of_le_length h, List.drop_append_of_le_length h, decide_eq_true h,
    decide_eq_true hle, Bool.and_true]
  split <;> rfl

theorem readComment_append {bytes : Bytes}
    (h : (Bytes.cutRun [0x2d, 0x2d, closing] [] (bytes.drop 2)).isSome) (more : Bytes) :
    readComment (bytes ++ more) = (readComment bytes).followedBy more := by
  obtain ⟨⟨raw, rest⟩, hcut⟩ := Option.isSome_iff_exists.1 h
  have hlength : 2 ≤ bytes.length := by
    have hle := Bytes.length_le_of_cutRun hcut
    simp only [List.length_drop, List.length_cons, List.length_nil] at hle
    omega
  have hword : (dropWord? "--" (bytes ++ more)).isSome = (dropWord? "--" bytes).isSome := by
    have hdashes : (Bytes.ofString "--").length ≤ bytes.length := hlength
    rw [dropWord?_append_of_le hdashes, Option.isSome_map]
  unfold readComment
  rw [List.drop_append_of_le_length hlength, Bytes.cutRun_append hcut, hcut, hword]
  simp only
  split <;> rfl

theorem readDoctype_append {arrival : Arrival} {bytes : Bytes}
    (h : (doctypeEnd arrival 0 [] bytes).isSome) (more : Bytes) :
    readDoctype arrival (bytes ++ more) = (readDoctype arrival bytes).followedBy more := by
  obtain ⟨⟨raw, rest⟩, hend⟩ := Option.isSome_iff_exists.1 h
  unfold readDoctype
  rw [doctypeEnd_append hend, hend]
  simp only
  cases dropWord? "DOCTYPE" raw with
  | none => rfl
  | some content =>
      simp only
      split <;> rfl

theorem readDeclaration_append {arrival : Arrival} {bytes : Bytes}
    (h : isWholeDeclaration arrival bytes = true) (more : Bytes) :
    readDeclaration arrival (bytes ++ more) = (readDeclaration arrival bytes).followedBy more := by
  cases bytes with
  | nil => cases h
  | cons b after =>
      unfold isWholeDeclaration at h
      unfold readDeclaration
      simp only [List.cons_append] at h ⊢
      by_cases hcdata : (b == 0x5b) = true
      · rw [if_pos hcdata] at h ⊢
        rw [if_pos hcdata]
        exact readCData_append h more
      rw [if_neg hcdata] at h ⊢
      rw [if_neg hcdata]
      by_cases hcomment : (b == 0x2d) = true
      · rw [if_pos hcomment] at h ⊢
        rw [if_pos hcomment]
        exact readComment_append h more
      rw [if_neg hcomment] at h ⊢
      rw [if_neg hcomment]
      by_cases hdoctype : (lower b == 0x64) = true
      · rw [if_pos hdoctype] at h ⊢
        rw [if_pos hdoctype]
        exact readDoctype_append h more
      · rw [if_neg hdoctype, if_neg hdoctype]
        rfl

theorem readTextFrom_append {b : UInt8} {after : Bytes} (h : opening ∈ after) (more : Bytes) :
    readTextFrom b (after ++ more) = (readTextFrom b after).followedBy more := by
  obtain ⟨htake, hdrop, -⟩ := span_append_of_mem h more
  unfold readTextFrom
  rw [htake, hdrop]
  rfl

theorem readEnd_append {inner : Bytes} (h : closing ∈ inner) (more : Bytes) :
    readEnd (inner ++ more) = (readEnd inner).followedBy more := by
  unfold readEnd
  rw [toClosing_append_of_mem h]
  rfl

theorem readInstruction_append {inner : Bytes} (h : closing ∈ inner) (more : Bytes) :
    readInstruction (inner ++ more) = (readInstruction inner).followedBy more := by
  unfold readInstruction
  rw [toClosing_append_of_mem h]
  simp only
  split <;> rfl

theorem readStart_append {after : Bytes} (h : (tagEnd none [] after).isSome) (more : Bytes) :
    readStart (after ++ more) = (readStart after).followedBy more := by
  obtain ⟨⟨raw, rest⟩, hend⟩ := Option.isSome_iff_exists.1 h
  unfold readStart
  rw [tagEnd_append hend, hend]
  simp only [startOf]
  split <;> rfl

/-- If the first piece `isWhole`, `read` reads the same piece with more bytes behind it. -/
theorem read_append {block? : Option Nat} {position : Nat} {bytes : Bytes}
    (h : isWhole block? position bytes = true) (more : Bytes) :
    read block? position (bytes ++ more) = (read block? position bytes).followedBy more := by
  cases bytes with
  | nil => cases h
  | cons b after =>
      unfold isWhole at h
      unfold read
      rw [List.cons_append]
      simp only at h ⊢
      by_cases htext : (b != opening) = true
      · rw [if_pos htext] at h
        rw [if_pos htext, if_pos htext]
        exact readTextFrom_append (List.contains_iff_mem.1 h) more
      rw [if_neg htext] at h
      rw [if_neg htext, if_neg htext]
      cases after with
      | nil => cases h
      | cons c inner =>
          simp only [List.cons_append] at h ⊢
          by_cases hdeclaration : (c == 0x21) = true
          · rw [if_pos hdeclaration] at h
            rw [if_pos hdeclaration, if_pos hdeclaration]
            exact readDeclaration_append h more
          rw [if_neg hdeclaration] at h
          rw [if_neg hdeclaration, if_neg hdeclaration]
          by_cases hend : (c == slash) = true
          · rw [if_pos (by rw [hend]; rfl)] at h
            rw [if_pos hend, if_pos hend]
            exact readEnd_append (List.contains_iff_mem.1 h) more
          rw [if_neg hend, if_neg hend]
          by_cases hinstruction : (c == question) = true
          · rw [if_pos (by rw [hinstruction, Bool.or_true])] at h
            rw [if_pos hinstruction, if_pos hinstruction]
            exact readInstruction_append (List.contains_iff_mem.1 h) more
          · rw [if_neg (by simp [hend, hinstruction])] at h
            rw [if_neg hinstruction, if_neg hinstruction]
            exact readStart_append h more

/-! ### What is read at the end of the bytes -/

/-- Whether a piece closes an element. -/
def closes : Lexeme → Bool
  | .startTag _ closesItself => closesItself
  | .endTag _ => true
  | _ => false

/-- How a piece was cut from the front of bytes. -/
inductive Cut (block? : Option Nat) (position : Nat) (bytes : Bytes) (lexeme : Lexeme)
    (rest : Bytes) : Prop
  /-- At its own end. -/
  | whole (hwhole : isWhole block? position bytes = true) (hsuffix : rest <:+ bytes)
      (htext : ∀ raw, lexeme = .text raw → rest ≠ [])
  /-- At the end of the bytes. Their last byte would have ended a tag. -/
  | short (hshort : isWhole block? position bytes = false) (hrest : rest = [])
      (hlast : bytes.getLast? = some closing → lexeme.closes = false)

theorem readDeclaration_cases (arrival : Arrival) (bytes : Bytes) :
    (∃ n fault, readDeclaration arrival bytes = .bad n fault) ∨
      ∃ lexeme n rest, readDeclaration arrival bytes = .piece lexeme n rest ∧
        isWholeDeclaration arrival bytes = true ∧ rest <:+ bytes ∧ ∀ raw, lexeme ≠ .text raw := by
  cases bytes with
  | nil => exact .inl ⟨_, _, rfl⟩
  | cons b after =>
      unfold readDeclaration isWholeDeclaration
      simp only
      by_cases hcdata : (b == 0x5b) = true
      · rw [if_pos hcdata, if_pos hcdata]
        unfold readCData
        cases hcut : Bytes.cutRun [0x5d, 0x5d, closing] [] (b :: after) with
        | none => exact .inl ⟨_, _, rfl⟩
        | some found =>
            obtain ⟨raw, rest⟩ := found
            simp only
            cases dropWord? "[CDATA[" raw with
            | none => exact .inl ⟨_, _, rfl⟩
            | some content =>
                exact .inr ⟨_, _, _, rfl, rfl, Bytes.suffix_of_cutRun hcut, fun _ => nofun⟩
      rw [if_neg hcdata, if_neg hcdata]
      by_cases hcomment : (b == 0x2d) = true
      · rw [if_pos hcomment, if_pos hcomment]
        unfold readComment
        cases hcut : Bytes.cutRun [0x2d, 0x2d, closing] [] ((b :: after).drop 2) with
        | none => exact .inl ⟨_, _, rfl⟩
        | some found =>
            obtain ⟨raw, rest⟩ := found
            simp only
            by_cases hword : (dropWord? "--" (b :: after)).isSome = true
            · rw [if_pos hword]
              have hsuffix := (Bytes.suffix_of_cutRun hcut).trans (List.drop_suffix 2 _)
              exact .inr ⟨_, _, _, rfl, rfl, hsuffix, fun _ => nofun⟩
            · rw [if_neg hword]
              exact .inl ⟨_, _, rfl⟩
      rw [if_neg hcomment, if_neg hcomment]
      by_cases hdoctype : (lower b == 0x64) = true
      · rw [if_pos hdoctype, if_pos hdoctype]
        unfold readDoctype
        cases hend : doctypeEnd arrival 0 [] (b :: after) with
        | none => exact .inl ⟨_, _, rfl⟩
        | some found =>
            obtain ⟨raw, rest⟩ := found
            simp only
            cases dropWord? "DOCTYPE" raw with
            | none => exact .inl ⟨_, _, rfl⟩
            | some content =>
                simp only
                cases content.dropWhile Bytes.isBlank with
                | nil => exact .inl ⟨_, _, rfl⟩
                | cons c content =>
                    exact .inr ⟨_, _, _, rfl, rfl, suffix_of_doctypeEnd hend, fun _ => nofun⟩
      · rw [if_neg hdoctype, if_neg hdoctype]
        exact .inl ⟨_, _, rfl⟩

theorem rest_toClosing_of_not_mem {bytes : Bytes} (h : closing ∉ bytes) :
    (toClosing bytes).2.2 = [] := by
  have hpass : ∀ b ∈ bytes, (b != closing) = true := by
    intro b hb
    rw [bne_iff_ne]
    exact fun heq => h (heq ▸ hb)
  unfold toClosing
  rw [List.dropWhile_eq_nil_iff.2 hpass]

/-- Behind a byte that is no `>`, the last byte is among those that follow. -/
theorem getLast?_of_cons {b : UInt8} {after : Bytes} (h : (b :: after).getLast? = some closing)
    (hb : b ≠ closing) : after.getLast? = some closing := by
  cases after with
  | nil => exact absurd (Option.some.inj h) hb
  | cons c after => rwa [List.getLast?_cons_cons] at h

theorem getLast?_of_suffix {b : UInt8} {rest bytes : Bytes} (hsuffix : rest <:+ bytes)
    (h : bytes.getLast? = some b) : rest = [] ∨ rest.getLast? = some b := by
  obtain ⟨front, rfl⟩ := hsuffix
  rw [List.getLast?_append] at h
  cases hlast : rest.getLast? with
  | none => exact .inl (List.getLast?_eq_none_iff.1 hlast)
  | some c =>
      rw [hlast] at h
      exact .inr h

section

variable {block? : Option Nat} {position : Nat} {b : UInt8} {after inner : Bytes}

theorem cut_text (hb : (b != opening) = true) : Cut block? position (b :: after)
    (.text (b :: after.takeWhile (· != opening))) (after.dropWhile (· != opening)) := by
  by_cases hmem : opening ∈ after
  · obtain ⟨-, -, hne⟩ := span_append_of_mem hmem []
    refine .whole ?_ ?_ fun _ _ => hne
    · simp only [isWhole]
      rw [if_pos hb]
      exact List.contains_iff_mem.2 hmem
    · exact (List.dropWhile_suffix _).trans (List.suffix_cons b after)
  · have hpass : ∀ c ∈ after, (c != opening) = true := by
      intro c hc
      rw [bne_iff_ne]
      exact fun heq => hmem (heq ▸ hc)
    refine .short ?_ (List.dropWhile_eq_nil_iff.2 hpass) fun _ => rfl
    simp only [isWhole]
    rw [if_pos hb, Bool.eq_false_iff]
    exact fun hcontains => hmem (List.contains_iff_mem.1 hcontains)

theorem cut_endTag : Cut block? position (opening :: slash :: inner)
    (.endTag (toClosing inner).1) (toClosing inner).2.2 := by
  by_cases hmem : closing ∈ inner
  · refine .whole (List.contains_iff_mem.2 hmem) ?_ fun _ => nofun
    exact (suffix_of_toClosing inner).trans (List.suffix_append [opening, slash] inner)
  · have hshort : inner.contains closing = false :=
      Bool.eq_false_iff.2 fun hcontains => hmem (List.contains_iff_mem.1 hcontains)
    refine .short hshort (rest_toClosing_of_not_mem hmem) fun hlast => absurd ?_ hmem
    exact List.mem_of_getLast? (getLast?_of_cons (getLast?_of_cons hlast (by decide)) (by decide))

theorem cut_instruction (raw : Bytes) : Cut block? position (opening :: question :: inner)
    (.instruction raw) (toClosing inner).2.2 := by
  by_cases hmem : closing ∈ inner
  · refine .whole (List.contains_iff_mem.2 hmem) ?_ fun _ => nofun
    exact (suffix_of_toClosing inner).trans (List.suffix_append [opening, question] inner)
  · have hshort : inner.contains closing = false :=
      Bool.eq_false_iff.2 fun hcontains => hmem (List.contains_iff_mem.1 hcontains)
    exact .short hshort (rest_toClosing_of_not_mem hmem) fun _ => rfl

theorem cut_declaration {lexeme : Lexeme} {rest : Bytes}
    (hwhole : isWholeDeclaration (.ofPosition block? (position + 2)) inner = true)
    (hsuffix : rest <:+ inner) (htext : ∀ raw, lexeme ≠ .text raw) :
    Cut block? position (opening :: 0x21 :: inner) lexeme rest :=
  .whole hwhole (hsuffix.trans (List.suffix_append [opening, 0x21] inner))
    fun raw heq => absurd heq (htext raw)

/-- `readStart` reads a piece, and what it was cut off at is known. -/
theorem readStart_cases {c : UInt8} (hdeclaration : ¬(c == 0x21) = true)
    (hend : ¬(c == slash) = true) (hinstruction : ¬(c == question) = true) :
    ∃ lexeme n rest, readStart (c :: inner) = .piece lexeme n rest ∧
      Cut block? position (opening :: c :: inner) lexeme rest := by
  have hpiece (raw : Bytes) (taken : Nat) (rest : Bytes) : ∃ content closesItself,
      startOf raw taken rest = .piece (.startTag content closesItself) taken rest ∧
        (closesItself = true → raw.getLast? = some slash) := by
    unfold startOf
    by_cases hslash : (raw.getLast? == some slash) = true
    · rw [if_pos hslash]
      exact ⟨_, _, rfl, fun _ => beq_iff_eq.1 hslash⟩
    · rw [if_neg hslash]
      exact ⟨_, _, rfl, nofun⟩
  have hwhole : isWhole block? position (opening :: c :: inner) =
      (tagEnd none [] (c :: inner)).isSome := by
    have hother : ¬(c == slash || c == question) = true := by simp [hend, hinstruction]
    simp only [isWhole]
    rw [if_neg (by decide), if_neg hdeclaration, if_neg hother]
  unfold readStart
  cases htag : tagEnd none [] (c :: inner) with
  | some found =>
      obtain ⟨raw, rest⟩ := found
      obtain ⟨content, closesItself, hstart, -⟩ := hpiece raw (raw.length + 2) rest
      refine ⟨_, _, _, hstart, .whole ?_ ?_ fun _ => nofun⟩
      · rw [hwhole, htag]
        rfl
      · exact (suffix_of_tagEnd htag).trans (List.suffix_cons opening _)
  | none =>
      obtain ⟨content, closesItself, hstart, hslash⟩ := hpiece (c :: inner) 1 []
      refine ⟨_, _, _, hstart, .short ?_ rfl fun hlast => Bool.eq_false_iff.2 fun hcloses => ?_⟩
      · rw [hwhole, htag]
        rfl
      -- the last byte can not be a `/` and a `>`
      have hboth := (hslash hcloses).symm.trans (getLast?_of_cons hlast (by decide))
      exact absurd hboth (by decide)

/-- `read` finds nothing, something bad, or a piece of which it is known where it was `Cut`. -/
theorem read_cut (block? : Option Nat) (position : Nat) (bytes : Bytes) :
    ((bytes = [] ∨ bytes = [opening]) ∧ ∃ n, read block? position bytes = .nothing n) ∨
      (∃ n fault, read block? position bytes = .bad n fault) ∨
      ∃ lexeme n rest, read block? position bytes = .piece lexeme n rest ∧
        Cut block? position bytes lexeme rest := by
  cases bytes with
  | nil => exact .inl ⟨.inl rfl, _, rfl⟩
  | cons b after =>
      unfold read
      simp only
      by_cases hb : (b != opening) = true
      · rw [if_pos hb]
        exact .inr (.inr ⟨_, _, _, rfl, cut_text hb⟩)
      rw [if_neg hb]
      obtain rfl : b = opening := by simpa using hb
      cases after with
      | nil => exact .inl ⟨.inr rfl, _, rfl⟩
      | cons c inner =>
          simp only
          by_cases hdeclaration : (c == 0x21) = true
          · obtain rfl := beq_iff_eq.1 hdeclaration
            rw [if_pos hdeclaration]
            rcases readDeclaration_cases (.ofPosition block? (position + 2)) inner with
              hbad | ⟨lexeme, n, rest, hpiece, hwhole, hsuffix, htext⟩
            · exact .inr (.inl hbad)
            · exact .inr (.inr ⟨lexeme, n, rest, hpiece, cut_declaration hwhole hsuffix htext⟩)
          rw [if_neg hdeclaration]
          by_cases hend : (c == slash) = true
          · obtain rfl := beq_iff_eq.1 hend
            rw [if_pos hend]
            exact .inr (.inr ⟨_, _, _, rfl, cut_endTag⟩)
          rw [if_neg hend]
          by_cases hinstruction : (c == question) = true
          · obtain rfl := beq_iff_eq.1 hinstruction
            rw [if_pos hinstruction]
            simp only [readInstruction]
            split
            · exact .inr (.inr ⟨_, _, _, rfl, cut_instruction _⟩)
            · exact .inr (.inl ⟨_, _, rfl⟩)
          · rw [if_neg hinstruction]
            exact .inr (.inr (readStart_cases hdeclaration hend hinstruction))

end

end Lexeme

/-! ### One piece after the other -/

/-- Bytes that fall into pieces that end among them, up to one that can not be read. -/
inductive Lexeme.Apart (block? : Option Nat) : Nat → Bytes → Prop
  /-- No piece is left. -/
  | nothing {position : Nat} {bytes : Bytes} (hnil : bytes = []) : Apart block? position bytes
  /-- A piece can not be read. -/
  | bad {position n : Nat} {bytes : Bytes} {fault : Fault}
      (hwhole : isWhole block? position bytes = true)
      (hread : read block? position bytes = .bad n fault) : Apart block? position bytes
  /-- One piece after the other. -/
  | piece {position n : Nat} {bytes rest : Bytes} {lexeme : Lexeme}
      (hwhole : isWhole block? position bytes = true)
      (hread : read block? position bytes = .piece lexeme n rest)
      (hrest : Apart block? (position + n) rest) : Apart block? position bytes

end Markup

end ResourceShards
