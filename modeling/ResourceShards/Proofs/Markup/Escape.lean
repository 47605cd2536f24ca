import ResourceShards.Markup.Encoder
import ResourceShards.Markup.Reference
import ResourceShards.Proofs.Text.Utf8

/-!
# ResourceShards.Proofs.Markup.Escape

**Reading undoes escaping.** A character is written as itself or as a reference that stands for it,
so what is read of an escaped text is the text, strictly as well as leniently. Escaped text has no
`<`, and an escaped value no quote either, so that both end where they should.
-/

namespace ResourceShards.Markup

/-! ### Ways of escaping -/

/-- A way of writing characters: as themselves or as references that stand for them. -/
def Escapes (write : Char → List Char) : Prop :=
  ∀ c, (write c = [c] ∧ c ≠ '&') ∨
    ∃ inside, write c = '&' :: (inside ++ [';']) ∧ inside.all Reference.isOrdinary = true ∧
      ∀ start stop, Reference.resolve start stop inside = .ok c

theorem escapes_escapeTextChar : Escapes escapeTextChar := by
  intro c
  unfold escapeTextChar
  split
  · exact .inr ⟨"amp".toList, rfl, by decide, fun _ _ => rfl⟩
  · exact .inr ⟨"lt".toList, rfl, by decide, fun _ _ => rfl⟩
  · exact .inr ⟨"gt".toList, rfl, by decide, fun _ _ => rfl⟩
  · rename_i hamp _ _
    exact .inl ⟨rfl, hamp⟩

theorem escapes_escapeValueChar : Escapes escapeValueChar := by
  intro c
  unfold escapeValueChar
  split
  · exact .inr ⟨"amp".toList, rfl, by decide, fun _ _ => rfl⟩
  · exact .inr ⟨"lt".toList, rfl, by decide, fun _ _ => rfl⟩
  · exact .inr ⟨"gt".toList, rfl, by decide, fun _ _ => rfl⟩
  · exact .inr ⟨"quot".toList, rfl, by decide, fun _ _ => rfl⟩
  · exact .inr ⟨"#x9".toList, rfl, by decide, fun _ _ => rfl⟩
  · exact .inr ⟨"#xA".toList, rfl, by decide, fun _ _ => rfl⟩
  · exact .inr ⟨"#xD".toList, rfl, by decide, fun _ _ => rfl⟩
  · rename_i hamp _ _ _ _ _ _
    exact .inl ⟨rfl, hamp⟩

namespace Reference

/-- The characters behind a `&` that belong to its reference. -/
theorem span_inside {inside : List Char} (hinside : inside.all isOrdinary = true)
    (rest : List Char) :
    (inside ++ ';' :: rest).takeWhile isOrdinary = inside ∧
      (inside ++ ';' :: rest).dropWhile isOrdinary = ';' :: rest := by
  rw [List.takeWhile_append_of_pos (List.all_eq_true.1 hinside),
    List.dropWhile_append_of_pos (List.all_eq_true.1 hinside)]
  simp [isOrdinary]

/-- At `&` the strict `unescapeFrom` resolves what is in front of the next `;`, or fails. -/
theorem unescapeFrom_amp {size place : Nat} {seen inside : List Char}
    (hinside : inside.all isOrdinary = true) (rest : List Char) :
    unescapeFrom size place seen ('&' :: (inside ++ ';' :: rest)) =
      match resolve place (place + 1 + utf8Length inside) inside with
      | .ok c => unescapeFrom size (place + 1 + utf8Length inside + 1) (c :: seen) rest
      | .error fault => .error fault := by
  obtain ⟨htake, hdrop⟩ := span_inside hinside rest
  rw [unescapeFrom]
  simp only [beq_self_eq_true, if_true, htake]
  split
  · rename_i after hafter
    obtain ⟨-, rfl⟩ := List.cons.inj (hdrop.symm.trans hafter)
    rfl
  · rename_i hnone
    exact absurd hdrop (hnone rest)

/-- `unescapeFrom` goes on behind a reference that is resolved. -/
theorem unescapeFrom_reference {size place : Nat} {seen inside rest : List Char} {c : Char}
    (hinside : inside.all isOrdinary = true)
    (hresolve : ∀ start stop, resolve start stop inside = .ok c) :
    unescapeFrom size place seen ('&' :: (inside ++ ';' :: rest)) =
      unescapeFrom size (place + 1 + utf8Length inside + 1) (c :: seen) rest := by
  rw [unescapeFrom_amp hinside, hresolve]

/-- `unescapeFrom` undoes any way of writing that `Escapes`. -/
theorem unescapeFrom_flatMap {write : Char → List Char} (hwrite : Escapes write)
    (size place : Nat) (seen chars : List Char) :
    unescapeFrom size place seen (chars.flatMap write) = .ok (seen.reverse ++ chars) := by
  induction chars generalizing place seen with
  | nil => simp [unescapeFrom]
  | cons c chars ih =>
      rw [List.flatMap_cons]
      rcases hwrite c with ⟨hself, hne⟩ | ⟨inside, href, hinside, hresolve⟩
      · rw [hself, List.cons_append, List.nil_append, unescapeFrom]
        simp [hne, ih]
      · rw [href, List.cons_append, List.append_assoc, List.singleton_append,
          unescapeFrom_reference hinside hresolve, ih]
        simp

/-- `readText` undoes any way of writing that `Escapes`. -/
theorem readText_escape {write : Char → List Char} (hwrite : Escapes write) (mode : Strictness)
    (s : String) :
    readText mode (Bytes.ofString (String.ofList (s.toList.flatMap write))) = .ok s := by
  have hstrict : readStrict (Bytes.ofString (String.ofList (s.toList.flatMap write))) = .ok s := by
    simp [readStrict, unescape, unescapeFrom_flatMap hwrite, Except.map]
  unfold readText
  rw [hstrict]

theorem readText_escapeText (mode : Strictness) (s : String) :
    readText mode (Bytes.ofString (escapeText s)) = .ok s :=
  readText_escape escapes_escapeTextChar mode s

theorem readText_escapeValue (mode : Strictness) (s : String) :
    readText mode (Bytes.ofString (escapeValue s)) = .ok s :=
  readText_escape escapes_escapeValueChar mode s

end Reference

/-! ### What escaping leaves out -/

theorem lt_not_mem_escapeText (s : String) : '<' ∉ (escapeText s).toList := by
  simp only [escapeText, String.toList_ofList, List.mem_flatMap, not_exists, not_and]
  intro c _ h
  unfold escapeTextChar at h
  split at h
  · exact absurd h (by decide)
  · exact absurd h (by decide)
  · exact absurd h (by decide)
  · rename_i hne _
    exact hne (List.mem_singleton.1 h).symm

theorem quote_not_mem_escapeValue (s : String) : '\x22' ∉ (escapeValue s).toList := by
  simp only [escapeValue, String.toList_ofList, List.mem_flatMap, not_exists, not_and]
  intro c _ h
  unfold escapeValueChar at h
  split at h
  case h_8 => exact absurd (List.mem_singleton.1 h).symm ‹¬ _ = '\x22'›
  all_goals exact absurd h (by decide)

/-- The characters that a value between double quotes does not write as themselves. -/
def isEscaped (c : Char) : Bool :=
  "&<>\"\t\n\r".toList.contains c

/-- `escapeValue` leaves a value as it is if no character of it `isEscaped`. -/
theorem escapeValue_eq_self {s : String} (h : ∀ c ∈ s.toList, isEscaped c = false) :
    escapeValue s = s := by
  have hself : ∀ c ∈ s.toList, escapeValueChar c = [c] := by
    intro c hc
    have := h c hc
    unfold escapeValueChar
    split <;> first | rfl | exact absurd this (by decide)
  have hflat : ∀ chars : List Char, (∀ c ∈ chars, escapeValueChar c = [c]) →
      chars.flatMap escapeValueChar = chars := by
    intro chars hchars
    induction chars with
    | nil => rfl
    | cons c chars ih =>
        rw [List.flatMap_cons, hchars c List.mem_cons_self,
          ih fun d hd => hchars d (List.mem_cons_of_mem c hd)]
        rfl
  rw [escapeValue, hflat s.toList hself, String.ofList_toList]

/-- `escapeText` makes no text empty. -/
theorem escapeText_ne_empty {s : String} (h : s ≠ "") : escapeText s ≠ "" := by
  intro he
  rw [escapeText, ← String.ofList_nil, String.ofList_inj, List.flatMap_eq_nil_iff] at he
  refine h (String.toList_eq_nil_iff.1 (List.eq_nil_iff_forall_not_mem.2 fun c hc => ?_))
  rcases escapes_escapeTextChar c with ⟨hself, -⟩ | ⟨inside, href, -, -⟩
  · rw [he c hc] at hself
    exact List.cons_ne_nil _ _ hself.symm
  · rw [he c hc] at href
    exact List.cons_ne_nil _ _ href.symm

end ResourceShards.Markup
