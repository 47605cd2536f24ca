import Mathlib.Data.List.TakeWhile
import ResourceShards.Proofs.Markup.Escape
import ResourceShards.Proofs.Markup.Strictness

/-!
# ResourceShards.Proofs.Markup.LenientText

**What lenient reading adds to strict reading.** Strict reading is lenient reading up to the first
text that it refuses. A text is refused if it can not be unescaped, for it holds a bad reference or
is no UTF-8; whatever else is wrong with a document is wrong for both. Lenient reading goes on with
such a text: every reference in it is read by itself, and what can not be resolved stays as it is
written.

* `Reference.StandsFor`: a reference that can be resolved by itself
* `Reference.ResolvedEach`: a text with each of them replaced, and nothing else
* `Reference.resolvedEach_iff`: that is what lenient reading gives
* `Document.lenient_extends_strict`: both streams of one document
-/

namespace ResourceShards.Markup

namespace Reference

/-! ### One reference -/

/-- Whether `resolve` finds a character for a reference does not depend on where it is. -/
theorem resolve_congr {start stop : Nat} {inside : List Char} {c : Char}
    (h : resolve start stop inside = .ok c) (start' stop' : Nat) :
    resolve start' stop' inside = .ok c := by
  have hcharacter {code : Nat} (h : character start stop code = .ok c) :
      character start' stop' code = .ok c := by
    unfold character at h ⊢
    by_cases hzero : code = 0
    · rw [if_pos hzero] at h
      cases h
    · rwa [if_neg hzero] at h ⊢
  unfold resolve at h ⊢
  split at h
  · rename_i digits
    cases hnumber : hexadecimal (digits.flatMap String.utf8EncodeChar) with
    | error fault =>
        rw [hnumber] at h
        cases h
    | ok code =>
        rw [hnumber] at h
        exact hcharacter h
  · rename_i digits _
    cases hnumber : decimal (digits.flatMap String.utf8EncodeChar) with
    | error fault =>
        rw [hnumber] at h
        cases h
    | ok code =>
        rw [hnumber] at h
        exact hcharacter h
  · cases hname : named.lookup (String.ofList inside) with
    | none =>
        rw [hname] at h
        cases h
    | some found =>
        rw [hname] at h
        exact h

/-- What stands behind a `&` ends a reference, or there is none. -/
theorem reference_or_not (rest : List Char) :
    (∃ inside after, inside.all isOrdinary = true ∧ rest = inside ++ ';' :: after) ∨
      ∀ after, rest.dropWhile isOrdinary ≠ ';' :: after := by
  by_cases h : ∃ after, rest.dropWhile isOrdinary = ';' :: after
  · obtain ⟨after, hafter⟩ := h
    refine .inl ⟨rest.takeWhile isOrdinary, after, ?_, ?_⟩
    · exact List.all_eq_true.2 fun _ => List.mem_takeWhile_imp
    · rw [← hafter, List.takeWhile_append_dropWhile]
  · exact .inr fun after hafter => h ⟨after, hafter⟩

/-- A `&` that begins no reference is refused. -/
theorem unescapeFrom_stray {size place : Nat} {seen rest : List Char}
    (h : ∀ after, rest.dropWhile isOrdinary ≠ ';' :: after) :
    unescapeFrom size place seen ('&' :: rest) = .error (.unterminated place size) := by
  rw [unescapeFrom]
  simp only [beq_self_eq_true, if_true]

/-- A reference that can be resolved by itself, and what it stands for. -/
def StandsFor (reference meaning : List Char) : Prop :=
  ∃ inside, reference = '&' :: (inside ++ [';']) ∧ inside.all isOrdinary = true ∧
    unescape (String.ofList reference) = .ok (String.ofList meaning)

theorem standsFor_iff {inside meaning : List Char} (hinside : inside.all isOrdinary = true) :
    StandsFor ('&' :: (inside ++ [';'])) meaning ↔
      ∃ c, resolve 0 0 inside = .ok c ∧ meaning = [c] := by
  have hunescape : unescape (String.ofList ('&' :: (inside ++ [';']))) =
      (resolve 0 (0 + 1 + utf8Length inside) inside).map fun c => String.ofList [c] := by
    rw [unescape, String.toList_ofList, unescapeFrom_amp hinside]
    cases resolve 0 (0 + 1 + utf8Length inside) inside with
    | ok c => simp [unescapeFrom, Except.map]
    | error fault => rfl
  constructor
  · intro h
    obtain ⟨-, -, -, hmeaning⟩ := h
    rw [hunescape] at hmeaning
    cases hresolve : resolve 0 (0 + 1 + utf8Length inside) inside with
    | error fault =>
        rw [hresolve] at hmeaning
        cases hmeaning
    | ok c =>
        rw [hresolve] at hmeaning
        refine ⟨c, resolve_congr hresolve 0 0, ?_⟩
        exact (String.ofList_inj.1 (Except.ok.inj hmeaning)).symm
  · intro h
    obtain ⟨c, hresolve, rfl⟩ := h
    refine ⟨inside, rfl, hinside, ?_⟩
    rw [hunescape, resolve_congr hresolve 0]
    rfl

/-- A text with each reference replaced that can be resolved by itself, and with everything else as
it is. -/
inductive ResolvedEach : List Char → List Char → Prop
  /-- Nothing is left. -/
  | nil : ResolvedEach [] []
  /-- A reference is replaced. -/
  | replaced {reference meaning rest out : List Char} (h : StandsFor reference meaning)
      (hrest : ResolvedEach rest out) : ResolvedEach (reference ++ rest) (meaning ++ out)
  /-- A character stays where no such reference begins. -/
  | kept {c : Char} {rest out : List Char}
      (h : ∀ reference meaning, StandsFor reference meaning → ¬reference <+: c :: rest)
      (hrest : ResolvedEach rest out) : ResolvedEach (c :: rest) (c :: out)

/-! ### Lenient reading, one step after the other -/

/-- `unescapeLenientFrom` in front of a reference: it is replaced if `resolve` finds a character,
else kept. -/
theorem unescapeLenientFrom_amp {inside : List Char} (hinside : inside.all isOrdinary = true)
    (seen rest : List Char) :
    unescapeLenientFrom seen ('&' :: (inside ++ ';' :: rest)) =
      match resolve 0 0 inside with
      | .ok c => unescapeLenientFrom (c :: seen) rest
      | .error _ => unescapeLenientFrom (';' :: inside.reverse ++ '&' :: seen) rest := by
  obtain ⟨htake, hdrop⟩ := span_inside hinside rest
  rw [unescapeLenientFrom]
  simp only [beq_self_eq_true, if_true, htake]
  split
  · rename_i after hafter
    obtain ⟨-, rfl⟩ := List.cons.inj (hdrop.symm.trans hafter)
    rfl
  · rename_i hnone
    exact absurd hdrop (hnone rest)

/-- A `&` that begins no reference is passed. -/
theorem unescapeLenientFrom_stray {rest : List Char}
    (h : ∀ after, rest.dropWhile isOrdinary ≠ ';' :: after) (seen : List Char) :
    unescapeLenientFrom seen ('&' :: rest) = unescapeLenientFrom ('&' :: seen) rest := by
  rw [unescapeLenientFrom]
  simp only [beq_self_eq_true, if_true]

/-- A character other than `&` is passed. -/
theorem unescapeLenientFrom_of_ne {c : Char} (h : c ≠ '&') (seen rest : List Char) :
    unescapeLenientFrom seen (c :: rest) = unescapeLenientFrom (c :: seen) rest := by
  rw [unescapeLenientFrom, if_neg (by simpa using h)]

/-- What `unescapeLenientFrom` has `seen` only stands in front. -/
theorem unescapeLenientFrom_seen (seen chars : List Char) :
    unescapeLenientFrom seen chars = seen.reverse ++ unescapeLenientFrom [] chars := by
  induction hsize : chars.length using Nat.strongRecOn generalizing seen chars with
  | ind size ih =>
      -- both sides pass the same characters, and what is left is shorter
      have hpass (passed : List Char) {rest : List Char} (hrest : rest.length < size) :
          unescapeLenientFrom (passed ++ seen) rest =
            seen.reverse ++ unescapeLenientFrom (passed ++ []) rest := by
        rw [ih _ hrest (passed ++ seen) rest rfl, ih _ hrest (passed ++ []) rest rfl]
        simp
      cases chars with
      | nil => simp [unescapeLenientFrom]
      | cons c rest =>
          have hrest : rest.length < size := by
            rw [← hsize]
            exact Nat.lt_succ_self _
          by_cases hc : c = '&'
          · obtain rfl := hc
            rcases reference_or_not rest with ⟨inside, after, hinside, rfl⟩ | hstray
            · have hafter : after.length < size := by
                simp only [List.length_append, List.length_cons] at hrest
                omega
              rw [unescapeLenientFrom_amp hinside, unescapeLenientFrom_amp hinside]
              cases resolve 0 0 inside with
              | ok c => exact hpass [c] hafter
              | error fault =>
                  have hwhole := hpass (';' :: inside.reverse ++ ['&']) hafter
                  simpa using hwhole
            · rw [unescapeLenientFrom_stray hstray, unescapeLenientFrom_stray hstray]
              exact hpass ['&'] hrest
          · rw [unescapeLenientFrom_of_ne hc, unescapeLenientFrom_of_ne hc]
            exact hpass [c] hrest

/-- `unescapeLenientFrom` keeps characters that neither open nor close a reference. -/
theorem unescapeLenientFrom_ordinary {inside : List Char} (hinside : inside.all isOrdinary = true)
    (rest : List Char) :
    unescapeLenientFrom [] (inside ++ rest) = inside ++ unescapeLenientFrom [] rest := by
  induction inside with
  | nil => rfl
  | cons c inside ih =>
      rw [List.all_cons, Bool.and_eq_true] at hinside
      obtain ⟨hc, hinside⟩ := hinside
      have hne : c ≠ '&' := by
        rintro rfl
        cases hc
      rw [List.cons_append, unescapeLenientFrom_of_ne hne, unescapeLenientFrom_seen, ih hinside]
      rfl

/-- `unescapeLenientFrom` replaces a reference that `StandsFor` something. -/
theorem unescapeLenientFrom_standsFor {reference meaning : List Char}
    (h : StandsFor reference meaning) (rest : List Char) :
    unescapeLenientFrom [] (reference ++ rest) = meaning ++ unescapeLenientFrom [] rest := by
  have hreference := h
  obtain ⟨inside, rfl, hinside, -⟩ := hreference
  obtain ⟨c, hresolve, rfl⟩ := (standsFor_iff hinside).1 h
  rw [List.cons_append, List.append_assoc, List.singleton_append,
    unescapeLenientFrom_amp hinside, hresolve]
  exact unescapeLenientFrom_seen [c] rest

/-- `unescapeLenientFrom` keeps a character where no reference begins that `StandsFor` something. -/
theorem unescapeLenientFrom_kept {c : Char} {rest : List Char}
    (h : ∀ reference meaning, StandsFor reference meaning → ¬reference <+: c :: rest) :
    unescapeLenientFrom [] (c :: rest) = c :: unescapeLenientFrom [] rest := by
  by_cases hc : c = '&'
  · obtain rfl := hc
    rcases reference_or_not rest with ⟨inside, after, hinside, rfl⟩ | hstray
    · -- the reference can not be resolved, so all of it is kept
      cases hresolve : resolve 0 0 inside with
      | ok found =>
          refine absurd ⟨after, ?_⟩ (h _ _ ((standsFor_iff hinside).2 ⟨found, hresolve, rfl⟩))
          simp
      | error fault =>
          rw [unescapeLenientFrom_amp hinside, hresolve, unescapeLenientFrom_ordinary hinside,
            unescapeLenientFrom_of_ne (by decide)]
          simp only
          rw [unescapeLenientFrom_seen, unescapeLenientFrom_seen [';']]
          simp
    · rw [unescapeLenientFrom_stray hstray]
      exact unescapeLenientFrom_seen ['&'] rest
  · rw [unescapeLenientFrom_of_ne hc]
    exact unescapeLenientFrom_seen [c] rest

/-- A text is `ResolvedEach` exactly if it is what `unescapeLenientFrom` gives. -/
theorem resolvedEach_iff {chars out : List Char} :
    ResolvedEach chars out ↔ out = unescapeLenientFrom [] chars := by
  constructor
  · intro h
    induction h with
    | nil => simp [unescapeLenientFrom]
    | replaced h _ ih => rw [unescapeLenientFrom_standsFor h, ih]
    | kept h _ ih => rw [unescapeLenientFrom_kept h, ih]
  · rintro rfl
    induction hsize : chars.length using Nat.strongRecOn generalizing chars with
    | ind size ih =>
        cases chars with
        | nil =>
            rw [unescapeLenientFrom]
            exact .nil
        | cons c rest =>
            by_cases h : ∃ reference meaning, StandsFor reference meaning ∧ reference <+: c :: rest
            · obtain ⟨reference, meaning, hstands, after, hafter⟩ := h
              have hshorter : after.length < size := by
                have hreference := hstands
                obtain ⟨inside, rfl, -, -⟩ := hreference
                rw [← hsize, ← hafter]
                simp only [List.cons_append, List.length_cons, List.length_append]
                omega
              rw [← hafter, unescapeLenientFrom_standsFor hstands]
              exact .replaced hstands (ih after.length hshorter rfl)
            · have hkept : ∀ reference meaning, StandsFor reference meaning →
                  ¬reference <+: c :: rest :=
                fun reference meaning hstands hprefix => h ⟨reference, meaning, hstands, hprefix⟩
              rw [unescapeLenientFrom_kept hkept]
              exact .kept hkept (ih rest.length (by rw [← hsize]; exact Nat.lt_succ_self _) rfl)

/-- Where `unescapeFrom` resolves all references of a text, `unescapeLenientFrom` gives the same. -/
theorem unescapeLenientFrom_of_ok {size place : Nat} {seen chars out : List Char}
    (h : unescapeFrom size place seen chars = .ok out) : unescapeLenientFrom seen chars = out := by
  induction hlength : chars.length using Nat.strongRecOn generalizing place seen chars with
  | ind length ih =>
      cases chars with
      | nil =>
          rw [unescapeFrom] at h
          rw [unescapeLenientFrom]
          exact Except.ok.inj h
      | cons c rest =>
          have hrest : rest.length < length := by
            rw [← hlength]
            exact Nat.lt_succ_self _
          by_cases hc : c = '&'
          · obtain rfl := hc
            rcases reference_or_not rest with ⟨inside, after, hinside, rfl⟩ | hstray
            · rw [unescapeFrom_amp hinside] at h
              cases hresolve : resolve place (place + 1 + utf8Length inside) inside with
              | error fault =>
                  rw [hresolve] at h
                  cases h
              | ok found =>
                  rw [hresolve] at h
                  rw [unescapeLenientFrom_amp hinside, resolve_congr hresolve 0 0]
                  have hafter : after.length < length := by
                    simp only [List.length_append, List.length_cons] at hrest
                    omega
                  exact ih after.length hafter h rfl
            · rw [unescapeFrom_stray hstray] at h
              cases h
          · rw [unescapeFrom, if_neg (by simpa using hc)] at h
            rw [unescapeLenientFrom_of_ne hc]
            exact ih rest.length hrest h rfl

theorem unescapeLenient_of_ok {text plain : String} (h : unescape text = .ok plain) :
    unescapeLenient text = plain := by
  unfold unescape at h
  cases hout : unescapeFrom text.utf8ByteSize 0 [] text.toList with
  | error fault =>
      rw [hout] at h
      cases h
  | ok out =>
      rw [hout] at h
      rw [unescapeLenient, unescapeLenientFrom_of_ok hout]
      exact Except.ok.inj h

end Reference

/-! ### Both streams of one document -/

/-- A fault that `Refuses` a text is one of unescaping. -/
theorem Fault.Refuses.isUnescaping {fault : Fault} (h : fault.Refuses) :
    fault.isUnescaping = true := by
  obtain ⟨raw, hraw⟩ := h
  unfold Reference.readStrict at hraw
  split at hraw
  · cases hraw
    rfl
  · split at hraw
    · cases hraw
      rfl
    · cases hraw

/-- **A strict stream is a prefix of the lenient one.** The events that the strict reader gives of a
document are the first ones that the lenient reader gives. If the strict one ends with no fault, or
with another one than those of `isUnescaping`, for a bad reference or a text that is no UTF-8 at
all, both give the same events and end alike. Of a text that `unescape` accepts `unescapeLenient`
makes the same; of every text it makes the one that is `ResolvedEach`: each reference replaced that
can be resolved by itself, and every other character as it is. -/
theorem Document.lenient_extends_strict :
    (∀ block? bytes,
      (ofDecoder .strict (.start block? bytes)).events <+:
        (ofDecoder .lenient (.start block? bytes)).events ∧
      ((∀ offset fault, (ofDecoder .strict (.start block? bytes)).fault? =
            some (.decode offset fault) → fault.isUnescaping = false) →
        ofDecoder .strict (.start block? bytes) = ofDecoder .lenient (.start block? bytes))) ∧
    ∀ text : String,
      (∀ plain, Reference.unescape text = .ok plain → Reference.unescapeLenient text = plain) ∧
      ∀ out : String, Reference.ResolvedEach text.toList out.toList ↔
        out = Reference.unescapeLenient text := by
  refine ⟨fun block? bytes => ?_,
    fun text => ⟨fun plain => Reference.unescapeLenient_of_ok, fun out => ?_⟩⟩
  · have hfront := strict_prefix (.start block? bytes)
    refine ⟨hfront, fun hend => ?_⟩
    rcases ofDecoder_strict (.start block? bytes) with hsame | ⟨offset, fault, hrefuses, hfault, -⟩
    · exact hsame
    · have hother := hend offset fault hfault
      rw [hrefuses.isUnescaping] at hother
      cases hother
  · rw [Reference.resolvedEach_iff, Reference.unescapeLenient, ← String.toList_inj,
      String.toList_ofList]

/-- A text with a reference that is known and one that is not: strict reading stops in front of it,
and lenient reading resolves the one and keeps the other. A wrong end tag stops both alike. -/
theorem Document.lenient_extends_strict_unknownName :
    let mixed := Bytes.ofString "<a>Tom &amp; &nbsp;Jerry</a>"
    let wrong := Bytes.ofString "<a>Tom &amp; Jerry</b>"
    ((ofDecoder .strict (.start none mixed)).events <+:
        (ofDecoder .lenient (.start none mixed)).events ∧
      (ofDecoder .strict (.start none mixed)).events.length = 1 ∧
      (ofDecoder .lenient (.start none mixed)).events.length = 3) ∧
    ((ofDecoder .strict (.start none wrong)).fault? = some (.decode 20 (.wrongEnd "a" "b")) ∧
      ofDecoder .strict (.start none wrong) = ofDecoder .lenient (.start none wrong)) ∧
    (Reference.unescape "Tom &amp; Jerry" = .ok "Tom & Jerry" ∧
      Reference.unescapeLenient "Tom &amp; Jerry" = "Tom & Jerry") ∧
    Reference.ResolvedEach "Tom &amp; &nbsp;Jerry".toList "Tom & &nbsp;Jerry".toList := by
  intro mixed wrong
  have hfault : (ofDecoder .strict (.start none wrong)).fault? =
      some (.decode 20 (.wrongEnd "a" "b")) := by
    decide +kernel
  have hplain : Reference.unescape "Tom &amp; Jerry" = .ok "Tom & Jerry" := by decide +kernel
  refine ⟨⟨(lenient_extends_strict.1 none mixed).1, by decide +kernel, by decide +kernel⟩,
    ⟨hfault, (lenient_extends_strict.1 none wrong).2 fun offset fault h => ?_⟩,
    ⟨hplain, (lenient_extends_strict.2 _).1 _ hplain⟩,
    ((lenient_extends_strict.2 _).2 _).2 (by decide +kernel)⟩
  rw [hfault] at h
  cases h
  rfl

end ResourceShards.Markup
