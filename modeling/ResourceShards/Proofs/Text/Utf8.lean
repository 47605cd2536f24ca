import Mathlib.Tactic.Ring
import Mathlib.Tactic.SplitIfs
import ResourceShards.Text.Utf8

/-!
# ResourceShards.Proofs.Text.Utf8

**Text survives its encoding.** Decoding the bytes of a text gives the text back, strictly and
leniently, and texts are ordered as their bytes are (`Utf8.ofString_lt`). Readers of markup look for
single bytes below 0x80, so the second half of the module says where those come from: among the
bytes of a text each is a character of its own (`Utf8.encode_split`), and a run of such characters
in what was read, broken bytes or not, is there in the bytes (`Utf8.infix_of_decodeLossy`).
-/

namespace ResourceShards.Utf8

/-! ### One character -/

/-- The continuation byte that holds the last six bits of a number. -/
def tailByte (n : Nat) : UInt8 :=
  UInt8.ofNat (n % 0x40 + 0x80)

theorem toNat_ofNat_of_lt {n : Nat} (h : n < 256) : (UInt8.ofNat n).toNat = n := by
  rw [UInt8.toNat_ofNat']
  exact Nat.mod_eq_of_lt h

theorem toNat_tailByte (n : Nat) : (tailByte n).toNat = n % 0x40 + 0x80 :=
  toNat_ofNat_of_lt (by omega)

theorem not_lt_of_toNat {b : UInt8} (h : 0x80 ≤ b.toNat) : ¬ b < 0x80 := by
  rw [UInt8.lt_iff_toNat_lt]
  exact Nat.not_lt.2 h

theorem tails_tailByte (bits taken more n : Nat) (rest : Bytes) :
    tails bits taken (more + 1) (tailByte n :: rest) =
      tails (bits * 64 + n % 0x40) (taken + 1) more rest := by
  have htail : isTail (tailByte n) = true := by
    simp only [isTail, Bool.and_eq_true, decide_eq_true_eq, UInt8.le_iff_toNat_le, toNat_tailByte]
    exact ⟨Nat.le_add_left _ _, by show _ ≤ 0xbf; omega⟩
  rw [tails, if_pos htail, toNat_tailByte, Nat.add_sub_cancel]

theorem first_lead {b : UInt8} {lead : Lead} (hb : 0x80 ≤ b.toNat) (hlead : Lead.of? b = some lead)
    {more n : Nat} (hmore : lead.more = more + 1) (hlow : lead.low.toNat ≤ n % 0x40 + 0x80)
    (hhigh : n % 0x40 + 0x80 ≤ lead.high.toNat) (rest : Bytes) :
    first (b :: tailByte n :: rest) = tails (lead.bits * 64 + n % 0x40) 2 more rest := by
  rw [first, if_neg (not_lt_of_toNat hb)]
  simp only [hlead, hmore, Nat.add_sub_cancel]
  rw [if_pos, toNat_tailByte, Nat.add_sub_cancel]
  simp only [Bool.and_eq_true, decide_eq_true_eq, UInt8.le_iff_toNat_le, toNat_tailByte]
  exact ⟨hlow, hhigh⟩

theorem lead_two {b : UInt8} (hlow : 0xc2 ≤ b.toNat) (hhigh : b.toNat ≤ 0xdf) :
    Lead.of? b = some { more := 1, bits := b.toNat - 0xc0 } := by
  rw [Lead.of?, if_pos]
  simp only [Bool.and_eq_true, decide_eq_true_eq, UInt8.le_iff_toNat_le]
  exact ⟨hlow, hhigh⟩

theorem lead_three {b : UInt8} (hlow : 0xe0 ≤ b.toNat) (hhigh : b.toNat ≤ 0xef) :
    Lead.of? b = some {
      more := 2
      bits := b.toNat - 0xe0
      low := if b.toNat = 0xe0 then 0xa0 else 0x80
      high := if b.toNat = 0xed then 0x9f else 0xbf } := by
  simp only [Lead.of?, UInt8.le_iff_toNat_le, ← UInt8.toNat_inj, beq_iff_eq, Bool.and_eq_true,
    decide_eq_true_eq, UInt8.reduceToNat]
  by_cases h0 : b.toNat = 0xe0
  · simp [h0]
  · by_cases hd : b.toNat = 0xed
    · simp [hd]
    · rw [if_neg (by omega), if_neg h0, if_neg hd, if_pos (by omega), if_neg h0, if_neg hd]

theorem lead_four {b : UInt8} (hlow : 0xf0 ≤ b.toNat) (hhigh : b.toNat ≤ 0xf4) :
    Lead.of? b = some {
      more := 3
      bits := b.toNat - 0xf0
      low := if b.toNat = 0xf0 then 0x90 else 0x80
      high := if b.toNat = 0xf4 then 0x8f else 0xbf } := by
  simp only [Lead.of?, UInt8.le_iff_toNat_le, ← UInt8.toNat_inj, beq_iff_eq, Bool.and_eq_true,
    decide_eq_true_eq, UInt8.reduceToNat]
  by_cases h0 : b.toNat = 0xf0
  · simp [h0]
  · by_cases hd : b.toNat = 0xf4
    · simp [hd]
    · rw [if_neg (by omega), if_neg (by omega), if_neg (by omega), if_neg (by omega), if_neg h0,
        if_neg hd, if_pos (by omega), if_neg h0, if_neg hd]

/-- `first` finds the character that `utf8EncodeChar` put in front. -/
theorem first_utf8EncodeChar (c : Char) (rest : Bytes) :
    first (String.utf8EncodeChar c ++ rest) = .char c rest := by
  have hvalid : c.toNat < 0xd800 ∨ 0xdfff < c.toNat ∧ c.toNat < 0x110000 := c.valid
  have hval : c.val.toNat = c.toNat := rfl
  unfold String.utf8EncodeChar
  simp only [hval]
  split
  · -- one byte
    rename_i h1
    have hb : (UInt8.ofNat c.toNat).toNat = c.toNat := toNat_ofNat_of_lt (by omega)
    have hlt : UInt8.ofNat c.toNat < 0x80 := by
      rw [UInt8.lt_iff_toNat_lt, hb]
      exact Nat.lt_succ_of_le h1
    rw [List.cons_append, first, if_pos hlt, hb, Char.ofNat_toNat, List.nil_append]
  · split
    · -- two bytes
      rename_i h1 h2
      have hb := toNat_ofNat_of_lt (n := c.toNat / 64 % 0x20 + 0xc0) (by omega)
      have hlead := lead_two (b := UInt8.ofNat (c.toNat / 64 % 0x20 + 0xc0)) (by omega) (by omega)
      show first (_ :: tailByte c.toNat :: rest) = _
      rw [first_lead (by omega) hlead rfl (by show 0x80 ≤ _; omega) (by show _ ≤ 0xbf; omega), hb]
      show First.char (Char.ofNat _) rest = _
      rw [show (c.toNat / 64 % 0x20 + 0xc0 - 0xc0) * 64 + c.toNat % 0x40 = c.toNat by omega,
        Char.ofNat_toNat]
    · split
      · -- three bytes
        rename_i h1 h2 h3
        have hb := toNat_ofNat_of_lt (n := c.toNat / 4096 % 0x10 + 0xe0) (by omega)
        have hlead := lead_three (b := UInt8.ofNat (c.toNat / 4096 % 0x10 + 0xe0))
          (by omega) (by omega)
        show first (_ :: tailByte (c.toNat / 64) :: tailByte c.toNat :: rest) = _
        rw [first_lead (by omega) hlead rfl (by dsimp only; split <;> simp; omega)
          (by dsimp only; split <;> (simp; omega)), tails_tailByte, hb]
        show First.char (Char.ofNat _) rest = _
        rw [show ((c.toNat / 4096 % 0x10 + 0xe0 - 0xe0) * 64 + c.toNat / 64 % 0x40) * 64 +
            c.toNat % 0x40 = c.toNat by omega, Char.ofNat_toNat]
      · -- four bytes
        rename_i h1 h2 h3
        have hb := toNat_ofNat_of_lt (n := c.toNat / 262144 % 0x08 + 0xf0) (by omega)
        have hlead := lead_four (b := UInt8.ofNat (c.toNat / 262144 % 0x08 + 0xf0))
          (by omega) (by omega)
        show first (_ :: tailByte (c.toNat / 4096) :: tailByte (c.toNat / 64) ::
          tailByte c.toNat :: rest) = _
        rw [first_lead (by omega) hlead rfl (by dsimp only; split <;> simp; omega)
          (by dsimp only; split <;> (simp; omega)), tails_tailByte, tails_tailByte, hb]
        show First.char (Char.ofNat _) rest = _
        rw [show (((c.toNat / 262144 % 0x08 + 0xf0 - 0xf0) * 64 + c.toNat / 4096 % 0x40) * 64 +
            c.toNat / 64 % 0x40) * 64 + c.toNat % 0x40 = c.toNat by omega, Char.ofNat_toNat]

/-- `utf8EncodeChar` gives one byte below 0x80, or bytes from there on only. -/
theorem utf8EncodeChar_cases (c : Char) :
    (c.toNat < 0x80 ∧ String.utf8EncodeChar c = [UInt8.ofNat c.toNat]) ∨
      (0x80 ≤ c.toNat ∧ ∀ b ∈ String.utf8EncodeChar c, 0x80 ≤ b.toNat) := by
  have hvalid : c.toNat < 0xd800 ∨ 0xdfff < c.toNat ∧ c.toNat < 0x110000 := c.valid
  by_cases h : c.toNat < 0x80
  · left
    have hle : c.val.toNat ≤ 0x7f := Nat.le_of_lt_succ h
    exact ⟨h, by rw [String.utf8EncodeChar, if_pos hle]; rfl⟩
  · right
    refine ⟨by omega, ?_⟩
    intro b hb
    unfold String.utf8EncodeChar at hb
    have hval : c.val.toNat = c.toNat := rfl
    simp only [hval] at hb
    rw [if_neg (by omega)] at hb
    split at hb
    · rcases hb with _ | ⟨_, _ | ⟨_, _ | _⟩⟩ <;> rw [toNat_ofNat_of_lt (by omega)] <;> omega
    · split at hb
      · rcases hb with _ | ⟨_, _ | ⟨_, _ | ⟨_, _ | _⟩⟩⟩ <;>
          rw [toNat_ofNat_of_lt (by omega)] <;> omega
      · rcases hb with _ | ⟨_, _ | ⟨_, _ | ⟨_, _ | ⟨_, _ | _⟩⟩⟩⟩ <;>
          rw [toNat_ofNat_of_lt (by omega)] <;> omega

theorem utf8EncodeChar_of_lt {c : Char} (h : c.toNat < 0x80) :
    String.utf8EncodeChar c = [UInt8.ofNat c.toNat] := by
  rcases utf8EncodeChar_cases c with ⟨-, henc⟩ | ⟨hhigh, -⟩
  · exact henc
  · omega

/-! ### Whole texts -/

/-- The bytes of characters. -/
def encode (chars : List Char) : Bytes :=
  chars.flatMap String.utf8EncodeChar

@[simp] theorem encode_nil : encode [] = [] := rfl

@[simp] theorem encode_cons (c : Char) (chars : List Char) :
    encode (c :: chars) = String.utf8EncodeChar c ++ encode chars := rfl

theorem ofString_eq (s : String) : Bytes.ofString s = encode s.toList := by
  have h : s.toByteArray = (encode s.toList).toByteArray := String.utf8Encode_toList.symm
  rw [Bytes.ofString, h, List.toList_data_toByteArray]

theorem decodeFrom_encode (size : Nat) (seen chars : List Char) :
    decodeFrom size seen (encode chars) = .ok (seen.reverse ++ chars) := by
  induction chars generalizing seen with
  | nil =>
      rw [decodeFrom]
      simp [first]
  | cons c chars ih =>
      rw [decodeFrom]
      have hfirst := first_utf8EncodeChar c (encode chars)
      split <;> simp_all

/-- `decode` undoes `Bytes.ofString`. -/
@[simp] theorem decode_ofString (s : String) : decode (Bytes.ofString s) = .ok s := by
  rw [decode, ofString_eq, decodeFrom_encode]
  simp [Except.map]

@[simp] theorem decodeLossy_ofString (s : String) : decodeLossy (Bytes.ofString s) = s :=
  decodeLossy_of_decode (decode_ofString s)

theorem ofString_injective {s t : String} (h : Bytes.ofString s = Bytes.ofString t) : s = t := by
  rw [← decodeLossy_ofString s, h, decodeLossy_ofString]

/-! ### The order of bytes -/

/-- The last bytes of the encoding of a number, as many as given. -/
def tailBytes : Nat → Nat → Bytes
  | 0, _ => []
  | k + 1, n => tailByte (n / 64 ^ k) :: tailBytes k n

/-- Numbers that differ in their last bits alone are ordered as their `tailBytes` are. -/
theorem tailBytes_lt {k m n : Nat} (h : m < n) (hfront : m / 64 ^ k = n / 64 ^ k) (x y : Bytes) :
    tailBytes k m ++ x < tailBytes k n ++ y := by
  induction k with
  | zero =>
      rw [Nat.pow_zero, Nat.div_one, Nat.div_one] at hfront
      omega
  | succ k ih =>
      rw [tailBytes, tailBytes, List.cons_append, List.cons_append, List.cons_lt_cons_iff]
      by_cases hsame : m / 64 ^ k = n / 64 ^ k
      · exact .inr ⟨by rw [hsame], ih hsame⟩
      · left
        have hle : m / 64 ^ k ≤ n / 64 ^ k := Nat.div_le_div_right (Nat.le_of_lt h)
        rw [Nat.pow_succ, ← Nat.div_div_eq_div_mul, ← Nat.div_div_eq_div_mul] at hfront
        rw [UInt8.lt_iff_toNat_lt, toNat_tailByte, toNat_tailByte]
        omega

/-- `utf8EncodeChar` gives one of four forms, by the size of the number. -/
theorem utf8EncodeChar_shape (c : Char) :
    ∃ k lead, String.utf8EncodeChar c = lead :: tailBytes k c.toNat ∧
      ((k = 0 ∧ c.toNat < 0x80 ∧ lead.toNat = c.toNat) ∨
        (k = 1 ∧ 0x80 ≤ c.toNat ∧ c.toNat < 0x800 ∧ lead.toNat = c.toNat / 64 + 0xc0) ∨
        (k = 2 ∧ 0x800 ≤ c.toNat ∧ c.toNat < 0x10000 ∧ lead.toNat = c.toNat / 4096 + 0xe0) ∨
        (k = 3 ∧ 0x10000 ≤ c.toNat ∧ c.toNat < 0x110000 ∧
          lead.toNat = c.toNat / 262144 + 0xf0)) := by
  have hvalid : c.toNat < 0xd800 ∨ 0xdfff < c.toNat ∧ c.toNat < 0x110000 := c.valid
  have hval : c.val.toNat = c.toNat := rfl
  unfold String.utf8EncodeChar
  simp only [hval]
  split
  · refine ⟨0, _, rfl, .inl ⟨rfl, by omega, toNat_ofNat_of_lt (by omega)⟩⟩
  · split
    · refine ⟨1, .ofNat (c.toNat / 64 % 0x20 + 0xc0), ?_, .inr (.inl ⟨rfl, by omega, by omega, ?_⟩)⟩
      · rw [tailBytes, Nat.pow_zero, Nat.div_one]
        rfl
      · rw [toNat_ofNat_of_lt (by omega)]
        omega
    · split
      · refine ⟨2, .ofNat (c.toNat / 4096 % 0x10 + 0xe0), ?_,
          .inr (.inr (.inl ⟨rfl, by omega, by omega, ?_⟩))⟩
        · rw [tailBytes, tailBytes, Nat.pow_zero, Nat.div_one]
          rfl
        · rw [toNat_ofNat_of_lt (by omega)]
          omega
      · refine ⟨3, .ofNat (c.toNat / 262144 % 0x08 + 0xf0), ?_,
          .inr (.inr (.inr ⟨rfl, by omega, by omega, ?_⟩))⟩
        · rw [tailBytes, tailBytes, tailBytes, Nat.pow_zero, Nat.div_one]
          rfl
        · rw [toNat_ofNat_of_lt (by omega)]
          omega

/-- `utf8EncodeChar` keeps the order of characters. -/
theorem utf8EncodeChar_lt {c d : Char} (h : c.toNat < d.toNat) (x y : Bytes) :
    String.utf8EncodeChar c ++ x < String.utf8EncodeChar d ++ y := by
  obtain ⟨k, lead, hc, hk⟩ := utf8EncodeChar_shape c
  obtain ⟨k', lead', hd, hk'⟩ := utf8EncodeChar_shape d
  have hhead : lead.toNat < lead'.toNat ∨
      (k = k' ∧ lead.toNat = lead'.toNat ∧ c.toNat / 64 ^ k = d.toNat / 64 ^ k) := by
    rcases hk with ⟨rfl, hk⟩ | ⟨rfl, hk⟩ | ⟨rfl, hk⟩ | ⟨rfl, hk⟩ <;>
      simp only [Nat.reducePow] <;> omega
  rw [hc, hd, List.cons_append, List.cons_append, List.cons_lt_cons_iff, UInt8.lt_iff_toNat_lt,
    ← UInt8.toNat_inj]
  refine hhead.imp_right ?_
  rintro ⟨rfl, hlead, hfront⟩
  exact ⟨hlead, tailBytes_lt h hfront x y⟩

/-- `Bytes.ofString` keeps the order of texts. -/
theorem ofString_lt {s t : String} (h : s < t) : Bytes.ofString s < Bytes.ofString t := by
  rw [ofString_eq, ofString_eq]
  have hchars : s.toList < t.toList := String.lt_iff.1 h
  generalize s.toList = xs at hchars
  generalize t.toList = ys at hchars
  induction xs generalizing ys with
  | nil =>
      cases ys with
      | nil => exact absurd hchars (List.lt_irrefl _)
      | cons d ys =>
          obtain ⟨k, lead, hd, -⟩ := utf8EncodeChar_shape d
          rw [encode_cons, hd]
          exact List.nil_lt_cons _ _
  | cons c xs ih =>
      cases ys with
      | nil => exact absurd hchars (List.not_lt_nil _)
      | cons d ys =>
          rw [encode_cons, encode_cons]
          rcases List.cons_lt_cons_iff.1 hchars with hlt | ⟨rfl, hrest⟩
          · exact utf8EncodeChar_lt hlt _ _
          · exact List.append_left_lt (ih ys hrest)

/-! ### Bytes below 0x80 -/

/-- A byte below 0x80 in what `encode` gives is a character of its own. -/
theorem encode_split {chars : List Char} {b : UInt8} (hb : b.toNat < 0x80) {x y : Bytes}
    (h : encode chars = x ++ b :: y) :
    ∃ xs ys, chars = xs ++ Char.ofNat b.toNat :: ys ∧ x = encode xs ∧ y = encode ys := by
  induction chars generalizing x with
  | nil => simp at h
  | cons c chars ih =>
      rw [encode_cons] at h
      rcases utf8EncodeChar_cases c with ⟨hc, henc⟩ | ⟨hc, hall⟩
      · rw [henc] at h
        cases x with
        | nil =>
            simp only [List.cons_append, List.nil_append, List.cons.injEq] at h
            refine ⟨[], chars, ?_, rfl, h.2.symm⟩
            rw [← h.1, toNat_ofNat_of_lt (by omega), Char.ofNat_toNat, List.nil_append]
        | cons a x =>
            simp only [List.cons_append, List.nil_append, List.cons.injEq] at h
            obtain ⟨xs, ys, rfl, rfl, rfl⟩ := ih h.2
            exact ⟨c :: xs, ys, rfl, by rw [encode_cons, henc, ← h.1]; rfl, rfl⟩
      · obtain ⟨z, hx, hz⟩ | ⟨z, hx, hz⟩ := List.append_eq_append_iff.1 h
        · obtain ⟨xs, ys, rfl, rfl, rfl⟩ := ih hz
          exact ⟨c :: xs, ys, rfl, by rw [hx, encode_cons], rfl⟩
        · cases z with
          | nil =>
              rw [List.nil_append] at hz
              obtain ⟨xs, ys, rfl, hxs, rfl⟩ := ih (x := []) hz.symm
              refine ⟨c :: xs, ys, rfl, ?_, rfl⟩
              rw [encode_cons, ← hxs, hx, List.append_nil, List.append_nil]
          | cons a z =>
              -- all bytes of this character are 0x80 or more
              simp only [List.cons_append, List.cons.injEq] at hz
              have := hall b (by rw [hx, hz.1]; simp)
              omega

theorem mem_of_mem_encode {chars : List Char} {b : UInt8} (hb : b.toNat < 0x80)
    (h : b ∈ encode chars) : Char.ofNat b.toNat ∈ chars := by
  obtain ⟨x, y, hxy⟩ := List.append_of_mem h
  obtain ⟨xs, ys, hs, -, -⟩ := encode_split hb hxy
  rw [hs]
  simp

theorem mem_of_mem_ofString {s : String} {b : UInt8} (hb : b.toNat < 0x80)
    (h : b ∈ Bytes.ofString s) : Char.ofNat b.toNat ∈ s.toList := by
  rw [ofString_eq] at h
  exact mem_of_mem_encode hb h

/-- Characters of one byte each. -/
def IsAscii (run : List Char) : Prop :=
  ∀ c ∈ run, c.toNat < 0x80

instance (run : List Char) : Decidable (IsAscii run) :=
  List.decidableBAll _ _

/-- If `run` `IsAscii` and its bytes are in front, so are its characters. -/
theorem prefix_of_encode {run chars : List Char} (hrun : IsAscii run)
    (h : encode run <+: encode chars) : run <+: chars := by
  induction run generalizing chars with
  | nil => exact List.nil_prefix
  | cons c run ih =>
      obtain ⟨y, h⟩ := h
      have hc : c.toNat < 0x80 := hrun c List.mem_cons_self
      have hb : (UInt8.ofNat c.toNat).toNat = c.toNat := toNat_ofNat_of_lt (by omega)
      rw [encode_cons, utf8EncodeChar_of_lt hc, List.cons_append, List.nil_append,
        List.cons_append] at h
      obtain ⟨xs, ys, rfl, hxs, hys⟩ := encode_split (x := []) (by omega) h.symm
      have hnil : xs = [] := by
        cases xs with
        | nil => rfl
        | cons x xs =>
            rw [encode_cons] at hxs
            exact absurd (List.append_eq_nil_iff.1 hxs.symm).1 (String.utf8EncodeChar_ne_nil)
      rw [hnil, hb, Char.ofNat_toNat, List.nil_append, List.prefix_cons_inj]
      exact ih (fun d hd => hrun d (List.mem_cons_of_mem c hd)) ⟨y, hys⟩

/-- If `run` `IsAscii` and its bytes are among those of a text, the text holds `run`. -/
theorem infix_of_encode {run chars : List Char} (hrun : IsAscii run)
    (h : encode run <:+: encode chars) : run <:+: chars := by
  cases run with
  | nil => exact List.nil_infix
  | cons c run =>
      obtain ⟨x, y, h⟩ := h
      have hc : c.toNat < 0x80 := hrun c List.mem_cons_self
      have hb : (UInt8.ofNat c.toNat).toNat = c.toNat := toNat_ofNat_of_lt (by omega)
      rw [encode_cons, utf8EncodeChar_of_lt hc, List.append_assoc, List.cons_append,
        List.nil_append, List.cons_append] at h
      obtain ⟨xs, ys, rfl, -, hys⟩ := encode_split (by omega) h.symm
      rw [hb, Char.ofNat_toNat]
      have hprefix : run <+: ys :=
        prefix_of_encode (fun d hd => hrun d (List.mem_cons_of_mem c hd)) ⟨y, hys⟩
      exact ((List.prefix_cons_inj c).2 hprefix).isInfix.trans (List.suffix_append xs _).isInfix

/-! ### Characters below 0x80 -/

/-- The number of a character that `tails` completes is in the range that the bits before leave
open. -/
theorem tails_char {bits taken more : Nat} {bytes rest : Bytes} {c : Char}
    (h : tails bits taken more bytes = .char c rest) :
    ∃ n, c = Char.ofNat n ∧ bits * 64 ^ more ≤ n ∧ n < (bits + 1) * 64 ^ more := by
  induction more generalizing bits taken bytes with
  | zero =>
      simp only [tails, First.char.injEq] at h
      exact ⟨bits, h.1.symm, by simp, by simp⟩
  | succ more ih =>
      cases bytes with
      | nil => simp [tails] at h
      | cons b bytes =>
          unfold tails at h
          split at h
          · rename_i htail
            simp only [isTail, Bool.and_eq_true, decide_eq_true_eq, UInt8.le_iff_toNat_le,
              UInt8.reduceToNat] at htail
            obtain ⟨n, hn, hlow, hhigh⟩ := ih h
            refine ⟨n, hn, ?_, ?_⟩
            · calc bits * 64 ^ (more + 1) = (bits * 64) * 64 ^ more := by ring
                _ ≤ (bits * 64 + (b.toNat - 0x80)) * 64 ^ more := Nat.mul_le_mul_right _ (by omega)
                _ ≤ n := hlow
            · calc n < (bits * 64 + (b.toNat - 0x80) + 1) * 64 ^ more := hhigh
                _ ≤ ((bits + 1) * 64) * 64 ^ more := Nat.mul_le_mul_right _ (by omega)
                _ = (bits + 1) * 64 ^ (more + 1) := by ring
          · simp at h

/-- `Lead.low` and `Lead.high` rule out overlong forms, surrogates, and all above U+10FFFF. -/
theorem second_bounds {b second : UInt8} {lead : Lead} (hlead : Lead.of? b = some lead)
    (hlow : lead.low.toNat ≤ second.toNat) (hhigh : second.toNat ≤ lead.high.toNat) {m : Nat}
    (hm : m = lead.bits * 64 + (second.toNat - 0x80)) :
    (lead.more = 1 ∧ 0x80 ≤ m ∧ m < 0x800) ∨
      (lead.more = 2 ∧ 0x20 ≤ m ∧ m < 0x400 ∧ (m < 0x360 ∨ 0x380 ≤ m)) ∨
      (lead.more = 3 ∧ 0x10 ≤ m ∧ m < 0x110) := by
  simp only [Lead.of?, UInt8.le_iff_toNat_le, ← UInt8.toNat_inj, beq_iff_eq, Bool.and_eq_true,
    decide_eq_true_eq, UInt8.reduceToNat] at hlead
  split_ifs at hlead <;> obtain rfl := Option.some.inj hlead <;>
    simp only [UInt8.reduceToNat, true_and, false_and, or_false, false_or, Nat.reduceEqDiff]
      at hlow hhigh hm ⊢ <;> omega

theorem toNat_ofNat_of_isValid {n : Nat} (h : n < 0xd800 ∨ 0xdfff < n ∧ n < 0x110000) :
    (Char.ofNat n).toNat = n := by
  rw [Char.ofNat, dif_pos h]
  rfl

/-- If the first byte is from 0x80 on, so is the character that `first` finds. -/
theorem le_toNat_of_first {b : UInt8} {bytes rest : Bytes} {c : Char} (hb : 0x80 ≤ b.toNat)
    (h : first (b :: bytes) = .char c rest) : 0x80 ≤ c.toNat := by
  rw [first, if_neg (not_lt_of_toNat hb)] at h
  cases hlead : Lead.of? b with
  | none => simp [hlead] at h
  | some lead =>
      cases bytes with
      | nil => simp [hlead] at h
      | cons second bytes =>
          simp only [hlead] at h
          split at h
          · rename_i hsecond
            simp only [Bool.and_eq_true, decide_eq_true_eq, UInt8.le_iff_toNat_le] at hsecond
            obtain ⟨n, rfl, hlow, hhigh⟩ := tails_char h
            have hbounds := second_bounds hlead hsecond.1 hsecond.2 rfl
            rcases hbounds with ⟨hmore, h1, h2⟩ | ⟨hmore, h1, h2, h3⟩ | ⟨hmore, h1, h2⟩ <;>
              rw [hmore] at hlow hhigh <;> rw [toNat_ofNat_of_isValid (by omega)] <;> omega
          · simp at h

/-- If `first` finds a character below 0x80, the first byte is that character. -/
theorem eq_cons_of_first {bytes rest : Bytes} {c : Char} (hc : c.toNat < 0x80)
    (h : first bytes = .char c rest) : bytes = UInt8.ofNat c.toNat :: rest := by
  cases bytes with
  | nil => simp [first] at h
  | cons b bytes =>
      by_cases hb : b.toNat < 0x80
      · have hlt : b < 0x80 := UInt8.lt_iff_toNat_lt.2 hb
        rw [first, if_pos hlt] at h
        simp only [First.char.injEq] at h
        rw [← h.1, ← h.2, toNat_ofNat_of_isValid (by omega), UInt8.ofNat_toNat]
      · exact absurd (le_toNat_of_first (by omega) h) (by omega)

/-- `decodeLossyFrom` puts the characters seen before in front. -/
theorem decodeLossyFrom_append (seen : List Char) (bytes : Bytes) :
    decodeLossyFrom seen bytes = seen.reverse ++ decodeLossyFrom [] bytes := by
  suffices h : ∀ more seen,
      decodeLossyFrom (more ++ seen) bytes = seen.reverse ++ decodeLossyFrom more bytes by
    simpa using h [] seen
  intro more seen
  fun_induction decodeLossyFrom more bytes generalizing seen with
  | case1 more bytes hfirst => 
      rw [decodeLossyFrom]
      split <;> simp_all
  | case2 more bytes c rest hfirst ih =>
      rw [decodeLossyFrom]
      split <;> simp_all
  | case3 more bytes n rest hfirst ih => 
      rw [decodeLossyFrom]
      split <;> simp_all
  | case4 more bytes hfirst =>
      rw [decodeLossyFrom]
      split <;> simp_all

theorem suffix_of_tails {bits taken more : Nat} {bytes rest : Bytes} :
    (∀ c, tails bits taken more bytes = .char c rest → rest <:+ bytes) ∧
    (∀ n, tails bits taken more bytes = .broken n rest → rest <:+ bytes) := by
  induction more generalizing bits taken bytes with
  | zero => constructor <;> simp +contextual [tails]
  | succ more ih =>
      cases bytes with
      | nil => simp [tails]
      | cons b bytes =>
          unfold tails
          split
          · exact ⟨fun c h => (ih.1 c h).trans (List.suffix_cons b bytes),
              fun n h => (ih.2 n h).trans (List.suffix_cons b bytes)⟩
          · constructor <;> simp +contextual

/-- What `first` leaves is an end of the bytes. -/
theorem suffix_of_first {bytes rest : Bytes} :
    (∀ c, first bytes = .char c rest → rest <:+ bytes) ∧
    (∀ n, first bytes = .broken n rest → rest <:+ bytes) := by
  cases bytes with
  | nil => simp [first]
  | cons b bytes =>
      rw [first]
      by_cases hb : b < 0x80
      · rw [if_pos hb]
        constructor <;> simp +contextual
      · rw [if_neg hb]
        cases Lead.of? b with
        | none => constructor <;> simp +contextual
        | some lead =>
            cases bytes with
            | nil => simp
            | cons second bytes =>
                dsimp only
                split
                · have hsuffix : bytes <:+ b :: second :: bytes :=
                    (List.suffix_cons second bytes).trans (List.suffix_cons b _)
                  exact ⟨fun c h => (suffix_of_tails.1 c h).trans hsuffix,
                    fun n h => (suffix_of_tails.2 n h).trans hsuffix⟩
                · constructor <;> simp +contextual

/-- The first character that `decodeLossyFrom` gives comes from the front of the bytes, and the
others from what is behind it. -/
theorem exists_of_decodeLossyFrom_cons {bytes : Bytes} {c : Char} {chars : List Char}
    (h : decodeLossyFrom [] bytes = c :: chars) :
    ∃ before rest, bytes = before ++ rest ∧ decodeLossyFrom [] rest = chars ∧
      (c.toNat < 0x80 → before = [UInt8.ofNat c.toNat]) := by
  rw [decodeLossyFrom] at h
  split at h
  · simp at h
  · rename_i d rest hfirst
    rw [decodeLossyFrom_append] at h
    simp only [List.reverse_cons, List.reverse_nil, List.nil_append, List.cons_append,
      List.cons.injEq] at h
    obtain ⟨rfl, rfl⟩ := h
    by_cases hd : d.toNat < 0x80
    · exact ⟨[UInt8.ofNat d.toNat], rest, eq_cons_of_first hd hfirst, rfl, fun _ => rfl⟩
    · obtain ⟨before, hbefore⟩ := suffix_of_first.1 d hfirst
      exact ⟨before, rest, hbefore.symm, rfl, fun h => absurd h hd⟩
  · rename_i n rest hfirst
    rw [decodeLossyFrom_append] at h
    simp only [List.reverse_cons, List.reverse_nil, List.nil_append, List.cons_append,
      List.cons.injEq] at h
    obtain ⟨rfl, rfl⟩ := h
    obtain ⟨before, hbefore⟩ := suffix_of_first.2 n hfirst
    exact ⟨before, rest, hbefore.symm, rfl, fun h => absurd h (by decide)⟩
  · simp only [List.reverse_cons, List.reverse_nil, List.nil_append, List.cons.injEq] at h
    obtain ⟨rfl, rfl⟩ := h
    exact ⟨bytes, [], by simp, by simp [decodeLossyFrom, first], fun h => absurd h (by decide)⟩

/-- If characters that `IsAscii` are in front after `decodeLossyFrom`, their bytes are in front too.
-/
theorem exists_of_decodeLossyFrom_append {bytes : Bytes} {run chars : List Char}
    (hrun : IsAscii run) (h : decodeLossyFrom [] bytes = run ++ chars) :
    ∃ rest, bytes = run.map (fun c => UInt8.ofNat c.toNat) ++ rest ∧
      decodeLossyFrom [] rest = chars := by
  induction run generalizing bytes with
  | nil => exact ⟨bytes, rfl, h⟩
  | cons c run ih =>
      obtain ⟨before, rest, rfl, hrest, hbefore⟩ := exists_of_decodeLossyFrom_cons h
      obtain ⟨last, rfl, hlast⟩ := ih (fun d hd => hrun d (List.mem_cons_of_mem c hd)) hrest
      rw [hbefore (hrun c List.mem_cons_self)]
      exact ⟨last, rfl, hlast⟩

/-- A run that `IsAscii` and that `decodeLossy` finds is among the bytes. -/
theorem infix_of_decodeLossy {bytes : Bytes} {run : List Char} (hrun : IsAscii run)
    (h : run <:+: (decodeLossy bytes).toList) :
    run.map (fun c => UInt8.ofNat c.toNat) <:+: bytes := by
  rw [decodeLossy, String.toList_ofList] at h
  obtain ⟨xs, ys, h⟩ := h
  rw [List.append_assoc] at h
  induction xs generalizing bytes with
  | nil =>
      obtain ⟨rest, rfl, -⟩ := exists_of_decodeLossyFrom_append hrun h.symm
      exact (List.prefix_append _ _).isInfix
  | cons x xs ih =>
      obtain ⟨before, rest, rfl, hrest, -⟩ := exists_of_decodeLossyFrom_cons h.symm
      exact (ih hrest.symm).trans (List.suffix_append before rest).isInfix

theorem tails_ne_nothing (bits taken more : Nat) (bytes : Bytes) :
    tails bits taken more bytes ≠ .nothing := by
  induction more generalizing bits taken bytes with
  | zero => simp [tails]
  | succ more ih =>
      cases bytes with
      | nil => simp [tails]
      | cons b bytes =>
          unfold tails
          split
          · exact ih _ _ _
          · simp

theorem eq_nil_of_first {bytes : Bytes} (h : first bytes = .nothing) : bytes = [] := by
  cases bytes with
  | nil => rfl
  | cons b bytes =>
      rw [first] at h
      by_cases hb : b < 0x80
      · simp [hb] at h
      · rw [if_neg hb] at h
        cases hlead : Lead.of? b with
        | none => simp [hlead] at h
        | some lead =>
            cases bytes with
            | nil => simp [hlead] at h
            | cons second bytes =>
                simp only [hlead] at h
                split at h
                · exact absurd h (tails_ne_nothing _ _ _ _)
                · simp at h

/-- `decodeLossy` gives the empty text for no bytes only. -/
theorem eq_nil_of_decodeLossy {bytes : Bytes} (h : decodeLossy bytes = "") : bytes = [] := by
  rw [decodeLossy, ← String.ofList_nil, String.ofList_inj, decodeLossyFrom] at h
  split at h
  · rename_i hfirst
    exact eq_nil_of_first hfirst
  · rw [decodeLossyFrom_append] at h
    simp at h
  · rw [decodeLossyFrom_append] at h
    simp at h
  · simp at h

/-- Bytes for which `decodeLossy` gives a run that `IsAscii` are those of the run. -/
theorem eq_of_decodeLossy {bytes : Bytes} {run : List Char} (hrun : IsAscii run)
    (h : (decodeLossy bytes).toList = run) : bytes = run.map fun c => UInt8.ofNat c.toNat := by
  rw [decodeLossy, String.toList_ofList, ← List.append_nil run] at h
  obtain ⟨rest, rfl, hrest⟩ := exists_of_decodeLossyFrom_append hrun h
  have hempty : decodeLossy rest = "" := by
    rw [decodeLossy, hrest]
  rw [eq_nil_of_decodeLossy hempty, List.append_nil]

end ResourceShards.Utf8

namespace ResourceShards.Bytes

/-! ### Bytes that spell a text -/

/-- `Bytes.ofString` undoes `toString?`. -/
theorem eq_ofString_of_toString? {bytes : Bytes} {text : String}
    (h : Bytes.toString? bytes = some text) : bytes = Bytes.ofString text := by
  unfold toString? String.fromUTF8? at h
  split at h
  · obtain rfl := Option.some.inj h
    rfl
  · cases h

/-- `toString?` undoes `ofString`. -/
theorem toString?_ofString (text : String) : toString? (ofString text) = some text := by
  have hbytes : (⟨(ofString text).toArray⟩ : ByteArray) = text.toByteArray := by
    simp [ofString]
  unfold toString? String.fromUTF8?
  simp only [hbytes]
  exact dif_pos text.isValidUTF8

end ResourceShards.Bytes
