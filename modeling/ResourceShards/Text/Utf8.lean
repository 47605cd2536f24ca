import ResourceShards.Text.Bytes

/-!
# ResourceShards.Text.Utf8

**Decoding UTF-8, strictly and leniently.** One step reads the first character of a byte sequence
or finds the longest beginning of one that the following byte rules out. Strict decoding refuses
at the first such place and says where it is; lenient decoding writes U+FFFD for it and goes on.

* `Utf8.first`: the step
* `Utf8.decode`: strict decoding
* `Utf8.decodeLossy`: lenient decoding
-/

namespace ResourceShards.Utf8

/-! ### One character -/

/-- What stands at the front of a byte sequence. -/
inductive First where
  /-- The bytes are used up. -/
  | nothing
  /-- A character, and the bytes after it. -/
  | char (c : Char) (rest : Bytes)
  /-- `length` bytes that begin a character but are not continued as one, and the bytes after. -/
  | broken (length : Nat) (rest : Bytes)
  /-- The bytes end inside a character. -/
  | cut
  deriving DecidableEq, Repr

/-- What the first byte of a character asks of the bytes after it. -/
structure Lead where
  /-- How many bytes follow. -/
  more : Nat
  /-- The part of the code point that the first byte holds. -/
  bits : Nat
  /-- The least second byte. -/
  low : UInt8 := 0x80
  /-- The greatest second byte. -/
  high : UInt8 := 0xbf
  deriving DecidableEq, Repr

/-- The first bytes of characters of two to four bytes. The bounds on the second byte rule out
overlong forms, surrogates and code points above U+10FFFF. -/
def Lead.of? (b : UInt8) : Option Lead :=
  if 0xc2 ≤ b && b ≤ 0xdf then some { more := 1, bits := b.toNat - 0xc0 }
  else if b == 0xe0 then some { more := 2, bits := 0, low := 0xa0 }
  else if b == 0xed then some { more := 2, bits := 0xd, high := 0x9f }
  else if 0xe1 ≤ b && b ≤ 0xef then some { more := 2, bits := b.toNat - 0xe0 }
  else if b == 0xf0 then some { more := 3, bits := 0, low := 0x90 }
  else if b == 0xf4 then some { more := 3, bits := 4, high := 0x8f }
  else if 0xf1 ≤ b && b ≤ 0xf3 then some { more := 3, bits := b.toNat - 0xf0 }
  else none

/-- A byte that continues a character. -/
def isTail (b : UInt8) : Bool :=
  0x80 ≤ b && b ≤ 0xbf

/-- The continuation bytes after the second one: `more` of them are due, `taken` bytes were read
and hold the code point `bits` so far. -/
def tails (bits taken : Nat) : (more : Nat) → Bytes → First
  | 0, rest => .char (Char.ofNat bits) rest
  | _ + 1, [] => .cut
  | more + 1, b :: rest =>
    if isTail b then tails (bits * 64 + (b.toNat - 0x80)) (taken + 1) more rest
    else .broken taken (b :: rest)

/-- Reads the first character. -/
def first : Bytes → First
  | [] => .nothing
  | b :: rest =>
    if b < 0x80 then .char (Char.ofNat b.toNat) rest
    else
      match Lead.of? b with
      | none => .broken 1 rest
      | some lead =>
        match rest with
        | [] => .cut
        | second :: rest =>
          if lead.low ≤ second && second ≤ lead.high then
            tails (lead.bits * 64 + (second.toNat - 0x80)) 2 (lead.more - 1) rest
          else .broken 1 (second :: rest)

theorem tails_rest_le {bits taken more : Nat} {bytes rest : Bytes} :
    (∀ c, tails bits taken more bytes = .char c rest → rest.length ≤ bytes.length) ∧
    (∀ n, tails bits taken more bytes = .broken n rest → rest.length ≤ bytes.length) := by
  induction more generalizing bits taken bytes with
  | zero => constructor <;> simp +contextual [tails]
  | succ more ih =>
    cases bytes with
    | nil => simp [tails]
    | cons b bytes =>
      unfold tails
      split
      · exact ⟨fun c h => Nat.le_succ_of_le (ih.1 c h), fun n h => Nat.le_succ_of_le (ih.2 n h)⟩
      · constructor
        · simp
        · intro n h
          simp only [First.broken.injEq] at h
          simp [← h.2]

/-- `first` takes at least one byte for a character. -/
theorem length_lt_of_char {bytes rest : Bytes} {c : Char} (h : first bytes = .char c rest) :
    rest.length < bytes.length := by
  unfold first at h
  split at h
  · simp at h
  · split at h
    · simp only [First.char.injEq] at h
      simp [← h.2]
    · split at h
      · simp at h
      · split at h
        · simp at h
        · split at h
          · have := tails_rest_le.1 c h
            simp only [List.length_cons]
            omega
          · simp at h

/-- `first` takes at least one byte for what is broken. -/
theorem length_lt_of_broken {bytes rest : Bytes} {n : Nat} (h : first bytes = .broken n rest) :
    rest.length < bytes.length := by
  unfold first at h
  split at h
  · simp at h
  · split at h
    · simp at h
    · split at h
      · simp only [First.broken.injEq] at h
        simp [← h.2]
      · split at h
        · simp at h
        · split at h
          · have := tails_rest_le.2 n h
            simp only [List.length_cons]
            omega
          · simp only [First.broken.injEq] at h
            simp [← h.2]

/-! ### Whole texts -/

/-- Where strict decoding stopped. -/
inductive Fault where
  /-- `length` bytes from `index` on begin no character. -/
  | invalid (length index : Nat)
  /-- The bytes end inside the character that begins at `index`. -/
  | incomplete (index : Nat)
  deriving DecidableEq, Repr

/-- The fault in words. -/
def Fault.message : Fault → String
  | .invalid length index =>
    "invalid utf-8 sequence of " ++ toString length ++ " bytes from index " ++ toString index
  | .incomplete index => "incomplete utf-8 byte sequence from index " ++ toString index

/-- The characters that the bytes spell; `seen` holds those already read, last one first, and
`size` is the length of the whole text. -/
def decodeFrom (size : Nat) (seen : List Char) (bytes : Bytes) : Except Fault (List Char) :=
  match _h : first bytes with
  | .nothing => .ok seen.reverse
  | .char c rest => decodeFrom size (c :: seen) rest
  | .broken n _ => .error (.invalid n (size - bytes.length))
  | .cut => .error (.incomplete (size - bytes.length))
termination_by bytes.length
decreasing_by exact length_lt_of_char _h

/-- The text that the bytes spell. -/
def decode (bytes : Bytes) : Except Fault String :=
  (decodeFrom bytes.length [] bytes).map String.ofList

/-- U+FFFD, which stands for what is no character. -/
def replacement : Char := '\ufffd'

/-- The characters that the bytes spell, with `replacement` for each broken one; `seen` holds those
already read, last one first. -/
def decodeLossyFrom (seen : List Char) (bytes : Bytes) : List Char :=
  match _h : first bytes with
  | .nothing => seen.reverse
  | .char c rest => decodeLossyFrom (c :: seen) rest
  | .broken _ rest => decodeLossyFrom (replacement :: seen) rest
  | .cut => (replacement :: seen).reverse
termination_by bytes.length
decreasing_by
  · exact length_lt_of_char _h
  · exact length_lt_of_broken _h

/-- The text that the bytes spell, with `replacement` for each broken character. -/
def decodeLossy (bytes : Bytes) : String :=
  String.ofList (decodeLossyFrom [] bytes)

/-- Where `decodeFrom` succeeds, `decodeLossyFrom` gives the same. -/
theorem decodeLossyFrom_of_decodeFrom {size : Nat} {seen chars : List Char} {bytes : Bytes}
    (h : decodeFrom size seen bytes = .ok chars) : decodeLossyFrom seen bytes = chars := by
  fun_induction decodeFrom size seen bytes with
  | case1 seen bytes hf =>
    rw [decodeLossyFrom]
    split <;> simp_all
  | case2 seen bytes c rest hf ih =>
    rw [decodeLossyFrom]
    split <;> simp_all
  | case3 => simp at h
  | case4 => simp at h

/-- Where `decode` succeeds, `decodeLossy` gives the same. -/
theorem decodeLossy_of_decode {bytes : Bytes} {text : String} (h : decode bytes = .ok text) :
    decodeLossy bytes = text := by
  unfold decode at h
  match hd : decodeFrom bytes.length [] bytes with
  | .error e => simp [hd, Except.map] at h
  | .ok chars =>
    simp only [hd, Except.map, Except.ok.injEq] at h
    rw [decodeLossy, decodeLossyFrom_of_decodeFrom hd, h]

end ResourceShards.Utf8
