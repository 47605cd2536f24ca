import ResourceShards.Markup.Fault

/-!
# ResourceShards.Markup.Reference

**References in text.** Text and attribute values stand for other text: `&lt;` and its like have
names, `&#60;` and `&#x3c;` give the code point. Strict reading refuses text with a reference that
stands for nothing. Lenient reading keeps such a reference as it is written and resolves the others.

* `Reference.resolve`: one reference
* `Reference.unescape`, `Reference.unescapeLenient`: whole texts
* `Reference.readText`: text from bytes in either way
-/

namespace ResourceShards.Markup

/-- How bad references and bytes that are no UTF-8 are treated. -/
inductive Strictness where
  /-- They are refused. -/
  | strict
  /-- They are kept, bytes that are no UTF-8 as U+FFFD. -/
  | lenient
  deriving DecidableEq, Repr

namespace Reference

/-! ### One reference -/

/-- The references that have a name. -/
def named : List (String × Char) :=
  [("lt", '<'), ("gt", '>'), ("amp", '&'), ("apos", '\x27'), ("quot", '\x22')]

/-- The value of a digit in base 16. -/
def hexadecimalDigit? (b : UInt8) : Option Nat :=
  if 0x30 ≤ b && b ≤ 0x39 then some (b.toNat - 0x30)
  else if 0x61 ≤ b && b ≤ 0x66 then some (b.toNat - 0x61 + 10)
  else if 0x41 ≤ b && b ≤ 0x46 then some (b.toNat - 0x41 + 10)
  else none

/-- The value of a digit in base 10. -/
def decimalDigit? (b : UInt8) : Option Nat :=
  if 0x30 ≤ b && b ≤ 0x39 then some (b.toNat - 0x30) else none

/-- The number that digits in some base spell; `bad` is what a byte that is no digit gives. -/
def number (base : Nat) (digit? : UInt8 → Option Nat) (bad : UInt8 → ReferenceFault)
    (value : Nat) : Bytes → Except ReferenceFault Nat
  | [] => .ok value
  | b :: rest =>
    match digit? b with
    | some d => number base digit? bad (base * value + d) rest
    | none => .error (bad b)

/-- A number in base 16, of six digits at most. -/
def hexadecimal (digits : Bytes) : Except ReferenceFault Nat :=
  if 6 < digits.length then .error .longHexadecimal
  else number 16 hexadecimalDigit? .badHexadecimal 0 digits

/-- A number in base 10, of seven digits at most. -/
def decimal (digits : Bytes) : Except ReferenceFault Nat :=
  if 7 < digits.length then .error .longDecimal
  else number 10 decimalDigit? .badDecimal 0 digits

/-- The character with that code point. -/
def character (start stop code : Nat) : Except ReferenceFault Char :=
  if code = 0 then .error (.null start stop)
  else if code.isValidChar then .ok (Char.ofNat code)
  else .error (.noCharacter code)

/-- The character that a reference stands for: `inside` is what it has between its `&` at `start`
and its `;` at `stop`. -/
def resolve (start stop : Nat) (inside : List Char) : Except ReferenceFault Char :=
  match inside with
  | '#' :: 'x' :: digits => do
    character start stop (← hexadecimal (digits.flatMap String.utf8EncodeChar))
  | '#' :: digits => do
    character start stop (← decimal (digits.flatMap String.utf8EncodeChar))
  | _ =>
    match named.lookup (String.ofList inside) with
    | some c => .ok c
    | none => .error (.unknownName start stop (String.ofList inside))

/-! ### Whole texts -/

/-- Characters that neither open nor close a reference. -/
def isOrdinary (c : Char) : Bool :=
  c != '&' && c != ';'

/-- The length of characters in UTF-8. -/
def utf8Length (chars : List Char) : Nat :=
  chars.foldr (fun c rest => c.utf8Size + rest) 0

theorem length_dropWhile_lt {p : Char → Bool} {c : Char} {rest after : List Char}
    (h : rest.dropWhile p = c :: after) : after.length < rest.length := by
  have hle := (List.dropWhile_sublist p (l := rest)).length_le
  rw [h] at hle
  simp only [List.length_cons] at hle
  omega

/-- Resolves the references of a text from position `place` on; `size` is the length of the whole
text and `seen` what was read already, last character first. -/
def unescapeFrom (size place : Nat) (seen : List Char) (chars : List Char) :
    Except ReferenceFault (List Char) :=
  match chars with
  | [] => .ok seen.reverse
  | c :: rest =>
    if c == '&' then
      let stop := place + 1 + utf8Length (rest.takeWhile isOrdinary)
      match _h : rest.dropWhile isOrdinary with
      | ';' :: after =>
        match resolve place stop (rest.takeWhile isOrdinary) with
        | .ok r => unescapeFrom size (stop + 1) (r :: seen) after
        | .error fault => .error fault
      | _ => .error (.unterminated place size)
    else unescapeFrom size (place + c.utf8Size) (c :: seen) rest
termination_by chars.length
decreasing_by
  · have := length_dropWhile_lt _h
    simp only [List.length_cons]
    omega
  · simp

/-- The text with its references resolved, unless one of them is bad. -/
def unescape (text : String) : Except ReferenceFault String :=
  (unescapeFrom text.utf8ByteSize 0 [] text.toList).map String.ofList

/-- Resolves the references that can be; `seen` is what was read already, last character first. -/
def unescapeLenientFrom (seen : List Char) (chars : List Char) : List Char :=
  match chars with
  | [] => seen.reverse
  | c :: rest =>
    if c == '&' then
      let inside := rest.takeWhile isOrdinary
      match _h : rest.dropWhile isOrdinary with
      | ';' :: after =>
        match resolve 0 0 inside with
        | .ok r => unescapeLenientFrom (r :: seen) after
        | .error _ => unescapeLenientFrom (';' :: inside.reverse ++ '&' :: seen) after
      | _ => unescapeLenientFrom ('&' :: seen) rest
    else unescapeLenientFrom (c :: seen) rest
termination_by chars.length
decreasing_by
  · have := length_dropWhile_lt _h
    simp only [List.length_cons]
    omega
  · have := length_dropWhile_lt _h
    simp only [List.length_cons]
    omega
  · simp
  · simp

/-- The text with the references resolved that can be. -/
def unescapeLenient (text : String) : String :=
  String.ofList (unescapeLenientFrom [] text.toList)

/-- Text from bytes, unless it is no UTF-8 or holds a bad reference. -/
def readStrict (raw : Bytes) : Except Fault String :=
  match Utf8.decode raw with
  | .error fault => .error (.utf8 fault)
  | .ok text =>
    match unescape text with
    | .error fault => .error (.reference fault)
    | .ok text => .ok text

/-- Text from bytes. Only strict reading fails. -/
def readText (mode : Strictness) (raw : Bytes) : Except Fault String :=
  match readStrict raw, mode with
  | .ok text, _ => .ok text
  | .error fault, .strict => .error fault
  | .error _, .lenient => .ok (unescapeLenient (Utf8.decodeLossy raw))

theorem readText_lenient_isOk (raw : Bytes) : ∃ text, readText .lenient raw = .ok text := by
  unfold readText
  split <;> simp_all

end Reference

end ResourceShards.Markup
