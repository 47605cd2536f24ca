/-!
# ResourceShards.Zip.Deflate

**Compressed contents.** A compressed stream is a row of blocks: bytes as they are, or symbols of a
prefix code, which stand for bytes and for repetitions of what came before. Streams are written as
blocks of bytes as they are; all streams are read.

* `Deflate.wrap`: a stream of some bytes
* `Deflate.inflate`: the bytes of a stream
-/

namespace ResourceShards.Zip.Deflate

/-! ### Writing -/

/-- The most bytes that a block of bytes holds. -/
def blockSize : Nat := 65535

/-- A number in two bytes, low byte first. -/
def twoBytes (n : Nat) : List UInt8 :=
  [n.toUInt8, (n / 256).toUInt8]

/-- A block of bytes as they are. -/
def block (isLast : Bool) (bytes : List UInt8) : List UInt8 :=
  (if isLast then 1 else 0) :: twoBytes bytes.length ++ twoBytes (65535 - bytes.length) ++ bytes

/-- A stream of some bytes. -/
def wrap (bytes : List UInt8) : List UInt8 :=
  if bytes.length ≤ blockSize then block true bytes
  else block false (bytes.take blockSize) ++ wrap (bytes.drop blockSize)
termination_by bytes.length
decreasing_by
  rename_i h
  simp only [List.length_drop, blockSize] at h ⊢
  omega

/-! ### Reading bits -/

/-- Reading at a position that is counted in bits. -/
abbrev Reader := StateT Nat Option

/-- The next bit; bytes are read from their low end. -/
def bit (data : ByteArray) : Reader Nat := do
  let position ← get
  let some byte := data[position / 8]? | none
  set (position + 1)
  return (byte.toNat >>> (position % 8)) % 2

/-- The next bits as a number, low bit first. -/
def bits (data : ByteArray) : (count : Nat) → Reader Nat
  | 0 => pure 0
  | count + 1 => do
    let low ← bit data
    return low + 2 * (← bits data count)

/-! ### Prefix codes -/

/-- A prefix code in which shorter words come first, and of words of one length that of the smaller
symbol. -/
structure Code where
  /-- How many words there are of each length, from one bit on. -/
  counts : List Nat
  /-- The symbols in the order of their words. -/
  symbols : Array Nat

/-- The code in which each symbol has a word of some length; zero bits make none. -/
def Code.ofLengths (lengths : List Nat) : Code :=
  let ofLength (n : Nat) : List Nat :=
    (lengths.zipIdx.filter (·.1 == n)).map Prod.snd
  let groups := (List.range' 1 15).map ofLength
  ⟨groups.map List.length, groups.flatten.toArray⟩

/-- Reads a word: `word` holds its bits so far, `first` the first word of that length and `index`
how many words are shorter. -/
def readWord (data : ByteArray) (code : Code) (word first index : Nat) : List Nat → Reader Nat
  | [] => failure
  | count :: counts => do
    let word := word + (← bit data)
    if word < first + count then
      let some symbol := code.symbols[index + (word - first)]? | none
      return symbol
    else readWord data code (2 * word) (2 * (first + count)) (index + count) counts

/-- Reads a symbol. -/
def Code.read (data : ByteArray) (code : Code) : Reader Nat :=
  readWord data code 0 0 0 code.counts

/-! ### Blocks -/

/-- The least length of a repetition for each symbol from 257 on, and how many bits add to it. -/
def lengthTable : List (Nat × Nat) :=
  [(3, 0), (4, 0), (5, 0), (6, 0), (7, 0), (8, 0), (9, 0), (10, 0), (11, 1), (13, 1), (15, 1),
    (17, 1), (19, 2), (23, 2), (27, 2), (31, 2), (35, 3), (43, 3), (51, 3), (59, 3), (67, 4),
    (83, 4), (99, 4), (115, 4), (131, 5), (163, 5), (195, 5), (227, 5), (258, 0)]

/-- The least distance of a repetition for each symbol, and how many bits add to it. -/
def distanceTable : List (Nat × Nat) :=
  [(1, 0), (2, 0), (3, 0), (4, 0), (5, 1), (7, 1), (9, 2), (13, 2), (17, 3), (25, 3), (33, 4),
    (49, 4), (65, 5), (97, 5), (129, 6), (193, 6), (257, 7), (385, 7), (513, 8), (769, 8),
    (1025, 9), (1537, 9), (2049, 10), (3073, 10), (4097, 11), (6145, 11), (8193, 12), (12289, 12),
    (16385, 13), (24577, 13)]

/-- Repeats what stands at some distance from the end. -/
def copy (distance : Nat) : (length : Nat) → ByteArray → Option ByteArray
  | 0, out => some out
  | length + 1, out =>
    if distance == 0 || out.size < distance then none
    else
      match out[out.size - distance]? with
      | some byte => copy distance length (out.push byte)
      | none => none

/-- A number out of a table, with the bits that add to it. -/
def tableNumber (data : ByteArray) (table : List (Nat × Nat)) (index : Nat) : Reader Nat := do
  let some (least, extra) := table[index]? | none
  return least + (← bits data extra)

/-- Symbols up to the end of their block; `fuel` bounds how many. -/
def readSymbols (data : ByteArray) (literals distances : Code) : (fuel : Nat) → ByteArray →
    Reader ByteArray
  | 0, _ => failure
  | fuel + 1, out => do
    let symbol ← literals.read data
    if symbol < 256 then readSymbols data literals distances fuel (out.push symbol.toUInt8)
    else if symbol == 256 then return out
    else
      let length ← tableNumber data lengthTable (symbol - 257)
      let distance ← tableNumber data distanceTable (← distances.read data)
      match copy distance length out with
      | some out => readSymbols data literals distances fuel out
      | none => failure

/-- Bytes as they are. -/
def readBytes (data : ByteArray) : (count : Nat) → ByteArray → Reader ByteArray
  | 0, out => pure out
  | count + 1, out => do
    let byte ← bits data 8
    readBytes data count (out.push byte.toUInt8)

/-- The code of bytes and lengths that needs no description. -/
def fixedLiterals : Code :=
  .ofLengths (List.replicate 144 8 ++ List.replicate 112 9 ++ List.replicate 24 7 ++
    List.replicate 8 8)

/-- The code of distances that needs no description. -/
def fixedDistances : Code :=
  .ofLengths (List.replicate 30 5)

/-- The order in which the lengths of the code for lengths are given. -/
def lengthOrder : List Nat :=
  [16, 17, 18, 0, 8, 7, 9, 6, 10, 5, 11, 4, 12, 3, 13, 2, 14, 1, 15]

/-- Lengths of words until there are `count`; `found` holds those before, last one first. -/
def readLengths (data : ByteArray) (code : Code) (count : Nat) : (fuel : Nat) → List Nat →
    Reader (List Nat)
  | 0, _ => failure
  | fuel + 1, found => do
    if count ≤ found.length then return found.reverse
    let symbol ← code.read data
    if symbol < 16 then readLengths data code count fuel (symbol :: found)
    else
      let (length, base, extra) := match symbol with
        | 16 => (found.headD 0, 3, 2)
        | 17 => (0, 3, 3)
        | _ => (0, 11, 7)
      let times := base + (← bits data extra)
      readLengths data code count fuel (List.replicate times length ++ found)

/-- The codes of a block that describes them. -/
def readCodes (data : ByteArray) : Reader (Code × Code) := do
  let literals := 257 + (← bits data 5)
  let distances := 1 + (← bits data 5)
  let given := 4 + (← bits data 4)
  let widths ← (List.range given).mapM fun _ => bits data 3
  let ordered := lengthOrder.zip widths
  let code := Code.ofLengths ((List.range 19).map fun symbol => (ordered.lookup symbol).getD 0)
  let lengths ← readLengths data code (literals + distances) (literals + distances + 1) []
  return (.ofLengths (lengths.take literals), .ofLengths (lengths.drop literals))

/-- One block. -/
def readBlock (data : ByteArray) (out : ByteArray) : Reader ByteArray := do
  let fuel := 8 * data.size + 1
  match ← bits data 2 with
  | 0 =>
    modify fun position => (position + 7) / 8 * 8
    let length ← bits data 16
    let check ← bits data 16
    if length + check != 65535 then failure
    readBytes data length out
  | 1 => readSymbols data fixedLiterals fixedDistances fuel out
  | 2 => do
    let (literals, distances) ← readCodes data
    readSymbols data literals distances fuel out
  | _ => failure

/-- Blocks up to the last one; `fuel` bounds how many. -/
def readBlocks (data : ByteArray) : (fuel : Nat) → ByteArray → Reader ByteArray
  | 0, _ => failure
  | fuel + 1, out => do
    let isLast ← bit data
    let out ← readBlock data out
    if isLast == 1 then return out else readBlocks data fuel out

/-- The bytes of a stream, unless it is broken. -/
def inflate (data : ByteArray) : Option ByteArray :=
  (readBlocks data (8 * data.size + 1) .empty).run' 0

end ResourceShards.Zip.Deflate
