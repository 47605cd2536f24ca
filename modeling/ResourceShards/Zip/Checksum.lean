/-!
# ResourceShards.Zip.Checksum

**The checksum of archive entries.** It is the 32-bit cyclic redundancy check with the reversed
polynomial `edb88320`, taken over all bytes of an entry.
-/

namespace ResourceShards.Zip

/-- The reversed polynomial. -/
def polynomial : UInt32 := 0xedb88320

/-- A remainder after some more bits that are zero. -/
def divide : (bits : Nat) → UInt32 → UInt32
  | 0, r => r
  | bits + 1, r =>
    divide bits (if r &&& 1 == 1 then (r >>> 1) ^^^ polynomial else r >>> 1)

/-- A remainder after one more byte. -/
def addByte (r : UInt32) (b : UInt8) : UInt32 :=
  divide 8 (r ^^^ b.toUInt32)

/-- The checksum of some bytes. -/
def checksum (bytes : List UInt8) : UInt32 :=
  bytes.foldl addByte 0xffffffff ^^^ 0xffffffff

example : checksum [0x31, 0x32, 0x33, 0x34, 0x35, 0x36, 0x37, 0x38, 0x39] = 0xcbf43926 := by
  decide +kernel

end ResourceShards.Zip
