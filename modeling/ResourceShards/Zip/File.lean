import ResourceShards.Archive.Entry
import ResourceShards.Text.Utf8
import ResourceShards.Zip.Checksum
import ResourceShards.Zip.Deflate

/-!
# ResourceShards.Zip.File

**Archives as files.** A file holds the contents of the entries, each after a short header, then a
directory of all entries and at last the place of that directory. Times are always the same, so that
equal archives are equal files.

* `Zip.encode`: an archive as a file
* `Zip.decode`: the archive in a file
-/

namespace ResourceShards.Zip

open Deflate (twoBytes)

/-- A number in four bytes, low byte first. -/
def fourBytes (n : Nat) : Bytes :=
  twoBytes n ++ twoBytes (n / 65536)

/-- What a local header begins with. -/
def localMark : Nat := 0x04034b50

/-- What an entry of the directory begins with. -/
def centralMark : Nat := 0x02014b50

/-- What the end of the directory begins with. -/
def endMark : Nat := 0x06054b50

/-- The first day that can be given. -/
def earliestDay : Nat := 0x21

/-- The number of a method. -/
def methodNumber : Method → Nat
  | .stored => 0
  | .deflated => 8

/-- The kind and rights of an entry. -/
def modeOf (e : Entry) : Nat :=
  if e.isLink then 0o120777 else 0o100644

/-- The contents of an entry as they are kept. -/
def packed (e : Entry) : Bytes :=
  match e.method with
  | .stored => e.body
  | .deflated => Deflate.wrap e.body

/-- What both headers of an entry tell, from the version that is needed on. -/
def commonHeader (e : Entry) : Bytes :=
  let name := Bytes.ofString e.name
  twoBytes 20 ++ twoBytes 0x800 ++ twoBytes (methodNumber e.method) ++ twoBytes 0 ++
    twoBytes earliestDay ++ fourBytes (checksum e.body).toNat ++
    fourBytes (packed e).length ++ fourBytes e.body.length ++ twoBytes name.length ++ twoBytes 0

/-- The header and contents of an entry. -/
def localPart (e : Entry) : Bytes :=
  fourBytes localMark ++ commonHeader e ++ Bytes.ofString e.name ++ packed e

/-- What the directory holds of an entry whose header stands at `offset`. -/
def centralPart (e : Entry) (offset : Nat) : Bytes :=
  fourBytes centralMark ++ twoBytes (3 * 256 + 20) ++ commonHeader e ++ twoBytes 0 ++ twoBytes 0 ++
    twoBytes 0 ++ fourBytes (modeOf e * 65536) ++ fourBytes offset ++ Bytes.ofString e.name

/-- The headers and contents of entries from `offset` on, and the directory of them. -/
def parts (offset : Nat) : Archive → Bytes × Bytes
  | [] => ([], [])
  | e :: rest =>
    let here := localPart e
    let (contents, directory) := parts (offset + here.length) rest
    (here ++ contents, centralPart e offset ++ directory)

/-- An archive as a file. -/
def encode (a : Archive) : Bytes :=
  let (contents, directory) := parts 0 a
  contents ++ directory ++ fourBytes endMark ++ twoBytes 0 ++ twoBytes 0 ++ twoBytes a.length ++
    twoBytes a.length ++ fourBytes directory.length ++ fourBytes contents.length ++ twoBytes 0

/-! ### Reading -/

/-- The number in some bytes, low byte first. -/
def number? (data : ByteArray) (place : Nat) : (width : Nat) → Option Nat
  | 0 => some 0
  | width + 1 => do
    let byte ← data[place]?
    return byte.toNat + 256 * (← number? data (place + 1) width)

/-- The bytes from one place to another. -/
def slice? (data : ByteArray) (start length : Nat) : Option ByteArray :=
  if start + length ≤ data.size then some (data.extract start (start + length)) else none

/-- The contents of an entry that are kept by a method of some number. -/
def unpack (method : Nat) (kept : ByteArray) : Option (Method × ByteArray) :=
  match method with
  | 0 => some (.stored, kept)
  | 8 => (Deflate.inflate kept).map fun body => (.deflated, body)
  | _ => none

/-- The entry that the directory tells of at a place, and the place of the next one. -/
def entryAt (data : ByteArray) (place : Nat) : Option (Entry × Nat) := do
  if (← number? data place 4) ≠ centralMark then none
  let host ← number? data (place + 5) 1
  let method ← number? data (place + 10) 2
  let check ← number? data (place + 16) 4
  let size ← number? data (place + 20) 4
  let nameLength ← number? data (place + 28) 2
  let extraLength ← number? data (place + 30) 2
  let commentLength ← number? data (place + 32) 2
  let mode ← number? data (place + 40) 2
  let offset ← number? data (place + 42) 4
  let name ← slice? data (place + 46) nameLength
  if (← number? data offset 4) ≠ localMark then none
  let skipped := (← number? data (offset + 26) 2) + (← number? data (offset + 28) 2)
  let kept ← slice? data (offset + 30 + skipped) size
  let (method, body) ← unpack method kept
  let body := body.data.toList
  if (checksum body).toNat ≠ check then none
  let isLink := host == 3 && mode / 0o10000 == 0o12
  return ({ name := Utf8.decodeLossy name.data.toList, body, method, isLink },
    place + 46 + nameLength + extraLength + commentLength)

/-- Some entries that the directory tells of from a place on. -/
def entriesFrom (data : ByteArray) : (count place : Nat) → Option Archive
  | 0, _ => some []
  | count + 1, place => do
    let (e, next) ← entryAt data place
    return e :: (← entriesFrom data count next)

/-- The last place at which the end of a directory can stand, looked for from `place` down. -/
def endAt? (data : ByteArray) : (place : Nat) → Option Nat
  | 0 => if number? data 0 4 == some endMark then some 0 else none
  | place + 1 =>
    if number? data (place + 1) 4 == some endMark then some (place + 1) else endAt? data place

/-- The archive in a file, unless it holds none. -/
def decode (bytes : Bytes) : Option Archive := do
  let data : ByteArray := ⟨bytes.toArray⟩
  if data.size < 22 then none
  let place ← endAt? data (data.size - 22)
  let count ← number? data (place + 10) 2
  let directory ← number? data (place + 16) 4
  entriesFrom data count directory

end ResourceShards.Zip
