import ResourceShards.Error
import ResourceShards.Text.Bytes

/-!
# ResourceShards.Sharding.Sharder

**Which shard a key belongs to.** A sharder is a named function from a key and a number of shards to
the index of a shard. It may be any function at all; what it answers is checked, so that a sharder
out of range stops a run and never writes to a wrong place.

* `Sharder.shard`: the checked answer
* `Sharder.fnv`: the usual sharder, by a hash of the whole key
* `Sharder.withSeparator`: a sharder that looks at the front of a key only
-/

namespace ResourceShards

/-- A named function from keys to shards. -/
structure Sharder where
  /-- The name, for messages. -/
  name : String
  /-- The index of a key's shard among a number of shards. -/
  assign : String → Nat → Nat

namespace Sharder

/-- The shard of a key. -/
def shard (s : Sharder) (key : String) (shards : Nat) : Except Error Nat :=
  if shards = 0 then .error (.badShard s.name key shards 0)
  else if s.assign key shards < shards then .ok (s.assign key shards)
  else .error (.badShard s.name key shards (s.assign key shards))

/-- A sharder answers with the index of a shard, or not at all. -/
theorem lt_of_shard {s : Sharder} {key : String} {shards index : Nat}
    (h : s.shard key shards = .ok index) : index < shards := by
  unfold shard at h
  split at h
  · simp at h
  · split at h
    · simp only [Except.ok.injEq] at h
      omega
    · simp at h

theorem shard_eq_ok_iff {s : Sharder} {key : String} {shards index : Nat} :
    s.shard key shards = .ok index ↔ s.assign key shards = index ∧ index < shards := by
  unfold shard
  split
  · rename_i h
    simp [h]
  · split
    · rename_i h
      simp only [Except.ok.injEq]
      constructor
      · rintro rfl
        exact ⟨rfl, h⟩
      · exact And.left
    · rename_i h
      simp only [reduceCtorEq, false_iff, not_and]
      rintro rfl
      exact h

/-! ### Hashing -/

/-- The hash of no bytes. -/
def hashBasis : UInt32 := 2166136261

/-- What a hash is multiplied with before it takes in a byte. -/
def hashPrime : UInt32 := 16777619

/-- The 32-bit FNV-1 hash: for each byte the hash is multiplied, then the byte is added without
carry. -/
def hash (bytes : Bytes) : UInt32 :=
  bytes.foldl (fun h b => h * hashPrime ^^^ b.toUInt32) hashBasis

/-- Spreads keys by the hash of their bytes. -/
def fnv : Sharder where
  name := "fnv"
  assign key shards := (hash (Bytes.ofString key)).toNat % shards

/-! ### Fronts of keys -/

/-- What stands before the last occurrence of `run`. -/
def beforeLast? (run : List Char) : List Char → Option (List Char)
  | [] => none
  | c :: rest =>
    match beforeLast? run rest with
    | some before => some (c :: before)
    | none => if run.isPrefixOf (c :: rest) then some [] else none

/-- The key up to the last occurrence of a separator. A key without the separator is kept whole, and
so is every key if the separator is empty. -/
def front (separator key : String) : String :=
  if separator == "" then key
  else
    match beforeLast? separator.toList key.toList with
    | some before => String.ofList before
    | none => key

/-- Spreads keys as `inner` spreads their fronts. -/
def withSeparator (separator : String) (inner : Sharder) : Sharder where
  name := inner.name ++ "@" ++ Text.quote separator
  assign key shards := inner.assign (front separator key) shards

/-- The sharder in words. -/
def describe (s : Sharder) : String :=
  "Sharder \x7b name: " ++ Text.quote s.name ++ " \x7d"

end Sharder

end ResourceShards
