/-!
# ResourceShards.Text.Bytes

**Byte sequences.** Documents, archive entries and file paths are sequences of bytes; text is one
of them as soon as it is written in UTF-8. They are lists, so that readers are recursive functions
on them. Besides the two conversions the module holds the cuts that readers are built from: at the
first occurrence of a byte, at its last one, and at the first occurrence of a run of bytes.
-/

namespace ResourceShards

/-- A sequence of bytes. -/
abbrev Bytes := List UInt8

namespace Bytes

/-! ### Text as bytes -/

/-- The bytes of a text in UTF-8. -/
def ofString (s : String) : Bytes :=
  s.toByteArray.data.toList

@[simp] theorem ofString_append (s t : String) : ofString (s ++ t) = ofString s ++ ofString t := by
  simp [ofString]

/-- The text that the bytes spell, if they are UTF-8. -/
def toString? (bytes : Bytes) : Option String :=
  String.fromUTF8? ⟨bytes.toArray⟩

/-- Blank bytes of markup: space, tab, line feed and carriage return. -/
def isBlank (b : UInt8) : Bool :=
  b == 0x20 || b == 0x09 || b == 0x0a || b == 0x0d

/-! ### Cuts -/

/-- What stands before and after the first byte `sep`, if there is one. -/
def cutFirst (sep : UInt8) (bytes : Bytes) : Option (Bytes × Bytes) :=
  match bytes.dropWhile (· != sep) with
  | [] => none
  | _ :: after => some (bytes.takeWhile (· != sep), after)

/-- What stands before and after the last byte `sep`, if there is one. -/
def cutLast (sep : UInt8) (bytes : Bytes) : Option (Bytes × Bytes) :=
  (cutFirst sep bytes.reverse).map fun (after, before) => (before.reverse, after.reverse)

/-- The pieces between the bytes `sep`: one more than there are of them. -/
def splitAll (sep : UInt8) (bytes : Bytes) : List Bytes :=
  let (piece, done) := bytes.foldl
    (fun (piece, done) b => if b == sep then ([], piece.reverse :: done) else (b :: piece, done))
    ([], [])
  (piece.reverse :: done).reverse

/-- `rest` without the run `run` at its front, if it starts with it. -/
def dropRun? : (run rest : Bytes) → Option Bytes
  | [], rest => some rest
  | _ :: _, [] => none
  | a :: run, b :: rest => if a == b then dropRun? run rest else none

/-- What stands before and after the first occurrence of `run`; `seen` holds, last byte first, what
was passed already. -/
def cutRun (run : Bytes) (seen : Bytes) (bytes : Bytes) : Option (Bytes × Bytes) :=
  match dropRun? run bytes with
  | some after => some (seen.reverse, after)
  | none =>
    match bytes with
    | [] => none
    | b :: rest => cutRun run (b :: seen) rest

/-! ### What the cuts keep -/

theorem cutFirst_eq {sep : UInt8} {bytes before after : Bytes}
    (h : cutFirst sep bytes = some (before, after)) : bytes = before ++ sep :: after := by
  unfold cutFirst at h
  have hsplit := List.takeWhile_append_dropWhile (p := (· != sep)) (l := bytes)
  split at h
  · simp at h
  · rename_i b rest hd
    simp only [Option.some.injEq, Prod.mk.injEq] at h
    have hb : b = sep := by
      have := List.head?_dropWhile_not (· != sep) bytes
      rw [hd] at this
      simpa using this
    rw [hd, hb, h.1, h.2] at hsplit
    exact hsplit.symm

theorem not_mem_of_cutFirst {sep : UInt8} {bytes before after : Bytes}
    (h : cutFirst sep bytes = some (before, after)) : sep ∉ before := by
  unfold cutFirst at h
  split at h
  · simp at h
  · simp only [Option.some.injEq, Prod.mk.injEq] at h
    rw [← h.1]
    intro hmem
    have := List.all_takeWhile (p := (· != sep)) (l := bytes)
    simpa using List.all_eq_true.1 this _ hmem

theorem dropRun?_eq {run bytes rest : Bytes} (h : dropRun? run bytes = some rest) :
    bytes = run ++ rest := by
  induction run generalizing bytes with
  | nil => simpa [dropRun?] using h
  | cons a run ih =>
    cases bytes with
    | nil => simp [dropRun?] at h
    | cons b bytes =>
      simp only [dropRun?, beq_iff_eq] at h
      split at h
      · rename_i hab
        rw [ih h, hab, List.cons_append]
      · simp at h

theorem cutRun_eq {run seen bytes before after : Bytes}
    (h : cutRun run seen bytes = some (before, after)) :
    seen.reverse ++ bytes = before ++ run ++ after := by
  induction bytes generalizing seen with
  | nil =>
    unfold cutRun at h
    split at h
    · rename_i rest hrest
      simp only [Option.some.injEq, Prod.mk.injEq] at h
      rw [dropRun?_eq hrest, h.1, h.2, List.append_assoc]
    · simp at h
  | cons b rest ih =>
    unfold cutRun at h
    split at h
    · rename_i tail htail
      simp only [Option.some.injEq, Prod.mk.injEq] at h
      rw [dropRun?_eq htail, h.1, h.2, List.append_assoc]
    · rw [← ih h]
      simp

end Bytes

end ResourceShards
