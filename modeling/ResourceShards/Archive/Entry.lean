import ResourceShards.Error
import ResourceShards.Text.Bytes

/-!
# ResourceShards.Archive.Entry

**Archives.** An archive is a list of entries with different names, in the order in which they were
started. Opening an entry whose name is taken is refused, and leaves the archive as it is.
-/

namespace ResourceShards

/-- How an archive keeps the contents of an entry. -/
inductive Method where
  /-- As they are. -/
  | stored
  /-- Compressed. -/
  | deflated
  deriving DecidableEq, Repr

/-- The name of a method. -/
def Method.name : Method → String
  | .stored => "stored"
  | .deflated => "deflated"

/-- An entry of an archive. -/
structure Entry where
  /-- The name. -/
  name : String
  /-- The contents. -/
  body : Bytes
  /-- How the contents are kept. -/
  method : Method := .deflated
  /-- Whether the entry is a symbolic link. -/
  isLink : Bool := false
  deriving DecidableEq, Repr

namespace Entry

/-- Entries whose name ends as that of a directory hold no file. -/
def isDirectory (e : Entry) : Bool :=
  e.name.toList.getLast? == some '/' || e.name.toList.getLast? == some '\\'

/-- Whether the entry is a file. -/
def isFile (e : Entry) : Bool :=
  !e.isDirectory && !e.isLink

end Entry

/-- An archive: its entries in order. -/
abbrev Archive := List Entry

namespace Archive

/-- The names of the entries. -/
def names (a : Archive) : List String :=
  a.map Entry.name

theorem names_append (a b : Archive) : names (a ++ b) = a.names ++ b.names :=
  List.map_append

/-- Adds an entry, unless its name is taken; `step` tells what for. -/
def add (step : ArchiveStep) (e : Entry) (a : Archive) : Except Error Archive :=
  if a.names.contains e.name then .error (.archive step e.name (.duplicate e.name))
  else .ok (a ++ [e])

theorem add_eq_ok_iff {step : ArchiveStep} {e : Entry} {a b : Archive} :
    a.add step e = .ok b ↔ e.name ∉ a.names ∧ b = a ++ [e] := by
  unfold add
  split
  · rename_i h
    simp only [List.contains_iff_mem] at h
    simp [h]
  · rename_i h
    simp only [List.contains_iff_mem] at h
    simp [h, eq_comm]

/-- Names stay different from each other. -/
theorem nodup_names_add {step : ArchiveStep} {e : Entry} {a b : Archive} (ha : a.names.Nodup)
    (h : a.add step e = .ok b) : b.names.Nodup := by
  obtain ⟨hfresh, rfl⟩ := add_eq_ok_iff.1 h
  simp only [names, List.map_append, List.map_cons, List.map_nil]
  rw [List.nodup_append]
  refine ⟨ha, by simp, ?_⟩
  intro x hx y hy
  simp only [List.mem_singleton] at hy
  subst hy
  rintro rfl
  exact hfresh hx

end Archive

end ResourceShards
