import ResourceShards.Resource.Name

/-!
# ResourceShards.Archive.FreshName

**Names for entries that would clash.** An entry whose name is taken gets a number before its
extension: `strings.xml` becomes `strings_1.xml`, `strings_2.xml` and so on, up to the first name
that is free. The numbers are those of a counter of 32 bits with a sign that is never checked, as it
is in a release build: after 2147483647 it shows -2147483648, and after 0 it begins again. Where the
variants of all its numbers are taken, the search has no end.
-/

namespace ResourceShards.FreshName

/-- A name up to its extension, and the extension with its dot. The extension is that of the last
segment; where that has no dot it is empty. -/
def splitExtension (name : String) : List Char × List Char :=
  let backwards := name.toList.reverse
  match ResourceName.cut '.' (backwards.takeWhile (· != '/')) with
  | none => (name.toList, [])
  | some (extension, _) =>
    ((backwards.drop (extension.length + 1)).reverse, '.' :: extension.reverse)

/-- A name with a number before its extension. -/
def variant (name : String) (n : Int) : String :=
  let (stem, extension) := splitExtension name
  String.ofList stem ++ "_" ++ toString n ++ String.ofList extension

/-- What the counter shows after so many steps. It begins with 1. -/
def counter (steps : Nat) : Int32 :=
  Int32.ofNat (steps + 1)

/-- The first number of the counter whose variant is free. If none of as many numbers as there are
names taken is free, nor the one after them, then the counter has been through all it can show. -/
def number? (taken : List String) (name : String) : Option Int32 :=
  ((List.range (taken.length + 1)).map counter).find? fun n =>
    !taken.contains (variant name n.toInt)

/-- The name itself if it is free, else the first of its variants that is. There is none where the
search has no end. -/
def choose (taken : List String) (name : String) : Option String :=
  if taken.contains name then (number? taken name).map fun n => variant name n.toInt
  else some name

theorem choose_of_not_mem {taken : List String} {name : String} (h : name ∉ taken) :
    choose taken name = some name := by
  simp [choose, h]

/-- A name that is chosen is the name itself or a variant of it. -/
theorem choose_cases {taken : List String} {name entry : String}
    (h : choose taken name = some entry) :
    entry = name ∨ ∃ n : Int, entry = variant name n := by
  unfold choose at h
  split at h
  · obtain ⟨n, -, hentry⟩ := Option.map_eq_some_iff.1 h
    exact .inr ⟨n.toInt, hentry.symm⟩
  · exact .inl (Option.some.inj h).symm

/-- No name is chosen that is taken. -/
theorem not_mem_of_choose {taken : List String} {name entry : String}
    (h : choose taken name = some entry) : entry ∉ taken := by
  unfold choose at h
  split at h
  · obtain ⟨n, hn, rfl⟩ := Option.map_eq_some_iff.1 h
    simpa using List.find?_some hn
  · rename_i hname
    rw [← Option.some.inj h]
    simpa using hname

example : choose ["a.xml", "a_1.xml"] "a.xml" = some "a_2.xml" := by decide +kernel

end ResourceShards.FreshName
