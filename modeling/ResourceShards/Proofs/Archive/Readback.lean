import ResourceShards.Proofs.Archive.EntryNames
import ResourceShards.Proofs.Archive.FreshName
import ResourceShards.Proofs.Resource.EntryName

/-!
# ResourceShards.Proofs.Archive.Readback

**Entries are told apart as their files are.** What a session writes for a file goes into entries
that have the name of the file's entry, or a variant of it where that is in use. The number of a
variant stands in the name of the file, behind its first character and in front of its extension.
So the name still leads through the directory of the file, and is read as a file of the same kind.

* `ResourceFile.IsShown.variant`: a number hides no file
* `Session.name_of_mem_added`: under which names a source is written
* `Session.entries_readAlike`: all of them are read as the file is
-/

namespace ResourceShards

/-! ### Variants of names -/

/-- A `variant` of a name that `IsShown` is one too. -/
theorem ResourceFile.IsShown.variant {name : String} (h : IsShown name) (n : Int) :
    IsShown (FreshName.variant name n) := by
  obtain ⟨hall, hextension⟩ := FreshName.splitExtension_append name
  have hchars : (FreshName.variant name n).toList =
      (FreshName.splitExtension name).1 ++ '_' :: (toString n).toList ++
        (FreshName.splitExtension name).2 := by
    simp [FreshName.variant]
  generalize (FreshName.splitExtension name).1 = stem at hall hchars
  generalize (FreshName.splitExtension name).2 = extension at hall hextension hchars
  -- the name does not begin with a dot, so there is something in front of the number
  obtain ⟨c, rest, rfl⟩ : ∃ c rest, stem = c :: rest := by
    refine List.exists_cons_of_ne_nil ?_
    rintro rfl
    rcases hextension with rfl | hdot
    · exact h.ne_empty (String.toList_injective hall.symm)
    · exact h.dot (hall ▸ hdot)
  refine ⟨?_, ?_, ?_⟩
  · intro hempty
    rw [hempty] at hchars
    cases hchars
  · rw [hchars]
    intro hmem
    have hslash := h.slash
    rw [← hall] at hslash
    simp only [List.mem_append, List.mem_cons] at hmem hslash
    rcases hmem with (hstem | hunderscore | hnumber) | hext
    · exact hslash (.inl hstem)
    · exact absurd hunderscore (by decide)
    · exact FreshName.slash_not_mem_toString n hnumber
    · exact hslash (.inr hext)
  · have hdot := h.dot
    rw [← hall] at hdot
    rw [hchars]
    exact hdot

namespace ResourceFile

/-- The name of an entry `ReadsAlike`. -/
theorem readsAlike_entryName {path : Path} {file : ResourceFile} (h : ofPath path = .ok file)
    (hname : path.fileName?.isSome) : file.ReadsAlike file.entryName := by
  obtain ⟨front, name, hentry, hshown, halike⟩ := entryName_parts h hname
  rw [hentry]
  exact halike name hshown

/-- Every `variant` of the name of an entry `ReadsAlike`. -/
theorem readsAlike_variant {path : Path} {file : ResourceFile} (h : ofPath path = .ok file)
    (hname : path.fileName?.isSome) (n : Int) :
    file.ReadsAlike (FreshName.variant file.entryName n) := by
  obtain ⟨front, name, hentry, hshown, halike⟩ := entryName_parts h hname
  rw [hentry, FreshName.variant_inside _ hshown.slash]
  exact halike _ (hshown.variant n)

/-- What `choose` gives for the name of an entry `ReadsAlike`. -/
theorem readsAlike_of_choose {path : Path} {file : ResourceFile} (h : ofPath path = .ok file)
    (hname : path.fileName?.isSome) {taken : List String} {entry : String}
    (hchosen : FreshName.choose taken file.entryName = some entry) : file.ReadsAlike entry := by
  rcases FreshName.choose_cases hchosen with rfl | ⟨n, rfl⟩
  · exact readsAlike_entryName h hname
  · exact readsAlike_variant h hname n

end ResourceFile

namespace Session

/-! ### Names of a source -/

/-- The file that a source is out of. -/
def Source.origin : Source → ResourceFile
  | .file f => f
  | .declarations _ held => held.source

theorem after_of_mem_turns {look : Look Bytes} {sources : List Source} {s : Session} {turn : Turn}
    (h : turn ∈ turns look sources s) :
    turn.after = Filing.reached (turn.source.write look) turn.before := by
  induction sources generalizing s with
  | nil => exact absurd h List.not_mem_nil
  | cons source rest ih =>
      rw [turns] at h
      cases hwrite : source.write look s with
      | ok u t =>
          rw [hwrite] at h
          rcases List.mem_cons.1 h with rfl | h
          · rw [Filing.reached, hwrite]
          · exact ih h
      | error e t =>
          rw [hwrite] at h
          rw [List.mem_singleton.1 h, Filing.reached, hwrite]

theorem after_of_mem_closing {look : Look Bytes} {s : Session} {turn : Turn}
    (h : turn ∈ closing look s) :
    turn.after = Filing.reached (turn.source.write look) turn.before := by
  unfold closing at h
  split at h
  · rcases List.mem_append.1 h with h | h <;> exact after_of_mem_turns h
  · exact after_of_mem_turns h

/-- A turn that leaves the session as it is has nothing `added`. -/
theorem not_mem_added_of_eq {turn : Turn} (h : turn.after = turn.before) {type : ResourceType}
    {name : String} : name ∉ turn.added type := by
  have hkept : turn.after.archivesOf type =
      appendAll (fun _ => []) (turn.before.archivesOf type) := by
    rw [h, appendAll_nil]
  intro hname
  obtain ⟨index, -, hmem⟩ := (Turn.mem_added hkept).1 hname
  exact absurd hmem List.not_mem_nil

/-- What is `added` in a `closing` turn is a name that `choose` gave for the entry name of its
source. -/
theorem name_of_mem_added {look : Look Bytes} {s : Session} {turn : Turn}
    (h : turn ∈ closing look s) {type : ResourceType} {name : String}
    (hname : name ∈ turn.added type) :
    ∃ taken, FreshName.choose taken turn.source.origin.entryName = some name := by
  have hafter := after_of_mem_closing h
  cases hsource : turn.source with
  | file f =>
      have hadds : Adds f.type f.entryName turn.before turn.after := by
        rw [hafter, hsource]
        exact (adds_storeFrom look f turn.before).1
      obtain ⟨-, rfl, -⟩ := hadds.of_mem_added hname
      exact ⟨[], FreshName.choose_of_not_mem List.not_mem_nil⟩
  | declarations type held =>
      have hreached := reached_storeValues type held turn.before
      rw [hsource, Source.write] at hafter
      rw [← hafter] at hreached
      rcases hreached with hsame | ⟨entry, hchosen, hadds⟩
      · exact absurd hname (not_mem_added_of_eq hsame)
      · obtain ⟨-, rfl, -⟩ := hadds.of_mem_added hname
        exact ⟨_, hchosen⟩

/-- **Entries are named like the files they come from.** A file that `ofPath` makes of a path with a
name `ReadsAlike` the name of its entry and every variant of it, whatever the number, and what
`FreshName.choose` gives for it, whatever names are in use. In any close of any session it
is written under such names, for the file as a resource and for the declarations in it. -/
theorem entries_readAlike {path : Path} {file : ResourceFile}
    (h : ResourceFile.ofPath path = .ok file) (hname : path.fileName?.isSome) :
    (∀ name, (name = file.entryName ∨ (∃ n, name = FreshName.variant file.entryName n) ∨
        ∃ taken, FreshName.choose taken file.entryName = some name) → file.ReadsAlike name) ∧
      ∀ (look : Look Bytes) (s : Session), ∀ turn ∈ closing look s, turn.source.origin = file →
        ∀ type, ∀ name ∈ turn.added type, file.ReadsAlike name := by
  refine ⟨?_, ?_⟩
  · rintro name (rfl | ⟨n, rfl⟩ | ⟨taken, hchosen⟩)
    · exact ResourceFile.readsAlike_entryName h hname
    · exact ResourceFile.readsAlike_variant h hname n
    · exact ResourceFile.readsAlike_of_choose h hname hchosen
  · intro look s turn hturn horigin type name hadded
    obtain ⟨taken, hchosen⟩ := name_of_mem_added hturn hadded
    rw [horigin] at hchosen
    exact ResourceFile.readsAlike_of_choose h hname hchosen

/-- A file in a directory that is in the root, with two dots in its name, which is in use. -/
theorem entries_readAlike_rooted :
    let path := Path.ofString "/values-xhdpi/strings.en.xml"
    let file : ResourceFile := ⟨path, .ofString "/", "values-xhdpi", .values, "xhdpi", ⟨320⟩⟩
    ResourceFile.ofPath path = .ok file ∧ path.fileName?.isSome ∧
      FreshName.choose [file.entryName] file.entryName =
        some "//values-xhdpi/strings.en_1.xml" ∧
      file.ReadsAlike "//values-xhdpi/strings.en_1.xml" := by
  intro path file
  have hread : ResourceFile.ofPath path = .ok file := by decide +kernel
  have hname : path.fileName?.isSome := by decide
  have hchosen : FreshName.choose [file.entryName] file.entryName =
      some "//values-xhdpi/strings.en_1.xml" := by decide +kernel
  exact ⟨hread, hname, hchosen, (entries_readAlike hread hname).1 _ (.inr (.inr ⟨_, hchosen⟩))⟩

end Session

end ResourceShards
