import ResourceShards.Proofs.Archive.FreshName
import ResourceShards.Proofs.Archive.StoredName
import ResourceShards.Proofs.Archive.Writing
import ResourceShards.Proofs.Markup.Spelling

/-!
# ResourceShards.Proofs.Archive.Noting

**Names are noted before they are used.** Writing one source, be it a file or the declarations of
one type in a file, notes one entry name for one type, and puts entries of that name behind those of
some archives of the type. That is so where it fails as well. If the name is new among those that
are noted, and every name in an archive is noted, no archive refuses the entry.

* `Session.Adds`: what writing one source does at most
* `Session.Noted`: archives whose names are noted
* `Session.adds_store`, `Session.adds_storeValues`: one file, the declarations of one file
-/

namespace ResourceShards

open Markup (Attribute Encoder)

/-- The session where something ends, whether it succeeds or fails. -/
def Filing.reached {α : Type} (act : Filing α) (s : Session) : Session :=
  match act s with
  | .ok _ t => t
  | .error _ t => t

namespace Session

/-! ### One name -/

/-- The archives of a type. -/
def archivesOf (s : Session) (type : ResourceType) : List Archive :=
  (s.outputs.get? type).getD []

/-- The entry names that are noted for a type. -/
def takenOf (s : Session) (type : ResourceType) : List String :=
  (s.taken.get? type).getD []

/-- What writing one source does at most: it notes a name, and puts entries of that name behind
those of the archives of one type. -/
structure Adds (type : ResourceType) (name : String) (s t : Session) : Prop where
  /-- What is noted stays noted. -/
  kept : ∀ other, s.takenOf other ⊆ t.takenOf other
  /-- Nothing but the name is noted. -/
  noted : ∀ other entry, entry ∈ t.takenOf other →
    entry ∈ s.takenOf other ∨ (other = type ∧ entry = name)
  /-- No entry has another name, and none has this one before it is noted. -/
  written : ∀ other, ∃ more, t.archivesOf other = appendAll more (s.archivesOf other) ∧
    ∀ index, more index = [] ∨
      (other = type ∧ name ∈ t.takenOf type ∧ ∃ e : Entry, e.name = name ∧ more index = [e])

/-- Every name in an archive is noted, and no archive has a name twice. -/
def Noted (s : Session) : Prop :=
  ∀ type, ∀ a ∈ s.archivesOf type, a.names ⊆ s.takenOf type ∧ a.names.Nodup

theorem takenOf_take (type other : ResourceType) (entry : String) (s : Session) :
    (s.take type entry).takenOf other =
      if type = other then entry :: s.takenOf other else s.takenOf other := by
  unfold takenOf take Table.alter
  rw [Table.get?_insert]
  by_cases heq : type = other
  · rw [if_pos heq, if_pos heq, heq]
    rfl
  · rw [if_neg heq, if_neg heq]

namespace Adds

variable {type : ResourceType} {name : String}

theorem refl (type : ResourceType) (name : String) (s : Session) : Adds type name s s where
  kept := fun _ _ h => h
  noted := fun _ _ h => .inl h
  written := fun _ => ⟨fun _ => [], (appendAll_nil _).symm, fun _ => .inl rfl⟩

/-- `Adds` is true if the name is noted, and at most one entry of the name is put behind each
archive of its type. -/
theorem of_outputs {s t : Session} (more : Nat → List Entry)
    (htaken : t.taken = (s.take type name).taken)
    (harchives : ∀ other, t.archivesOf other =
      if other = type then appendAll more (s.archivesOf type) else s.archivesOf other)
    (hmore : ∀ index, more index = [] ∨ ∃ e : Entry, e.name = name ∧ more index = [e]) :
    Adds type name s t := by
  have hnoted : ∀ other, t.takenOf other =
      if type = other then name :: s.takenOf other else s.takenOf other := by
    intro other
    rw [← takenOf_take]
    unfold takenOf
    rw [htaken]
  refine ⟨fun other entry hentry => ?_, fun other entry hentry => ?_, fun other => ?_⟩
  · rw [hnoted]
    split
    · exact List.mem_cons_of_mem _ hentry
    · exact hentry
  · rw [hnoted] at hentry
    split at hentry
    · rename_i heq
      exact (List.mem_cons.1 hentry).symm.imp_right fun h => ⟨heq.symm, h⟩
    · exact .inl hentry
  · rw [harchives]
    by_cases heq : other = type
    · subst heq
      rw [if_pos rfl]
      refine ⟨more, rfl, fun index => (hmore index).imp_right fun h => ⟨rfl, ?_, h⟩⟩
      rw [hnoted, if_pos rfl]
      exact List.mem_cons_self
    · rw [if_neg heq]
      exact ⟨fun _ => [], (appendAll_nil _).symm, fun _ => .inl rfl⟩

theorem of_take (type : ResourceType) (name : String) (s : Session) :
    Adds type name s (s.take type name) := by
  refine of_outputs (fun _ => []) rfl (fun other => ?_) fun _ => .inl rfl
  rw [appendAll_nil]
  split
  · rename_i heq
    rw [heq]
    rfl
  · rfl

theorem of_insert {s t : Session} {archives : List Archive} {more : Nat → List Entry}
    (harchives : s.outputs.get? type = some archives)
    (htaken : t.taken = (s.take type name).taken)
    (houtputs : t.outputs = s.outputs.insert type (appendAll more archives))
    (hmore : ∀ index, more index = [] ∨ ∃ e : Entry, e.name = name ∧ more index = [e]) :
    Adds type name s t := by
  refine of_outputs more htaken (fun other => ?_) hmore
  unfold archivesOf
  rw [houtputs, Table.get?_insert, harchives]
  by_cases heq : other = type
  · rw [if_pos heq, if_pos heq.symm]
    rfl
  · rw [if_neg heq, if_neg fun h => heq h.symm]

/-- If a session is `Noted` and `Adds` a name that is new, it is still `Noted`. -/
theorem toNoted {s t : Session} (h : Adds type name s t) (hnew : name ∉ s.takenOf type)
    (hs : s.Noted) : t.Noted := by
  intro other a ha
  obtain ⟨more, harchives, hmore⟩ := h.written other
  rw [harchives, appendAll] at ha
  obtain ⟨index, hindex, rfl⟩ := List.mem_mapIdx.1 ha
  obtain ⟨hsubset, hdistinct⟩ := hs other _ (List.getElem_mem hindex)
  rcases hmore index with hnil | ⟨rfl, hname, e, rfl, hone⟩
  · rw [hnil, List.append_nil]
    exact ⟨fun entry hentry => h.kept other (hsubset hentry), hdistinct⟩
  · rw [hone]
    refine ⟨fun entry hentry => ?_, nodup_names_append hdistinct fun hmem => hnew (hsubset hmem)⟩
    rw [Archive.names_append, List.mem_append] at hentry
    rcases hentry with hold | hentry
    · exact h.kept other (hsubset hold)
    · rw [List.mem_singleton.1 hentry]
      exact hname

end Adds

/-! ### Files -/

/-- Putting an entry where a file is `Placed` `Adds` its name. -/
theorem Placed.adds {s : Session} {file : ResourceFile} {name : ResourceName}
    {archives : List Archive} {index : Nat} {a : Archive} (h : s.Placed file name archives index a)
    (body : Bytes) :
    Adds file.type file.entryName s
      ((s.take file.type file.entryName).setArchive file.type archives index
        (a ++ [{ name := file.entryName, body }])) := by
  have houtputs : s.outputs.insert file.type
      (archives.set index (a ++ [{ name := file.entryName, body }])) =
      s.outputs.insert file.type (appendAll
        (fun other => if other = index then [{ name := file.entryName, body }] else []) archives) :=
    by rw [set_eq_appendAll _ h.found]
  refine .of_insert h.typed rfl houtputs fun other => ?_
  split
  · exact .inr ⟨_, rfl, rfl⟩
  · exact .inl rfl

/-- `store` notes the file's entry name. An archive that refuses the file has an entry of that
name. -/
theorem adds_store (file : ResourceFile) (contents : Except OsError Bytes) (s : Session) :
    Adds file.type file.entryName s (Filing.reached (store file contents) s) ∧
      ∀ e t, store file contents s = .error e t →
        (∀ a ∈ s.archivesOf file.type, file.entryName ∉ a.names) → ¬e.IsDuplicate := by
  have hends := storeEnds file contents s
  rw [Filing.reached]
  generalize store file contents s = result at hends
  cases hends with
  | hidden h => exact ⟨.refl _ _ _, fun e t h => nomatch h⟩
  | homeless h =>
      refine ⟨.refl _ _ _, fun e t heq _ => ?_⟩
      cases heq
      exact h
  | @refused name archives index a e hplace h =>
      refine ⟨.of_take _ _ _, fun e t heq hnew => absurd h (hnew a ?_)⟩
      rw [archivesOf, hplace.typed]
      exact List.mem_of_getElem? hplace.found
  | unreadable hplace hnew h =>
      refine ⟨hplace.adds [], fun e t heq _ => ?_⟩
      cases heq
      exact h
  | written hplace hnew h => exact ⟨hplace.adds _, fun e t h => nomatch h⟩

/-- `storeFrom` notes the file's entry name as `store` does, where the file can be opened. -/
theorem adds_storeFrom (look : Look Bytes) (file : ResourceFile) (s : Session) :
    Adds file.type file.entryName s (Filing.reached (storeFrom look file) s) ∧
      ∀ e t, storeFrom look file s = .error e t →
        (∀ a ∈ s.archivesOf file.type, file.entryName ∉ a.names) → ¬e.IsDuplicate := by
  unfold storeFrom
  cases look file.path with
  | error reason =>
      refine ⟨.refl _ _ _, fun e t heq _ => ?_⟩
      cases heq
      rintro ⟨_, _, _, ⟨⟩⟩
  | ok found => exact adds_store file found.contents s

/-! ### Declarations -/

theorem distribute_error {sharder : Sharder} {shards : Nat} {payloads : List (String × Bytes)}
    {placed : List (Nat × Bytes)} {e : Error}
    (h : distribute sharder shards payloads = (placed, .error e)) : ¬e.IsDuplicate := by
  induction payloads generalizing placed with
  | nil => cases h
  | cons entry payloads ih =>
      obtain ⟨key, payload⟩ := entry
      rw [distribute] at h
      cases hshard : sharder.shard key shards with
      | error e' =>
          rw [hshard] at h
          cases h
          exact Sharder.not_isDuplicate_of_shard hshard
      | ok index =>
          cases hrest : distribute sharder shards payloads with
          | mk others outcome =>
              simp only [hshard, hrest] at h
              obtain ⟨rfl, rfl⟩ := Prod.mk.inj h
              exact ih hrest

/-- A failure of `resourcesTag` is not that of a duplicate. -/
theorem resourcesTag_error {attributes : List Attribute} {e : Error}
    (h : resourcesTag attributes = .error e) : ¬e.IsDuplicate := by
  have hwritten := Encoder.at_start.encodeStart ⟨Tag.resources, attributes⟩
  unfold resourcesTag at h
  simp only [Encoder.encode] at h
  split at hwritten
  · obtain ⟨e', hstart, -⟩ := hwritten
    rw [hstart] at h
    cases h
  · obtain ⟨text, e', space, hstart⟩ := hwritten
    rw [hstart] at h
    cases h
    rintro ⟨_, _, _, ⟨⟩⟩

/-- `storeValues` leaves the session as it is, or adds entries of the name that is chosen, also
where it fails. -/
theorem reached_storeValues (type : ResourceType) (held : Holding) (s : Session) :
    Filing.reached (storeValues type held) s = s ∨
      ∃ entry, FreshName.choose (s.takenOf type) held.source.entryName = some entry ∧
        Adds type entry s (Filing.reached (storeValues type held) s) := by
  have hend := valuesEnd type held s
  rw [Filing.reached]
  generalize storeValues type held s = result at hend
  cases hend with
  | untagged h => exact .inl rfl
  | endless h => exact .inl rfl
  | homeless hchosen => exact .inr ⟨_, hchosen, .of_take _ _ _⟩
  | refused hchosen hout hheld =>
      refine .inr ⟨_, hchosen, .of_insert hout rfl rfl fun index => ?_⟩
      split
      · exact .inr ⟨_, rfl, rfl⟩
      · exact .inl rfl
  | homelessDeclaration hchosen hout h =>
      exact .inr ⟨_, hchosen, .of_insert hout rfl rfl fun _ => .inr ⟨_, rfl, rfl⟩⟩
  | written hchosen hout hdocument hnew =>
      exact .inr ⟨_, hchosen, .of_insert hout rfl rfl fun _ => .inr ⟨_, rfl, rfl⟩⟩

/-- `storeValues` notes one name that was not noted before, at most. If all names in the archives of
the type are noted, they refuse none of its entries. -/
theorem adds_storeValues {s : Session} (hs : s.Noted) (type : ResourceType) (held : Holding) :
    (∃ entry, entry ∉ s.takenOf type ∧
      Adds type entry s (Filing.reached (storeValues type held) s)) ∧
      ∀ e t, storeValues type held s = .error e t → ¬e.IsDuplicate := by
  refine ⟨?_, fun e t hfailed => ?_⟩
  · rcases reached_storeValues type held s with hsame | ⟨entry, hchosen, hadds⟩
    · obtain ⟨n, -, hunused⟩ := FreshName.exists_unused (s.takenOf type) held.source.entryName
      rw [hsame]
      exact ⟨_, hunused, .refl _ _ _⟩
    · exact ⟨entry, FreshName.not_mem_of_choose hchosen, hadds⟩
  · have hend := valuesEnd type held s
    rw [hfailed] at hend
    cases hend with
    | untagged h =>
        rw [Error.isDuplicate_withLabel]
        exact resourcesTag_error h
    | endless h => rintro ⟨_, _, _, ⟨⟩⟩
    | homeless hchosen => rintro ⟨_, _, _, ⟨⟩⟩
    | refused hchosen hout hheld =>
        obtain ⟨a, ha, hmem⟩ := hheld
        have harchive : a ∈ s.archivesOf type := by
          rwa [archivesOf, hout]
        exact absurd ((hs type a harchive).1 hmem) (FreshName.not_mem_of_choose hchosen)
    | homelessDeclaration hchosen hout h => exact distribute_error h

end Session

end ResourceShards
