import Mathlib.Data.List.Infix
import ResourceShards.Archive.Close
import ResourceShards.Proofs.Files.Path
import ResourceShards.Proofs.Resource.FullForm
import ResourceShards.Proofs.Runs
import ResourceShards.Proofs.Text.Utf8

/-!
# ResourceShards.Proofs.Archive.StoredName

**The resource that a file is.** Its name is read from the name of the file, as references are read,
and a reference may give a type of its own behind a `/`. File names have none, not even where broken
bytes are replaced, so the resource has the type of the file.

* `Session.type_of_storedName`: the resource has the type of its file
* `Session.store_eq`: writing a file, with every way in which it ends
-/

namespace ResourceShards

/-- Whether a failure is that of an archive which has an entry of the name already. -/
def Error.IsDuplicate (e : Error) : Prop :=
  ∃ step entry name, e.root = .archive step entry (.duplicate name)

theorem Error.isDuplicate_withLabel {e : Error} {label : String} :
    (e.withLabel label).IsDuplicate ↔ e.IsDuplicate := by
  rw [IsDuplicate, IsDuplicate, Error.root_withLabel]

/-! ### Names of resources -/

namespace ResourceName

theorem mem_of_mem_dropSigil {raw : String} {c : Char} (h : c ∈ dropSigil raw) :
    c ∈ raw.toList := by
  unfold dropSigil at h
  split at h
  · rename_i first rest hraw
    rw [hraw]
    split at h
    · exact List.mem_cons_of_mem _ h
    · exact h
  · exact absurd h List.not_mem_nil

/-- A reference without a `/` gives no type: it is a name, or a package and a name. -/
theorem parts_of_not_slash {raw : String} {context type : ResourceType} {package name : List Char}
    (hraw : '/' ∉ raw.toList) (h : parts raw context = .ok (package, type, name)) :
    type = context ∧
      (package = [] ∧ dropSigil raw = name ∨ dropSigil raw = package ++ ':' :: name) := by
  obtain ⟨form, -, hchars, hparts⟩ := exists_form_of_parts h
  have hnone : '/' ∉ form.chars := by
    intro hmem
    rw [hchars] at hmem
    exact hraw (mem_of_mem_dropSigil hmem)
  cases form with
  | bare name =>
      cases hparts
      exact ⟨rfl, .inl ⟨rfl, hchars.symm⟩⟩
  | packaged package name =>
      cases hparts
      exact ⟨rfl, .inr hchars.symm⟩
  | typed type name => exact absurd (by simp [Form.chars]) hnone
  | full package type name => exact absurd (by simp [Form.chars]) hnone
  | typeFirst type package name => exact absurd (by simp [Form.chars]) hnone

theorem type_of_read {raw : String} {context : ResourceType} {n : ResourceName}
    (hraw : '/' ∉ raw.toList) (h : read raw context = .ok n) : n.type = context := by
  rw [read_eq] at h
  split at h
  · cases h
  · rename_i package type name hparts
    split at h
    · cases h
    · split at h
      · cases h
      · cases h
        exact (parts_of_not_slash hraw hparts).1

/-- Why a reference can not be read. -/
inductive Unreadable (raw : String) (context : ResourceType) : Error → Prop where
  /-- A part in front of a separator is empty, or there is one separator too many. -/
  | malformed : Unreadable raw context (.malformedName raw)
  /-- It names a type that there is not. -/
  | unknownType (text : String) : Unreadable raw context (.unknownType text)
  /-- It gives no type, and none goes without saying. -/
  | undeterminedType : Unreadable raw context (.undeterminedType raw context)
  /-- It gives no name. -/
  | undeterminedName : Unreadable raw context (.undeterminedName raw context)

/-- A failure behind `readType` makes a name `Unreadable` if each failure of `f` does. -/
theorem unreadable_of_bind {α : Type} {raw : String} {context : ResourceType} {chars : List Char}
    {f : ResourceType → Except Error α} {e : Error} (h : (readType chars >>= f) = .error e)
    (hf : ∀ type, f type = .error e → Unreadable raw context e) : Unreadable raw context e := by
  unfold readType at h
  split at h
  · exact hf _ h
  · cases h
    exact .unknownType _

theorem unreadable_of_parts {raw : String} {context : ResourceType} {e : Error}
    (h : parts raw context = .error e) : Unreadable raw context e := by
  unfold parts at h
  simp only at h
  split at h
  · cases h
    exact .malformed
  · cases h
    exact .malformed
  · cases h
  · cases h
  · refine unreadable_of_bind h fun type h => ?_
    cases h
  · split at h
    · refine unreadable_of_bind h fun type h => ?_
      cases h
    · refine unreadable_of_bind h fun type h => ?_
      split at h
      · cases h
        exact .malformed
      · cases h

theorem unreadable_of_read {raw : String} {context : ResourceType} {e : Error}
    (h : read raw context = .error e) : Unreadable raw context e := by
  rw [read_eq] at h
  split at h
  · rename_i hparts
    cases h
    exact unreadable_of_parts hparts
  · split at h
    · cases h
      exact .undeterminedType
    · split at h
      · cases h
        exact .undeterminedName
      · cases h

theorem Unreadable.not_isDuplicate {raw : String} {context : ResourceType} {e : Error}
    (h : Unreadable raw context e) : ¬e.IsDuplicate := by
  intro hduplicate
  obtain ⟨step, entry, name, hroot⟩ := hduplicate
  cases h <;> cases hroot

end ResourceName

/-- A failure of `shard` is not that of a duplicate. -/
theorem Sharder.not_isDuplicate_of_shard {sharder : Sharder} {key : String} {shards : Nat}
    {e : Error} (h : sharder.shard key shards = .error e) : ¬e.IsDuplicate := by
  unfold shard at h
  split at h
  · cases h
    rintro ⟨_, _, _, ⟨⟩⟩
  · split at h
    · cases h
    · cases h
      rintro ⟨_, _, _, ⟨⟩⟩

namespace Session

/-- The front of a file name has no `/`, whatever the bytes of the name are. -/
theorem slash_not_mem_stem (file : ResourceFile) : '/' ∉ (stem file).toList := by
  intro hmem
  rw [stem, String.toList_ofList] at hmem
  have hlossy := (List.takeWhile_sublist _).subset hmem
  have hascii : Utf8.IsAscii ['/'] := by decide
  have hbytes := Utf8.infix_of_decodeLossy hascii ((List.singleton_infix_iff _ _).2 hlossy)
  have hslash : Path.separator ∈ file.path.fileName?.getD [] :=
    (List.singleton_infix_iff _ _).1 hbytes
  cases hname : file.path.fileName? with
  | none =>
      rw [hname] at hslash
      exact absurd hslash List.not_mem_nil
  | some b =>
      rw [hname] at hslash
      exact Path.not_mem_fileName? hname hslash

/-- `storedName` gives a name of the type of the file. -/
theorem type_of_storedName {file : ResourceFile} {name : ResourceName}
    (h : storedName file = .ok name) : name.type = file.type :=
  ResourceName.type_of_read (slash_not_mem_stem file) (Error.eq_ok_of_labelling h)

/-! ### Writing a file -/

/-- `store` as one equation, with every way in which it ends: where it fails before the entry is
named, the session is as before. -/
theorem store_eq (file : ResourceFile) (contents : Except OsError Bytes) (s : Session) :
    store file contents s =
      if isHidden file then .ok () s
      else
        match storedName file with
        | .error e => .error e s
        | .ok name =>
          match s.outputs.get? name.type with
          | none => .error ((Error.noOutput name.type).withLabel (file.path.display ++ ": ")) s
          | some archives =>
            match s.sharder.shard name.text archives.length with
            | .error e => .error e s
            | .ok index =>
              match Archive.add .createWriter
                  { name := file.entryName, body := contents.toOption.getD [] }
                  (archives[index]?.getD []) with
              | .error e => .error e (s.take name.type file.entryName)
              | .ok a =>
                let after := (s.take name.type file.entryName).setArchive name.type archives index a
                match contents with
                | .ok _ => .ok () after
                | .error reason =>
                  .error (.io .copyIntoArchive file.path reason.message) after := by
  unfold store
  split
  · rfl
  · cases storedName file with
    | error e => rfl
    | ok name =>
        simp only
        rw [bind_of_ok (show (pure name : Filing ResourceName) s = .ok name s from rfl),
          bind_of_ok (show (get : Filing Session) s = .ok s s from rfl)]
        cases s.outputs.get? name.type with
        | none => rfl
        | some archives =>
            simp only
            cases s.sharder.shard name.text archives.length with
            | error e => rfl
            | ok index =>
                simp only
                rw [bind_of_ok (show (pure index : Filing Nat) s = .ok index s from rfl),
                  bind_of_ok (show (modify (take name.type file.entryName) : Filing PUnit) s =
                    .ok () (s.take name.type file.entryName) from rfl)]
                -- what is written of a file that can not be read is an empty entry
                cases contents with
                | error reason =>
                    simp only [Except.toOption, Option.getD_none]
                    cases Archive.add .createWriter { name := file.entryName, body := [] }
                        (archives[index]?.getD []) with
                    | error e => rfl
                    | ok a => rfl
                | ok body =>
                    simp only [Except.toOption, Option.getD_some]
                    cases Archive.add .createWriter { name := file.entryName, body }
                        (archives[index]?.getD []) with
                    | error e => rfl
                    | ok a => rfl

/-- Where a file is put: the name of the resource, the archives of its type, and the one of these
that it belongs to. -/
structure Placed (s : Session) (file : ResourceFile) (name : ResourceName)
    (archives : List Archive) (index : Nat) (a : Archive) : Prop where
  /-- The resource is the one that the file is named for. -/
  named : storedName file = .ok name
  /-- The archives are those of its type. -/
  typed : s.outputs.get? file.type = some archives
  /-- The sharder tells which one. -/
  assigned : s.sharder.assign name.text archives.length = index
  /-- There is such an archive. -/
  found : archives[index]? = some a

/-- How writing a file ends. -/
inductive StoreEnds (file : ResourceFile) (contents : Except OsError Bytes) (s : Session) :
    EStateM.Result Error Session Unit → Prop where
  /-- Hidden files are left out. -/
  | hidden (h : isHidden file = true) : StoreEnds file contents s (.ok () s)
  /-- There is no place for the file. -/
  | homeless {e : Error} (h : ¬e.IsDuplicate) : StoreEnds file contents s (.error e s)
  /-- In its place there is an entry of that name. -/
  | refused {name : ResourceName} {archives : List Archive} {index : Nat} {a : Archive} {e : Error}
      (hplace : s.Placed file name archives index a) (h : file.entryName ∈ a.names) :
      StoreEnds file contents s (.error e (s.take file.type file.entryName))
  /-- It is there, but could not be read. -/
  | unreadable {name : ResourceName} {archives : List Archive} {index : Nat} {a : Archive}
      {e : Error} (hplace : s.Placed file name archives index a) (hnew : file.entryName ∉ a.names)
      (h : ¬e.IsDuplicate) :
      StoreEnds file contents s (.error e
        ((s.take file.type file.entryName).setArchive file.type archives index
          (a ++ [{ name := file.entryName, body := [] }])))
  /-- It is written. -/
  | written {name : ResourceName} {archives : List Archive} {index : Nat} {a : Archive}
      {body : Bytes} (hplace : s.Placed file name archives index a)
      (hnew : file.entryName ∉ a.names) (h : contents = .ok body) :
      StoreEnds file contents s (.ok ()
        ((s.take file.type file.entryName).setArchive file.type archives index
          (a ++ [{ name := file.entryName, body }])))

theorem storeEnds (file : ResourceFile) (contents : Except OsError Bytes) (s : Session) :
    StoreEnds file contents s (store file contents s) := by
  rw [store_eq]
  by_cases hhidden : isHidden file = true
  · rw [if_pos hhidden]
    exact .hidden hhidden
  rw [if_neg hhidden]
  cases hname : storedName file with
  | error e =>
      refine .homeless ?_
      unfold storedName Error.labelling at hname
      split at hname
      · cases hname
      · rename_i hread
        cases hname
        rw [Error.isDuplicate_withLabel]
        exact (ResourceName.unreadable_of_read hread).not_isDuplicate
  | ok name =>
      simp only [type_of_storedName hname]
      cases harchives : s.outputs.get? file.type with
      | none =>
          refine .homeless fun h => ?_
          rw [Error.isDuplicate_withLabel] at h
          obtain ⟨step, entry, name, h⟩ := h
          cases h
      | some archives =>
          simp only
          cases hshard : s.sharder.shard name.text archives.length with
          | error e => exact .homeless (Sharder.not_isDuplicate_of_shard hshard)
          | ok index =>
              simp only
              obtain ⟨hassigned, hlt⟩ := Sharder.shard_eq_ok_iff.1 hshard
              have hindex : archives[index]? = some archives[index] :=
                List.getElem?_eq_getElem hlt
              have hplace : s.Placed file name archives index archives[index] :=
                ⟨hname, harchives, hassigned, hindex⟩
              rw [hindex, Option.getD_some]
              cases hadd : Archive.add .createWriter
                  { name := file.entryName, body := contents.toOption.getD [] } archives[index] with
              | error e =>
                  refine .refused hplace ?_
                  by_contra hnew
                  rw [Archive.add_eq_ok_iff.2 ⟨hnew, rfl⟩] at hadd
                  cases hadd
              | ok a =>
                  obtain ⟨hnew, rfl⟩ := Archive.add_eq_ok_iff.1 hadd
                  cases contents with
                  | error reason =>
                      refine .unreadable hplace hnew ?_
                      rintro ⟨step, entry, name, h⟩
                      cases h
                  | ok body => exact .written hplace hnew rfl

end Session

end ResourceShards
