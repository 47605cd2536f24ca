import Mathlib.Data.List.Forall2
import ResourceShards.Archive.Close
import ResourceShards.Proofs.Runs
import ResourceShards.Proofs.Table

/-!
# ResourceShards.Proofs.Archive.Writing

**What writing adds to the archives of a type.** A file adds one entry to one archive. The
declarations of a values file add one entry to every archive, all of one name, each with the
declarations of its shard. Nothing else in the archives changes.

* `appendAll`: entries behind those of each archive
* `Copies`: an entry that is a file
* `ValuesDocument`: what is written for the declarations of one type in one file
* `Session.store_ok`, `Session.storeValues_ok`: one file, the declarations of one file
* `Session.valuesEnd`: how writing the declarations of one file ends, also where it fails
* `Session.Extended`: what any number of them add
-/

namespace ResourceShards

open Markup (Attribute)

/-! ### Entries behind others -/

/-- Archives with entries behind those of each, told by the index of the archive. -/
def appendAll (more : Nat → List Entry) (archives : List Archive) : List Archive :=
  archives.mapIdx fun index a => a ++ more index

@[simp] theorem length_appendAll (more : Nat → List Entry) (archives : List Archive) :
    (appendAll more archives).length = archives.length :=
  List.length_mapIdx

theorem getElem?_appendAll (more : Nat → List Entry) (archives : List Archive) (index : Nat) :
    (appendAll more archives)[index]? = archives[index]?.map (· ++ more index) := by
  rw [appendAll, List.getElem?_mapIdx]

theorem appendAll_nil (archives : List Archive) : appendAll (fun _ => []) archives = archives := by
  refine List.ext_getElem? ?_
  intro index
  rw [getElem?_appendAll]
  cases archives[index]? <;> simp

theorem appendAll_appendAll (more rest : Nat → List Entry) (archives : List Archive) :
    appendAll rest (appendAll more archives) =
      appendAll (fun index => more index ++ rest index) archives := by
  rw [appendAll, appendAll, List.mapIdx_mapIdx]
  refine congrArg (fun f => List.mapIdx f archives) ?_
  funext index a
  exact List.append_assoc a _ _

/-- Putting one more entry into one archive is an `appendAll`. -/
theorem set_eq_appendAll {archives : List Archive} {index : Nat} {a : Archive} (e : Entry)
    (h : archives[index]? = some a) :
    archives.set index (a ++ [e]) =
      appendAll (fun other => if other = index then [e] else []) archives := by
  refine List.ext_getElem? ?_
  intro other
  rw [getElem?_appendAll, List.getElem?_set]
  by_cases heq : index = other
  · subst heq
    obtain ⟨hlength, -⟩ := List.getElem?_eq_some_iff.1 h
    rw [if_pos rfl, if_pos hlength, h]
    simp
  · rw [if_neg heq]
    have hne : ¬other = index := fun h => heq h.symm
    cases archives[other]? <;> simp [hne]

/-! ### Files -/

/-- An entry is a file as it is found. -/
def Copies (look : Look Bytes) (file : ResourceFile) (e : Entry) : Prop :=
  e.name = file.entryName ∧ ∃ found, look file.path = .ok found ∧ found.contents = .ok e.body

/-! ### Declarations -/

/-- The payloads that belong to one of some shards, one after the other. -/
def shardOf (sharder : Sharder) (shards index : Nat) (payloads : List (String × Bytes)) : Bytes :=
  ((payloads.filter fun entry => sharder.assign entry.1 shards == index).map Prod.snd).flatten

/-- What is written for the declarations of one type in one file. -/
structure ValuesDocument where
  /-- The file. -/
  source : ResourceFile
  /-- The name of the entries. -/
  name : String
  /-- The `<resources>` tag. -/
  tag : Bytes
  /-- The declarations, under their full names. -/
  payloads : List (String × Bytes)

/-- Its entry in one of some shards. -/
def ValuesDocument.entry (sharder : Sharder) (shards index : Nat) (d : ValuesDocument) : Entry where
  name := d.name
  body := Session.header ++ d.tag ++ shardOf sharder shards index d.payloads ++ Session.footer

namespace Session

/-- `addToAll` that succeeds puts the entry behind the others everywhere. -/
theorem addToAll_ok {e : Entry} {archives started : List Archive}
    (h : addToAll e archives = (started, .ok ())) :
    started = archives.map (· ++ [e]) ∧ ∀ a ∈ archives, e.name ∉ a.names := by
  induction archives generalizing started with
  | nil =>
      obtain ⟨rfl, -⟩ := Prod.mk.inj h
      exact ⟨rfl, fun a ha => absurd ha List.not_mem_nil⟩
  | cons a archives ih =>
      rw [addToAll] at h
      cases hadd : a.add .createEntry e with
      | error err =>
          rw [hadd] at h
          cases h
      | ok first =>
          obtain ⟨hfresh, rfl⟩ := Archive.add_eq_ok_iff.1 hadd
          cases hall : addToAll e archives with
          | mk others outcome =>
              simp only [hadd, hall] at h
              obtain ⟨rfl, rfl⟩ := Prod.mk.inj h
              obtain ⟨rfl, hfreshOthers⟩ := ih hall
              exact ⟨rfl, List.forall_mem_cons.2 ⟨hfresh, hfreshOthers⟩⟩

/-- `addToAll` that fails reaches the archives up to the first that has an entry of that name. -/
theorem addToAll_error {e : Entry} {archives started : List Archive} {err : Error}
    (h : addToAll e archives = (started, .error err)) :
    (∃ a ∈ archives, e.name ∈ a.names) ∧
      ∃ count, started = appendAll (fun index => if index < count then [e] else []) archives := by
  induction archives generalizing started with
  | nil => cases h
  | cons a archives ih =>
      rw [addToAll] at h
      cases hadd : a.add .createEntry e with
      | error err' =>
          rw [hadd] at h
          obtain ⟨rfl, -⟩ := Prod.mk.inj h
          refine ⟨⟨a, List.mem_cons_self, ?_⟩, 0, ?_⟩
          · by_contra hnew
            rw [Archive.add_eq_ok_iff.2 ⟨hnew, rfl⟩] at hadd
            cases hadd
          · simp only [Nat.not_lt_zero, if_false]
            exact (appendAll_nil _).symm
      | ok first =>
          obtain ⟨-, rfl⟩ := Archive.add_eq_ok_iff.1 hadd
          cases hall : addToAll e archives with
          | mk others outcome =>
              simp only [hadd, hall] at h
              obtain ⟨rfl, rfl⟩ := Prod.mk.inj h
              obtain ⟨⟨b, hb, hheld⟩, count, rfl⟩ := ih hall
              refine ⟨⟨b, List.mem_cons_of_mem _ hb, hheld⟩, count + 1, ?_⟩
              simp only [appendAll, List.mapIdx_cons, Nat.zero_lt_succ, if_true,
                Nat.add_lt_add_iff_right]

/-- `distribute` that succeeds has put all declarations where the sharder says. -/
theorem distribute_ok {sharder : Sharder} {shards : Nat} {payloads : List (String × Bytes)}
    {placed : List (Nat × Bytes)} (h : distribute sharder shards payloads = (placed, .ok ())) :
    placed = payloads.map (fun entry => (sharder.assign entry.1 shards, entry.2)) ∧
      ∀ entry ∈ payloads, sharder.assign entry.1 shards < shards := by
  induction payloads generalizing placed with
  | nil =>
      obtain ⟨rfl, -⟩ := Prod.mk.inj h
      exact ⟨rfl, fun entry hentry => absurd hentry List.not_mem_nil⟩
  | cons entry payloads ih =>
      rw [distribute] at h
      cases hshard : sharder.shard entry.1 shards with
      | error err =>
          rw [hshard] at h
          cases h
      | ok index =>
          obtain ⟨rfl, hlt⟩ := Sharder.shard_eq_ok_iff.1 hshard
          cases hall : distribute sharder shards payloads with
          | mk others outcome =>
              simp only [hshard, hall] at h
              obtain ⟨rfl, rfl⟩ := Prod.mk.inj h
              obtain ⟨rfl, hltOthers⟩ := ih hall
              exact ⟨rfl, List.forall_mem_cons.2 ⟨hlt, hltOthers⟩⟩

theorem shardBody_map (sharder : Sharder) (shards index : Nat) (payloads : List (String × Bytes)) :
    shardBody index (payloads.map fun entry => (sharder.assign entry.1 shards, entry.2)) =
      shardOf sharder shards index payloads := by
  unfold shardBody shardOf
  rw [List.filter_map, List.map_map]
  rfl

theorem writeOn_append (bytes : Bytes) (a : Archive) (e : Entry) :
    writeOn bytes (a ++ [e]) = a ++ [{ e with body := e.body ++ bytes }] := by
  unfold writeOn
  rw [List.getLast?_concat]
  simp only
  rw [List.dropLast_concat]

/-- `writeOn` goes into the entries that were started. -/
theorem mapIdx_writeOn_started (e : Entry) (more : Nat → Bytes) (archives : List Archive) :
    (archives.map (· ++ [e])).mapIdx (fun index a => writeOn (more index) a) =
      appendAll (fun index => [{ e with body := e.body ++ more index }]) archives := by
  refine List.ext_getElem? ?_
  intro index
  rw [List.getElem?_mapIdx, List.getElem?_map, getElem?_appendAll]
  cases archives[index]? with
  | none => rfl
  | some a =>
      simp only [Option.map_some]
      rw [writeOn_append]

/-- Archives whose entries have different names. -/
def WellNamed (archives : List Archive) : Prop :=
  ∀ a ∈ archives, a.names.Nodup

/-- A session that was written to. Its archives have more entries, of which `More` holds by the
type, the number of its archives, and what each of them has more; what is read while writing is as
before. -/
structure Extended (More : ResourceType → Nat → (Nat → List Entry) → Prop) (s s' : Session) :
    Prop where
  sharder : s'.sharder = s.sharder
  order : s'.order = s.order
  values : s'.values = s.values
  attributes : s'.rootAttributes = s.rootAttributes
  /-- There are no other types. -/
  none : ∀ type, s.outputs.get? type = none → s'.outputs.get? type = none
  /-- The archives of a type are as many, and only grow. -/
  some : ∀ type archives, s.outputs.get? type = some archives →
    ∃ more, More type archives.length more ∧
      s'.outputs.get? type = some (appendAll more archives) ∧
      (WellNamed archives → WellNamed (appendAll more archives))

section Extended

variable {More More' Both : ResourceType → Nat → (Nat → List Entry) → Prop}

theorem Extended.refl (s : Session) (h : ∀ type shards, More type shards fun _ => []) :
    Extended More s s where
  sharder := rfl
  order := rfl
  values := rfl
  attributes := rfl
  none := fun _ h => h
  some := fun type archives harchives => by
    refine ⟨fun _ => [], h type _, ?_⟩
    rw [appendAll_nil]
    exact ⟨harchives, id⟩

theorem Extended.trans {s t u : Session} (h : Extended More s t) (h' : Extended More' t u)
    (hboth : ∀ type shards more more', More type shards more → More' type shards more' →
      Both type shards fun index => more index ++ more' index) : Extended Both s u where
  sharder := h'.sharder.trans h.sharder
  order := h'.order.trans h.order
  values := h'.values.trans h.values
  attributes := h'.attributes.trans h.attributes
  none := fun type hnone => h'.none type (h.none type hnone)
  some := fun type archives harchives => by
    obtain ⟨more, hmore, hout, hnamed⟩ := h.some type archives harchives
    obtain ⟨more', hmore', hout', hnamed'⟩ := h'.some type _ hout
    rw [length_appendAll] at hmore'
    rw [appendAll_appendAll] at hout' hnamed'
    exact ⟨_, hboth type _ more more' hmore hmore', hout', fun h => hnamed' (hnamed h)⟩

/-- A session with more in the archives of one type is `Extended`. -/
theorem Extended.of_insert {s : Session} {type : ResourceType} {archives : List Archive}
    {more : Nat → List Entry} (taken : Table ResourceType (List String))
    (harchives : s.outputs.get? type = Option.some archives)
    (hnamed : WellNamed archives → WellNamed (appendAll more archives))
    (hmore : More type archives.length more)
    (hothers : ∀ other, other ≠ type → ∀ shards, More other shards fun _ => []) :
    Extended More s
      { s with taken, outputs := s.outputs.insert type (appendAll more archives) } where
  sharder := rfl
  order := rfl
  values := rfl
  attributes := rfl
  none := fun other hnone => by
    have hne : type ≠ other := by
      rintro rfl
      rw [harchives] at hnone
      cases hnone
    exact (Table.get?_insert _ _ _ _).trans ((if_neg hne).trans hnone)
  some := fun other found hfound => by
    by_cases heq : type = other
    · subst heq
      obtain rfl : archives = found := Option.some.inj (harchives.symm.trans hfound)
      exact ⟨more, hmore, (Table.get?_insert _ _ _ _).trans (if_pos rfl), hnamed⟩
    · refine ⟨fun _ => [], hothers other (fun h => heq h.symm) _, ?_⟩
      rw [appendAll_nil]
      exact ⟨(Table.get?_insert _ _ _ _).trans ((if_neg heq).trans hfound), id⟩

end Extended

/-- `store` that succeeds makes a file an entry of one archive, unless it is hidden. -/
theorem store_ok {file : ResourceFile} {contents : Except OsError Bytes} {s s' : Session}
    (h : store file contents s = .ok () s') :
    s' = s ∨ ∃ type archives index a body, contents = .ok body ∧
      s.outputs.get? type = some archives ∧ archives[index]? = some a ∧
      file.entryName ∉ a.names ∧
      s' = (s.take type file.entryName).setArchive type archives index
        (a ++ [{ name := file.entryName, body }]) := by
  unfold store at h
  split at h
  · cases h
    exact .inl rfl
  right
  simp only at h
  cases hname : storedName file with
  | error e =>
      simp only [hname] at h
      exact absurd h not_ok_of_throw
  | ok name =>
      simp only [hname] at h
      obtain ⟨found, t, hpure, h⟩ := exists_of_bind_ok h
      cases hpure
      obtain ⟨now, t, hget, h⟩ := exists_of_bind_ok h
      cases hget
      cases hout : s.outputs.get? name.type with
      | none =>
          simp only [hout] at h
          cases h
      | some archives =>
          simp only [hout] at h
          cases hshard : s.sharder.shard name.text archives.length with
          | error e =>
              simp only [hshard] at h
              exact absurd h not_ok_of_throw
          | ok index =>
              simp only [hshard] at h
              obtain ⟨found, t, hpure, h⟩ := exists_of_bind_ok h
              cases hpure
              obtain ⟨u, t, htake, h⟩ := exists_of_bind_ok h
              cases htake
              -- the shard that a sharder answers was checked, so there is such an archive
              have hlt := Sharder.lt_of_shard hshard
              have hindex : archives[index]? = some archives[index] :=
                List.getElem?_eq_getElem hlt
              rw [hindex, Option.getD_some] at h
              cases contents with
              | error reason =>
                  simp only at h
                  cases hadd : archives[index].add .createWriter
                      { name := file.entryName, body := [] } with
                  | error e =>
                      simp only [hadd] at h
                      exact absurd h not_ok_of_throw
                  | ok written =>
                      simp only [hadd] at h
                      obtain ⟨u', t, hset, h⟩ := exists_of_bind_ok h
                      cases h
              | ok body =>
                  simp only at h
                  cases hadd : archives[index].add .createWriter
                      { name := file.entryName, body } with
                  | error e =>
                      simp only [hadd] at h
                      exact absurd h not_ok_of_throw
                  | ok written =>
                      simp only [hadd] at h
                      obtain ⟨u', t, hset, h⟩ := exists_of_bind_ok h
                      cases hset
                      cases h
                      obtain ⟨hfresh, rfl⟩ := Archive.add_eq_ok_iff.1 hadd
                      exact ⟨name.type, archives, index, archives[index], body, rfl, hout, hindex,
                        hfresh, rfl⟩

/-- Names stay different when one is new. -/
theorem nodup_names_append {a : Archive} {e : Entry} (h : a.names.Nodup)
    (hfresh : e.name ∉ a.names) : Archive.names (a ++ [e]) |>.Nodup := by
  have hadd : a.add .createEntry e = .ok (a ++ [e]) := Archive.add_eq_ok_iff.2 ⟨hfresh, rfl⟩
  exact Archive.nodup_names_add h hadd

/-- Entries that are some of the files. -/
def CopiesOf (look : Look Bytes) (files : List ResourceFile) (_type : ResourceType) (_shards : Nat)
    (more : Nat → List Entry) : Prop :=
  ∀ index, ∀ e ∈ more index, ∃ file ∈ files, Copies look file e

/-- A session after `storeFrom` is `Extended` with the file at most. -/
theorem extended_of_storeFrom {look : Look Bytes} {file : ResourceFile} {s s' : Session}
    (h : storeFrom look file s = .ok () s') : Extended (CopiesOf look [file]) s s' := by
  have hnil : ∀ type shards, CopiesOf look [file] type shards fun _ => [] :=
    fun _ _ _ e he => absurd he List.not_mem_nil
  unfold storeFrom at h
  cases hlook : look file.path with
  | error reason =>
      simp only [hlook] at h
      cases h
  | ok found =>
      simp only [hlook] at h
      rcases store_ok h with
        rfl | ⟨type, archives, index, a, body, hbody, harchives, hindex, hfresh, rfl⟩
      · exact .refl s' hnil
      · have hnamed : WellNamed archives →
            WellNamed (archives.set index (a ++ [{ name := file.entryName, body }])) := by
          intro hnamed b hb
          rcases List.mem_or_eq_of_mem_set hb with hb | rfl
          · exact hnamed b hb
          · exact nodup_names_append (hnamed a (List.mem_of_getElem? hindex)) hfresh
        unfold setArchive
        rw [set_eq_appendAll _ hindex] at hnamed ⊢
        refine .of_insert _ harchives hnamed (fun other e he => ?_) fun other _ => hnil other
        by_cases heq : other = index
        · rw [if_pos heq] at he
          rw [List.mem_singleton.1 he]
          exact ⟨file, List.mem_singleton_self _, rfl, found, hlook, hbody⟩
        · rw [if_neg heq] at he
          exact absurd he List.not_mem_nil

/-- A session after `storeFrom` of some files is `Extended` with some of them. -/
theorem extended_of_forM_storeFrom {look : Look Bytes} {files : List ResourceFile} {s s' : Session}
    (h : files.forM (storeFrom look) s = .ok () s') : Extended (CopiesOf look files) s s' := by
  induction files generalizing s with
  | nil =>
      cases h
      exact .refl s' fun _ _ _ e he => absurd he List.not_mem_nil
  | cons file files ih =>
      obtain ⟨t, hfirst, hrest⟩ := exists_of_forM_cons_ok h
      refine (extended_of_storeFrom hfirst).trans (ih hrest) ?_
      intro type shards more more' hmore hmore' index e he
      rcases List.mem_append.1 he with he | he
      · obtain ⟨found, hfound, hcopies⟩ := hmore index e he
        rw [List.mem_singleton.1 hfound] at hcopies
        exact ⟨file, List.mem_cons_self, hcopies⟩
      · obtain ⟨found, hfound, hcopies⟩ := hmore' index e he
        exact ⟨found, List.mem_cons_of_mem _ hfound, hcopies⟩

/-- A document says what a holding and the root attributes of its file say, and every declaration
has a shard. -/
structure DocumentOf (attributes : Table (List Path.Component) (List Attribute)) (sharder : Sharder)
    (shards : Nat) (held : Holding) (d : ValuesDocument) : Prop where
  source : d.source = held.source
  payloads : d.payloads = sortedPayloads held.payloads
  tag : resourcesTag ((attributes.get? held.source.path.components).getD []) = .ok d.tag
  placed : ∀ entry ∈ d.payloads, sharder.assign entry.1 shards < shards

/-- Entries that are the documents of the holdings of one type. -/
def DocumentsOf (attributes : Table (List Path.Component) (List Attribute)) (sharder : Sharder)
    (items : Table (List Path.Component × ResourceType) Holding) (type : ResourceType)
    (shards : Nat) (more : Nat → List Entry) : Prop :=
  ∃ documents : List ValuesDocument,
    more = (fun index => documents.map (ValuesDocument.entry sharder shards index)) ∧
    List.Forall₂ (fun item d => DocumentOf attributes sharder shards item.2 d)
      (items.filter fun item => decide (item.1.2 = type)) documents

section DocumentsOf

variable {attributes : Table (List Path.Component) (List Attribute)} {sharder : Sharder}
  {key : List Path.Component × ResourceType} {held : Holding} {type : ResourceType} {shards : Nat}

theorem DocumentsOf.one {d : ValuesDocument} (h : DocumentOf attributes sharder shards held d) :
    DocumentsOf attributes sharder [(key, held)] key.2 shards
      fun index => [d.entry sharder shards index] := by
  refine ⟨[d], rfl, ?_⟩
  rw [List.filter_cons_of_pos (by simp)]
  exact .cons h .nil

theorem DocumentsOf.none (h : key.2 ≠ type) :
    DocumentsOf attributes sharder [(key, held)] type shards fun _ => [] := by
  refine ⟨[], rfl, ?_⟩
  rw [List.filter_cons_of_neg (by simpa using h)]
  exact .nil

theorem DocumentsOf.append {a b : Table (List Path.Component × ResourceType) Holding}
    {more more' : Nat → List Entry} (ha : DocumentsOf attributes sharder a type shards more)
    (hb : DocumentsOf attributes sharder b type shards more') :
    DocumentsOf attributes sharder (a ++ b) type shards fun index => more index ++ more' index := by
  obtain ⟨documents, rfl, hall⟩ := ha
  obtain ⟨documents', rfl, hall'⟩ := hb
  refine ⟨documents ++ documents', ?_, ?_⟩
  · funext index
    exact List.map_append.symm
  · rw [List.filter_append]
    exact List.rel_append hall hall'

end DocumentsOf

/-- How `storeValues` ends. Where an entry is begun, its name is the one that `FreshName.choose`
gives. -/
inductive ValuesEnd (type : ResourceType) (held : Holding) (s : Session) :
    EStateM.Result Error Session Unit → Prop where
  /-- The tag can not be written. -/
  | untagged {e : Error}
      (h : resourcesTag ((s.rootAttributes.get? held.source.path.components).getD []) = .error e) :
      ValuesEnd type held s (.error
        (e.withLabel (held.source.path.display ++ ": could not write resources tag: ")) s)
  /-- The search for a name has no end. -/
  | endless (h : FreshName.choose ((s.taken.get? type).getD []) held.source.entryName = none) :
      ValuesEnd type held s (.error
        (.archive .createEntry held.source.entryName (.endless held.source.entryName)) s)
  /-- The type has no archives. -/
  | homeless {entry : String}
      (hchosen :
        FreshName.choose ((s.taken.get? type).getD []) held.source.entryName = some entry) :
      ValuesEnd type held s (.error (.noOutput type) (s.take type entry))
  /-- An archive has an entry of that name, and those before it have got one. -/
  | refused {archives : List Archive} {count : Nat} {e : Entry} {err : Error}
      (hchosen : FreshName.choose ((s.taken.get? type).getD []) held.source.entryName = some e.name)
      (hout : s.outputs.get? type = some archives) (hheld : ∃ a ∈ archives, e.name ∈ a.names) :
      ValuesEnd type held s (.error err { s.take type e.name with
        outputs := s.outputs.insert type
          (appendAll (fun index => if index < count then [e] else []) archives) })
  /-- A declaration has no shard, and the documents do not end. -/
  | homelessDeclaration {entry : String} {archives : List Archive} {bodies : Nat → Bytes}
      {placed : List (Nat × Bytes)} {err : Error}
      (hchosen : FreshName.choose ((s.taken.get? type).getD []) held.source.entryName = some entry)
      (hout : s.outputs.get? type = some archives)
      (h : distribute s.sharder archives.length (sortedPayloads held.payloads) =
        (placed, .error err)) :
      ValuesEnd type held s (.error err { s.take type entry with
        outputs := s.outputs.insert type
          (appendAll (fun index => [{ name := entry, body := bodies index }]) archives) })
  /-- Every archive has its document. -/
  | written {archives : List Archive} {d : ValuesDocument}
      (hchosen : FreshName.choose ((s.taken.get? type).getD []) held.source.entryName = some d.name)
      (hout : s.outputs.get? type = some archives)
      (hdocument : DocumentOf s.rootAttributes s.sharder archives.length held d)
      (hnew : ∀ a ∈ archives, d.name ∉ a.names) :
      ValuesEnd type held s (.ok () { s.take type d.name with
        outputs := s.outputs.insert type
          (appendAll (fun index => [d.entry s.sharder archives.length index]) archives) })

theorem valuesEnd (type : ResourceType) (held : Holding) (s : Session) :
    ValuesEnd type held s (storeValues type held s) := by
  unfold storeValues
  rw [bind_of_ok (show (get : Filing Session) s = .ok s s from rfl)]
  simp only
  cases htag : resourcesTag ((s.rootAttributes.get? held.source.path.components).getD []) with
  | error e => exact .untagged htag
  | ok tag =>
      simp only
      rw [bind_of_ok (show (pure tag : Filing Bytes) s = .ok tag s from rfl)]
      cases hchosen : FreshName.choose ((s.taken.get? type).getD []) held.source.entryName with
      | none => exact .endless hchosen
      | some entry =>
          simp only
          rw [bind_of_ok (show (pure entry : Filing String) s = .ok entry s from rfl),
            bind_of_ok (show (modify (take type entry) : Filing PUnit) s =
              .ok () (s.take type entry) from rfl)]
          cases hout : s.outputs.get? type with
          | none => exact .homeless hchosen
          | some archives =>
              simp only
              cases hadd : addToAll { name := entry, body := header ++ tag } archives with
              | mk started outcome =>
                  cases outcome with
                  | error e =>
                      obtain ⟨hheld, count, rfl⟩ := addToAll_error hadd
                      exact .refused (e := { name := entry, body := header ++ tag })
                        hchosen hout hheld
                  | ok v =>
                      obtain ⟨rfl, hnew⟩ := addToAll_ok hadd
                      cases hdist : distribute s.sharder archives.length
                          (sortedPayloads held.payloads) with
                      | mk placed outcome =>
                          simp only [mapIdx_writeOn_started]
                          -- the table with the finished entries replaces the one with those begun
                          cases outcome with
                          | error e =>
                              change ValuesEnd type held s (.error e { s.take type entry with
                                outputs := (s.outputs.insert type _).insert type _ })
                              rw [Table.insert_insert]
                              exact .homelessDeclaration hchosen hout hdist
                          | ok v =>
                              obtain ⟨rfl, hplaced⟩ := distribute_ok hdist
                              change ValuesEnd type held s (.ok () { s.take type entry with
                                outputs := (s.outputs.insert type _).insert type _ })
                              rw [Table.insert_insert]
                              simp only [shardBody_map, ← List.append_assoc]
                              exact .written
                                (d := ⟨held.source, entry, tag, sortedPayloads held.payloads⟩)
                                hchosen hout ⟨rfl, rfl, htag, hplaced⟩ hnew

/-- `storeValues` that succeeds makes the declarations of one file a document in every archive of
their type. -/
theorem storeValues_ok {type : ResourceType} {held : Holding} {s s' : Session}
    (h : storeValues type held s = .ok () s') :
    ∃ archives d, s.outputs.get? type = some archives ∧
      DocumentOf s.rootAttributes s.sharder archives.length held d ∧
      (∀ a ∈ archives, d.name ∉ a.names) ∧
      s' = { s.take type d.name with
        outputs := s.outputs.insert type
          (appendAll (fun index => [d.entry s.sharder archives.length index]) archives) } := by
  have hend := valuesEnd type held s
  rw [h] at hend
  cases hend with
  | written hchosen hout hdocument hnew => exact ⟨_, _, hout, hdocument, hnew, rfl⟩

/-- The holdings that `storeValues` writes one after the other become documents in every archive of
their type, in this order. -/
theorem extended_of_forM_storeValues
    {items : Table (List Path.Component × ResourceType) Holding} {s s' : Session}
    (h : (items.forM fun (key, held) => storeValues key.2 held : Filing Unit) s = .ok () s') :
    Extended (DocumentsOf s.rootAttributes s.sharder items) s s' := by
  induction items generalizing s with
  | nil =>
      cases h
      exact .refl s' fun _ _ => ⟨[], rfl, .nil⟩
  | cons item items ih =>
      obtain ⟨⟨parts, type⟩, held⟩ := item
      obtain ⟨t, hfirst, hrest⟩ := exists_of_forM_cons_ok h
      obtain ⟨archives, d, harchives, hdocument, hfresh, rfl⟩ := storeValues_ok hfirst
      have hnamed : WellNamed archives → WellNamed
          (appendAll (fun index => [d.entry s.sharder archives.length index]) archives) := by
        intro hnamed a ha
        obtain ⟨index, hindex, rfl⟩ := List.mem_mapIdx.1 ha
        exact nodup_names_append (hnamed _ (List.getElem_mem _)) (hfresh _ (List.getElem_mem _))
      have hone : Extended (DocumentsOf s.rootAttributes s.sharder [((parts, type), held)]) s _ :=
        .of_insert (s.take type d.name).taken harchives hnamed (.one hdocument)
          fun other hother _ => .none fun h => hother h.symm
      exact hone.trans (ih hrest) fun _ _ _ _ hmore hmore' => hmore.append hmore'

end Session

end ResourceShards
