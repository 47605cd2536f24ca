import ResourceShards.Proofs.Archive.Overriding
import ResourceShards.Proofs.Archive.StoredName

/-!
# ResourceShards.Proofs.Archive.ShardKey

**One file, two names.** A file that is a resource is named twice: once for the list of resources,
where a raw file loses what follows its last dot and any other file what follows its first one, and
once to find its shard, where every file loses what follows its first dot. A raw file with two dots
is listed under a name that it is not sharded by.

* `Session.ShardedUnder`: which key decides where a file is written
* `Session.shardedUnder_iff`: where that is the full form of the name that is listed
-/

namespace ResourceShards

namespace ResourceFile

/-! ### Names of files as text -/

/-- The name of a file, if it is text. -/
def nameText? (file : ResourceFile) : Option String :=
  file.path.fileName?.bind Bytes.toString?

/-- `nameText?` has no separator. -/
theorem slash_not_mem_nameText {file : ResourceFile} {name : String}
    (h : file.nameText? = some name) : '/' ∉ name.toList := by
  obtain ⟨bytes, hbytes, htext⟩ := Option.bind_eq_some_iff.1 h
  rw [Bytes.eq_ofString_of_toString? htext] at hbytes
  rw [← Utf8.decodeLossy_ofString name]
  exact Path.slash_not_mem_decodeLossy (Path.not_mem_fileName? hbytes)

/-- The `stem` is what stands in front of the first dot of `nameText?`. -/
theorem stem_of_nameText {file : ResourceFile} {name : String} (h : file.nameText? = some name) :
    Session.stem file = String.ofList (name.toList.takeWhile (· != '.')) := by
  obtain ⟨bytes, hbytes, htext⟩ := Option.bind_eq_some_iff.1 h
  rw [Session.stem, hbytes, Option.getD_some, Bytes.eq_ofString_of_toString? htext,
    Utf8.decodeLossy_ofString]

/-- The `resourceName?` of a raw file is its name up to the last dot. -/
theorem resourceName?_raw {file : ResourceFile} {name : String} (h : file.nameText? = some name)
    (hraw : file.type = .raw) :
    ('.' ∉ name.toList ∧ file.resourceName? = some name) ∨
      ∃ front extension, name.toList = front ++ '.' :: extension ∧ '.' ∉ extension ∧
        file.resourceName? = some (String.ofList front) := by
  obtain ⟨bytes, hbytes, htext⟩ := Option.bind_eq_some_iff.1 h
  simp only [resourceName?, hbytes, htext, hraw, Option.bind_eq_bind, Option.bind_some,
    beq_self_eq_true, if_true]
  cases hcut : ResourceName.cut '.' name.toList.reverse with
  | none =>
      exact .inl ⟨fun hmem => ResourceName.cut_eq_none hcut (List.mem_reverse.2 hmem), rfl⟩
  | some found =>
      obtain ⟨extension, front⟩ := found
      obtain ⟨hchars, hextension⟩ := ResourceName.cut_eq_some hcut
      refine .inr ⟨front.reverse, extension.reverse, ?_, mt List.mem_reverse.1 hextension, rfl⟩
      rw [← List.reverse_reverse name.toList, hchars]
      simp

/-- Unless a file is raw and has two dots or more, its `resourceName?` is its `stem`. -/
theorem resourceName?_eq_stem {file : ResourceFile} {name : String} (h : file.nameText? = some name)
    (hdots : file.type ≠ .raw ∨ name.toList.count '.' ≤ 1) :
    file.resourceName? = some (Session.stem file) := by
  rw [stem_of_nameText h]
  by_cases hraw : file.type = .raw
  · rcases resourceName?_raw h hraw with ⟨hnone, hname⟩ | ⟨front, extension, hchars, hlast, hname⟩
    · have hall : name.toList.takeWhile (· != '.') = name.toList :=
        List.takeWhile_eq_self_iff.2 fun c hc => bne_iff_ne.2 fun heq => hnone (heq ▸ hc)
      rw [hname, hall, String.ofList_toList]
    · have hcount := hdots.resolve_left (not_not_intro hraw)
      rw [hchars, List.count_append, List.count_cons_self] at hcount
      have hfront : '.' ∉ front := List.count_eq_zero.1 (by omega)
      have hpass : ∀ c ∈ front, (c != '.') = true :=
        fun c hc => bne_iff_ne.2 fun heq => hfront (heq ▸ hc)
      rw [hname, hchars, List.takeWhile_append_of_pos hpass, List.takeWhile_cons_of_neg (by simp),
        List.append_nil]
  · obtain ⟨bytes, hbytes, htext⟩ := Option.bind_eq_some_iff.1 h
    simp only [resourceName?, hbytes, htext, Option.bind_eq_bind, Option.bind_some]
    rw [if_neg (mt beq_iff_eq.1 hraw)]
    rfl

/-- The `resourceName?` of a raw file with two dots or more has a dot. -/
theorem exists_dot_of_raw {file : ResourceFile} {name : String} (h : file.nameText? = some name)
    (hraw : file.type = .raw) (hdots : 1 < name.toList.count '.') :
    ∃ listed, file.resourceName? = some listed ∧ '.' ∈ listed.toList ∧ '/' ∉ listed.toList := by
  rcases resourceName?_raw h hraw with ⟨hnone, -⟩ | ⟨front, extension, hchars, hlast, hname⟩
  · rw [List.count_eq_zero.2 hnone] at hdots
    cases hdots
  · have hslash := slash_not_mem_nameText h
    rw [hchars, List.count_append, List.count_cons_self, List.count_eq_zero.2 hlast] at hdots
    rw [hchars] at hslash
    refine ⟨_, hname, ?_, ?_⟩
    · rw [String.toList_ofList]
      exact List.count_pos_iff.1 (by omega)
    · rw [String.toList_ofList]
      exact fun hmem => hslash (List.mem_append_left _ hmem)

/-- The `resource?` that a file is listed as is read from its `resourceName?`. -/
theorem read_of_resource? {file : ResourceFile} {f : ResourceName}
    (h : file.resource? = .ok (some f)) :
    ResourceName.read (file.resourceName?.getD "") file.type = .ok f := by
  unfold resource? at h
  split at h
  · cases h
  · split at h
    · rename_i hread
      cases h
      exact hread
    · cases h

end ResourceFile

/-! ### Names of resources -/

namespace ResourceName

/-- `dropSigil` drops nothing but a sigil in front. -/
theorem mem_dropSigil {raw : String} {c : Char} (hc : c ∈ raw.toList) (hat : c ≠ '@')
    (hmark : c ≠ '?') : c ∈ dropSigil raw := by
  unfold dropSigil
  split
  · rename_i first rest hraw
    rw [hraw] at hc
    split
    · rename_i hsigil
      refine (List.mem_cons.1 hc).resolve_left fun heq => ?_
      obtain rfl := heq
      simp [hat, hmark] at hsigil
    · exact hc
  · rename_i hraw
    rw [hraw] at hc
    exact absurd hc List.not_mem_nil

theorem dot_not_mem_typeName (type : ResourceType) : '.' ∉ type.name.toList := by
  cases type <;> decide

theorem dot_mem_packageOf {package : List Char} :
    '.' ∈ (packageOf package).toList ↔ '.' ∈ package := by
  cases package with
  | nil => decide
  | cons c package => rw [packageOf_of_ne_nil (List.cons_ne_nil _ _), String.toList_ofList]

/-- Reading a reference without a `/` keeps its dots, and adds none. -/
theorem dot_mem_text {raw : String} {context : ResourceType} {n : ResourceName}
    (hraw : '/' ∉ raw.toList) (h : read raw context = .ok n) :
    '.' ∈ n.text.toList ↔ '.' ∈ raw.toList := by
  rw [read_eq] at h
  split at h
  · cases h
  · rename_i package type name hparts
    split at h
    · cases h
    · split at h
      · cases h
      · obtain rfl := Except.ok.inj h
        have hsigil : '.' ∈ raw.toList ↔ '.' ∈ dropSigil raw :=
          ⟨fun hmem => mem_dropSigil hmem (by decide) (by decide), mem_of_mem_dropSigil⟩
        have htype := dot_not_mem_typeName type
        have hpackage : '.' ∈ (packageOf package).toList ↔ '.' ∈ package := dot_mem_packageOf
        have hcolon : '.' ∉ ":".toList := by decide
        have hslash : '.' ∉ "/".toList := by decide
        rw [hsigil]
        simp only [text, String.toList_append, List.mem_append, hpackage, htype, hcolon, hslash,
          String.toList_ofList, or_false]
        rcases (parts_of_not_slash hraw hparts).2 with ⟨rfl, hname⟩ | hname
        · simp [hname]
        · simp [hname]

end ResourceName

/-! ### The key of a file -/

namespace Session

/-- Whatever the session, a file is written into the archive that the sharder has for a key. -/
def ShardedUnder (file : ResourceFile) (key : String) : Prop :=
  ∀ (s : Session) (archives : List Archive) (body : Bytes),
    s.outputs.get? file.type = some archives →
      store file (.ok body) s =
        match s.sharder.shard key archives.length with
        | .error e => .error e s
        | .ok index =>
          match Archive.add .createWriter { name := file.entryName, body }
              (archives[index]?.getD []) with
          | .error e => .error e (s.take file.type file.entryName)
          | .ok a =>
            .ok () ((s.take file.type file.entryName).setArchive file.type archives index a)

theorem shardedUnder_of_storedName {file : ResourceFile} {name : ResourceName}
    (hhidden : isHidden file = false) (hname : storedName file = .ok name) :
    ShardedUnder file name.text := by
  intro s archives body harchives
  rw [store_eq, hhidden, hname]
  simp only [type_of_storedName hname, harchives, Except.toOption, Option.getD_some]
  rfl

/-- A `stem` has no dot. -/
theorem dot_not_mem_stem (file : ResourceFile) : '.' ∉ (stem file).toList := by
  intro hmem
  rw [stem, String.toList_ofList] at hmem
  have hne := List.mem_takeWhile_imp hmem
  simp at hne

/-- A session with two empty archives for a type, and a sharder that keeps one key apart from all
others. -/
def apart (type : ResourceType) (key : String) : Session where
  outputs := [(type, [[], []])]
  sharder := ⟨"apart", fun other _ => if other = key then 0 else 1⟩

/-- A file is `ShardedUnder` one key at most. -/
theorem ShardedUnder.key_unique {file : ResourceFile} {key key' : String}
    (h : ShardedUnder file key) (h' : ShardedUnder file key') : key' = key := by
  by_contra hne
  have hfirst := h (apart file.type key) [[], []] [] (by simp [apart, Table.get?])
  have hsecond := h' (apart file.type key) [[], []] [] (by simp [apart, Table.get?])
  rw [hfirst] at hsecond
  -- the entry is in the first archive or in the second one
  simp [apart, Sharder.shard, hne, Archive.add, Archive.names, setArchive, take, Table.insert]
    at hsecond

/-- A file without a `storedName` is not `ShardedUnder` any key. -/
theorem not_shardedUnder_of_error {file : ResourceFile} {e : Error} {key : String}
    (hhidden : isHidden file = false) (hname : storedName file = .error e) :
    ¬ShardedUnder file key := by
  intro h
  have hstore := h (apart file.type key) [[], []] [] (by simp [apart, Table.get?])
  rw [store_eq, hhidden, hname] at hstore
  simp [apart, Sharder.shard, Archive.add, Archive.names] at hstore

/-- **The two names of a file.** A file that `ofPath` makes and that is listed as a resource is
`ShardedUnder` the full form of the name that it is listed by, unless it is raw and its name has two
dots or more: then it is listed by its name up to the last dot, and the key breaks off at the first.
-/
theorem shardedUnder_iff {path : Path} {file : ResourceFile} {name : String} {f : ResourceName}
    (hpath : ResourceFile.ofPath path = .ok file) (hname : file.nameText? = some name)
    (hlisted : file.resource? = .ok (some f)) :
    ShardedUnder file f.text ↔ file.type ≠ .raw ∨ name.toList.count '.' ≤ 1 := by
  have hhidden := isHidden_of_ofPath hpath
  have hread := ResourceFile.read_of_resource? hlisted
  constructor
  · intro hsharded
    by_contra hdots
    rw [not_or, not_not, not_le] at hdots
    obtain ⟨listed, hresource, hdot, hslash⟩ := ResourceFile.exists_dot_of_raw hname hdots.1 hdots.2
    rw [hresource, Option.getD_some] at hread
    cases hstored : storedName file with
    | error e => exact not_shardedUnder_of_error hhidden hstored hsharded
    | ok stored =>
        have hkey := hsharded.key_unique (shardedUnder_of_storedName hhidden hstored)
        have hfirst := (ResourceName.dot_mem_text hslash hread).2 hdot
        rw [← hkey, ResourceName.dot_mem_text (slash_not_mem_stem file)
          (Error.eq_ok_of_labelling hstored)] at hfirst
        exact dot_not_mem_stem file hfirst
  · intro hdots
    rw [ResourceFile.resourceName?_eq_stem hname hdots, Option.getD_some] at hread
    have hstored : storedName file = .ok f := by
      rw [storedName, hread]
      rfl
    exact shardedUnder_of_storedName hhidden hstored

/-- `res/raw/data.tar.gz` is listed as `data.tar` and sharded as `data`. -/
theorem shardedUnder_twoDots :
    let file : ResourceFile :=
      ⟨.ofString "res/raw/data.tar.gz", .ofString "res", "raw", .raw, "", {}⟩
    file.resource? = .ok (some ⟨"res-auto", .raw, "data.tar"⟩) ∧
      ¬ShardedUnder file "res-auto:raw/data.tar" ∧ ShardedUnder file "res-auto:raw/data" := by
  intro file
  have hlisted : file.resource? = .ok (some ⟨"res-auto", .raw, "data.tar"⟩) := by decide +kernel
  have hpath : ResourceFile.ofPath (.ofString "res/raw/data.tar.gz") = .ok file := by
    decide +kernel
  have hname : file.nameText? = some "data.tar.gz" := by decide +kernel
  have hstored : storedName file = .ok ⟨"res-auto", .raw, "data"⟩ := by decide +kernel
  refine ⟨hlisted, fun hsharded => ?_, shardedUnder_of_storedName (by decide +kernel) hstored⟩
  have hdots := (shardedUnder_iff hpath hname hlisted).1 hsharded
  revert hdots
  decide +kernel

end Session

end ResourceShards
