import Mathlib.Data.List.Pairwise
import ResourceShards.Proofs.Archive.Reclosing
import ResourceShards.Proofs.Archive.StoredName
import ResourceShards.Proofs.Archive.Surviving
import ResourceShards.Proofs.Resource.TypeDirectory

/-!
# ResourceShards.Proofs.Archive.Overriding

**The file that was declared last wins.** Of the files with one type and one entry name the last one
is written, in full, into the archive to which the resource of its name belongs, and no other entry
in any archive of the type has that name. The files that it overrides are not even opened. Within an
archive files come first, in the order in which they were declared.

* `Session.home?`: the archive that a file belongs to
* `Session.CopiesAtHome`: entries that are files, each in its archive
* `LastWins`: the archives of a type, with the files that come last
* `Session.released_lastWins`: what closing a session leaves
-/

namespace ResourceShards

/-! ### What archives are to hold -/

/-- The archives of a type hold the files that come last among those that are collected. -/
structure LastWins (sharder : Sharder) (order : DeclarationOrder) (look : Look Bytes)
    (collected : ResourceFile → Prop) (type : ResourceType) (documents : List ValuesDocument)
    (done : List Archive) : Prop where
  /-- All archives together have one entry of the name of a file. It is the file that comes last
  among those of that name, as it is found, and it is in the archive that the name of this file up
  to the first dot belongs to. -/
  once : ∀ file, collected file → file.type = type → ∃ winner entry name a,
    ComesLast order collected winner ∧ winner.type = type ∧
    winner.entryName = file.entryName ∧ Copies look winner entry ∧
    ResourceName.read (Session.stem winner) type = .ok name ∧
    done[sharder.assign name.text done.length]? = some a ∧ entry ∈ a ∧
    done.flatten.filter (fun e => e.name == file.entryName) = [entry]
  /-- In every archive the files come before all documents, in the order of declarations. -/
  ordered : ∀ index a, done[index]? = some a → ∃ files copies,
    a = copies ++ documents.map (ValuesDocument.entry sharder done.length index) ∧
    List.Forall₂ (Copies look) files copies ∧
    (files.Pairwise fun a b => order.Before a.path b.path) ∧
    ∀ file ∈ files, ComesLast order collected file ∧ file.type = type

namespace Session

/-! ### Files in their archives -/

/-- The archive of a file among those of its type, if the file is named for a resource. -/
def home? (sharder : Sharder) (shards : Nat) (file : ResourceFile) : Option Nat :=
  (storedName file).toOption.map fun name => sharder.assign name.text shards

/-- Entries that are the files of a type, each in the archive that it belongs to. -/
structure CopiesAtHome (look : Look Bytes) (sharder : Sharder) (files : List ResourceFile)
    (type : ResourceType) (shards : Nat) (more : Nat → List Entry) : Prop where
  /-- Every file belongs to an archive. -/
  home : ∀ file ∈ files, file.type = type → ∃ index, home? sharder shards file = some index ∧
    index < shards
  /-- Every archive has the files that belong to it, in their order. -/
  copies : ∀ index, List.Forall₂ (Copies look)
    (files.filter fun file => decide (file.type = type ∧ home? sharder shards file = some index))
    (more index)

theorem CopiesAtHome.none {look : Look Bytes} {sharder : Sharder} {file : ResourceFile}
    {type : ResourceType} {shards : Nat} (h : file.type ≠ type) :
    CopiesAtHome look sharder [file] type shards fun _ => [] where
  home := fun other hother htype => absurd (List.mem_singleton.1 hother ▸ htype) h
  copies := fun index => by
    rw [List.filter_cons_of_neg (by simp [h])]
    exact .nil

theorem CopiesAtHome.append {look : Look Bytes} {sharder : Sharder} {a b : List ResourceFile}
    {type : ResourceType} {shards : Nat} {more more' : Nat → List Entry}
    (ha : CopiesAtHome look sharder a type shards more)
    (hb : CopiesAtHome look sharder b type shards more') :
    CopiesAtHome look sharder (a ++ b) type shards fun index => more index ++ more' index where
  home := fun file hfile => (List.mem_append.1 hfile).elim (ha.home file) (hb.home file)
  copies := fun index => by
    rw [List.filter_append]
    exact List.rel_append (ha.copies index) (hb.copies index)

/-- `storeFrom` puts a file that is not hidden where it belongs. -/
theorem extended_of_storeFrom_home {look : Look Bytes} {file : ResourceFile} {s s' : Session}
    (hvisible : isHidden file = false) (h : storeFrom look file s = .ok () s') :
    Extended (CopiesAtHome look s.sharder [file]) s s' := by
  unfold storeFrom at h
  cases hlook : look file.path with
  | error reason =>
      rw [hlook] at h
      cases h
  | ok found =>
      simp only [hlook] at h
      have hends := storeEnds file found.contents s
      rw [h] at hends
      generalize hresult : (EStateM.Result.ok () s' : EStateM.Result Error Session Unit) = result
        at hends
      cases hends with
      | hidden hhidden =>
          rw [hvisible] at hhidden
          cases hhidden
      | homeless => cases hresult
      | refused => cases hresult
      | unreadable => cases hresult
      | @written name archives index a body hplace hnew hbody =>
          cases hresult
          have hnamed : WellNamed archives →
              WellNamed (archives.set index (a ++ [{ name := file.entryName, body }])) := by
            intro hnamed b hb
            rcases List.mem_or_eq_of_mem_set hb with hb | rfl
            · exact hnamed b hb
            · exact nodup_names_append (hnamed a (List.mem_of_getElem? hplace.found)) hnew
          have hhome : home? s.sharder archives.length file = some index := by
            rw [home?, hplace.named, ← hplace.assigned]
            rfl
          unfold setArchive
          rw [set_eq_appendAll _ hplace.found] at hnamed ⊢
          refine .of_insert _ hplace.typed hnamed ⟨fun other hother htype => ?_, fun other => ?_⟩
            fun other hother shards => .none hother.symm
          · rw [List.mem_singleton.1 hother]
            exact ⟨index, hhome, (List.getElem?_eq_some_iff.1 hplace.found).1⟩
          · by_cases heq : other = index
            · rw [if_pos heq, List.filter_cons_of_pos (by simp [hhome, heq])]
              exact .cons ⟨rfl, found, hlook, hbody⟩ .nil
            · have hother : ¬index = other := fun h => heq h.symm
              rw [if_neg heq, List.filter_cons_of_neg (by simp [hhome, hother])]
              exact .nil

/-- Files that `storeFrom` writes one after the other are where each of them belongs, in this order.
-/
theorem extended_of_forM_storeFrom_home {look : Look Bytes} {files : List ResourceFile}
    {s s' : Session} (hvisible : ∀ file ∈ files, isHidden file = false)
    (h : files.forM (storeFrom look) s = .ok () s') :
    Extended (CopiesAtHome look s.sharder files) s s' := by
  induction files generalizing s with
  | nil =>
      cases h
      refine .refl s' fun type shards => ⟨fun file hfile => ?_, fun index => .nil⟩
      exact absurd hfile List.not_mem_nil
  | cons file files ih =>
      obtain ⟨hfirst, hrest⟩ := List.forall_mem_cons.1 hvisible
      obtain ⟨t, hstore, hothers⟩ := exists_of_forM_cons_ok h
      have hone := extended_of_storeFrom_home hfirst hstore
      have hmore := ih hrest hothers
      rw [hone.sharder] at hmore
      exact hone.trans hmore fun _ _ _ _ ha hb => ha.append hb

/-! ### One entry of a name -/

/-- An archive has one entry of a name, if no two of its entries have the same. -/
theorem filter_name_eq {a : Archive} (h : a.names.Nodup) {e : Entry} (he : e ∈ a) :
    a.filter (fun other => other.name == e.name) = [e] := by
  obtain ⟨before, after, rfl⟩ := List.append_of_mem he
  rw [Archive.names, List.map_append, List.map_cons, List.nodup_append, List.nodup_cons] at h
  obtain ⟨-, ⟨hafter, -⟩, hbefore⟩ := h
  have hnone : before.filter (fun other => other.name == e.name) = [] := by
    refine List.filter_eq_nil_iff.2 fun other hother heq => ?_
    exact hbefore other.name (List.mem_map_of_mem hother) e.name List.mem_cons_self
      (beq_iff_eq.1 heq)
  have hnone' : after.filter (fun other => other.name == e.name) = [] := by
    refine List.filter_eq_nil_iff.2 fun other hother heq => hafter ?_
    exact List.mem_map.2 ⟨other, hother, beq_iff_eq.1 heq⟩
  have hhere : (e :: after).filter (fun other => other.name == e.name) =
      e :: after.filter fun other => other.name == e.name :=
    List.filter_cons_of_pos (beq_self_eq_true e.name)
  rw [List.filter_append, hnone, hhere, hnone', List.nil_append]

/-- What one list of several has alone, all together have. -/
theorem filter_flatten_eq {α : Type} {p : α → Bool} {lists : List (List α)} {index : Nat}
    {found kept : List α} (hfound : lists[index]? = some found) (hkept : found.filter p = kept)
    (hothers : ∀ other list, other ≠ index → lists[other]? = some list → list.filter p = []) :
    lists.flatten.filter p = kept := by
  induction lists generalizing index with
  | nil => cases hfound
  | cons first lists ih =>
      rw [List.flatten_cons, List.filter_append]
      cases index with
      | zero =>
          obtain rfl : first = found := Option.some.inj hfound
          have hrest : lists.flatten.filter p = [] := by
            refine List.filter_eq_nil_iff.2 fun x hx => ?_
            obtain ⟨list, hlist, hx⟩ := List.mem_flatten.1 hx
            obtain ⟨other, hother⟩ := List.getElem?_of_mem hlist
            have hnone := hothers (other + 1) list (Nat.succ_ne_zero other) hother
            exact List.filter_eq_nil_iff.1 hnone x hx
          rw [hkept, hrest, List.append_nil]
      | succ index =>
          rw [hothers 0 first (Nat.succ_ne_zero index).symm rfl, List.nil_append]
          refine ih hfound fun other list hother hlist => ?_
          exact hothers (other + 1) list (fun h => hother (Nat.succ.inj h)) hlist

/-! ### Reading only what survives -/

/-- `storeFrom` asks the disk for the path of its file only. -/
theorem storeFrom_congr {look look' : Look Bytes} {file : ResourceFile}
    (h : look' file.path = look file.path) : storeFrom look' file = storeFrom look file := by
  unfold storeFrom
  rw [h]

theorem forM_storeFrom_congr {look look' : Look Bytes} {files : List ResourceFile}
    (h : ∀ file ∈ files, look' file.path = look file.path) :
    files.forM (storeFrom look') = files.forM (storeFrom look) := by
  induction files with
  | nil => rfl
  | cons file files ih =>
      obtain ⟨hfirst, hrest⟩ := List.forall_mem_cons.1 h
      show (storeFrom look' file >>= fun _ => files.forM (storeFrom look')) = _
      rw [storeFrom_congr hfirst, ih hrest]
      rfl

/-- What is done after something depends on what that comes to alone. -/
theorem bind_congr_at {α β : Type} {x y : Filing α} {f : α → Filing β} {s : Session}
    (h : x s = y s) : (x >>= f) s = (y >>= f) s := by
  show EStateM.bind x f s = EStateM.bind y f s
  unfold EStateM.bind
  rw [h]

/-- `release` opens no files but the `survivors`. -/
theorem release_congr {look look' : Look Bytes} {s : Session}
    (h : ∀ file ∈ s.survivors, look' file.path = look file.path) :
    release look' s = release look s := by
  have hclose : close look' s = close look s := by
    cases hfinished : s.finished? with
    | some archives =>
        unfold close
        rw [bind_of_ok (show (get : Filing Session) s = .ok s s from rfl),
          bind_of_ok (show (get : Filing Session) s = .ok s s from rfl), hfinished]
        rfl
    | none =>
        rw [close_of_open hfinished, close_of_open hfinished]
        refine bind_congr_at ?_
        unfold Filing.labelled
        rw [flushFiles_eq, flushFiles_eq, forM_storeFrom_congr h]
  exact bind_congr_at hclose

/-! ### What is in the archives -/

/-- A file that `ofPath` makes is not hidden. -/
theorem isHidden_of_ofPath {path : Path} {file : ResourceFile}
    (h : ResourceFile.ofPath path = .ok file) : isHidden file = false := by
  obtain ⟨up, hfile⟩ := ResourceFile.exists_parts h
  have hshown := hfile.shown
  rw [← hfile.path] at hshown
  exact beq_eq_false_iff_ne.2 hshown

/-- A file with a `home?` is named for a resource, and the sharder says where that belongs. -/
theorem home?_eq_some {sharder : Sharder} {shards index : Nat} {file : ResourceFile}
    (h : home? sharder shards file = some index) : ∃ name,
      ResourceName.read (stem file) file.type = .ok name ∧
      sharder.assign name.text shards = index := by
  obtain ⟨name, hname, hassigned⟩ := Option.map_eq_some_iff.1 h
  cases hstored : storedName file with
  | error e =>
      rw [hstored] at hname
      cases hname
  | ok stored =>
      rw [hstored] at hname
      obtain rfl : stored = name := Option.some.inj hname
      exact ⟨stored, Error.eq_ok_of_labelling hstored, hassigned⟩

/-- `survivors` with one type and entry name are one. -/
theorem eq_of_mem_survivors {s : Session} {a b : ResourceFile} (ha : a ∈ s.survivors)
    (hb : b ∈ s.survivors) (htype : a.type = b.type) (hentry : a.entryName = b.entryName) :
    a = b := by
  by_contra hne
  have hsymm : Std.Symm fun a b : ResourceFile => (a.type, a.entryName) ≠ (b.type, b.entryName) :=
    ⟨fun _ _ h => h.symm⟩
  exact s.survivors_apart.forall ha hb hne (Prod.ext htype hentry)

section LastWins

variable {s : Session} {look : Look Bytes} {type : ResourceType} {copied : Nat → List Entry}
  {documents : List ValuesDocument} {done : List Archive}

/-- An archive that is not the `home?` of a file has no entry of its name. -/
theorem CopiesAtHome.filter_eq_nil
    (h : CopiesAtHome look s.sharder s.survivors type done.length copied)
    (hdone : ∀ index a, done[index]? = some a →
      a = copied index ++ documents.map (ValuesDocument.entry s.sharder done.length index))
    (hnamed : WellNamed done) {file : ResourceFile} (hfile : file ∈ s.survivors)
    (htype : file.type = type) {index other : Nat} {a b : Archive}
    (hhome : home? s.sharder done.length file = some index) (ha : done[index]? = some a)
    {entry : Entry} (hentry : entry ∈ copied index) (hname : entry.name = file.entryName)
    (hother : other ≠ index) (hb : done[other]? = some b) :
    b.filter (fun e => e.name == file.entryName) = [] := by
  refine List.filter_eq_nil_iff.2 fun e he hsame => ?_
  rw [beq_iff_eq] at hsame
  rw [hdone other b hb, List.mem_append] at he
  rcases he with he | he
  · -- a file with this name is the same file, which belongs elsewhere
    obtain ⟨found, hfound, hcopy⟩ := exists_left_of_forall₂ (h.copies other) he
    obtain ⟨hsurvives, hat⟩ := List.mem_filter.1 hfound
    obtain ⟨hfoundType, hfoundHome⟩ := of_decide_eq_true hat
    have heq : found = file := eq_of_mem_survivors hsurvives hfile
      (hfoundType.trans htype.symm) (hcopy.1.symm.trans hsame)
    rw [heq, hhome] at hfoundHome
    exact hother (Option.some.inj hfoundHome).symm
  · -- a document with this name would have it beside the file as well
    obtain ⟨d, hd, rfl⟩ := List.mem_map.1 he
    have hnames := hnamed a (List.mem_of_getElem? ha)
    rw [hdone index a ha, Archive.names_append, List.nodup_append] at hnames
    refine hnames.2.2 entry.name (List.mem_map_of_mem hentry)
      (d.entry s.sharder done.length index).name (List.mem_map_of_mem (List.mem_map_of_mem hd)) ?_
    exact hname.trans hsame.symm

/-- Archives in which the `survivors` stand where they belong, and documents behind them, are those
of `LastWins`. -/
theorem CopiesAtHome.lastWins
    (h : CopiesAtHome look s.sharder s.survivors type done.length copied) (hkeys : s.Keyed)
    (hdone : ∀ index a, done[index]? = some a →
      a = copied index ++ documents.map (ValuesDocument.entry s.sharder done.length index))
    (hnamed : WellNamed done) :
    LastWins s.sharder s.order look (· ∈ s.files.map Prod.snd) type documents done where
  once := by
    intro file hfile htype
    obtain ⟨winner, hwinner, hkey⟩ :=
      exists_mem_lasts (fun file => (file.type, file.entryName)) (mem_sortedFiles.2 hfile)
    rw [← survivors_eq] at hwinner
    obtain ⟨hwinnerType, hwinnerName⟩ := Prod.mk.inj hkey
    rw [htype] at hwinnerType
    obtain ⟨index, hhome, hlt⟩ := h.home winner hwinner hwinnerType
    obtain ⟨name, hread, hassigned⟩ := home?_eq_some hhome
    rw [hwinnerType] at hread
    -- its entry is in the archive that it belongs to
    obtain ⟨a, ha⟩ : ∃ a, done[index]? = some a := ⟨done[index], List.getElem?_eq_getElem hlt⟩
    obtain ⟨entry, hentry, hcopies⟩ := exists_right_of_forall₂ (h.copies index)
      (List.mem_filter.2 ⟨hwinner, decide_eq_true ⟨hwinnerType, hhome⟩⟩)
    have hmem : entry ∈ a := hdone index a ha ▸ List.mem_append_left _ hentry
    have honce : a.filter (fun e => e.name == winner.entryName) = [entry] := by
      rw [← hcopies.1]
      exact filter_name_eq (hnamed a (List.mem_of_getElem? ha)) hmem
    have hplace : done[s.sharder.assign name.text done.length]? = some a := by rwa [hassigned]
    refine ⟨winner, entry, name, a, hkeys.mem_survivors_iff.1 hwinner, hwinnerType, hwinnerName,
      hcopies, hread, hplace, hmem, ?_⟩
    rw [← hwinnerName]
    refine filter_flatten_eq ha honce fun other b hother hb => ?_
    exact h.filter_eq_nil hdone hnamed hwinner hwinnerType hhome ha hentry hcopies.1 hother hb
  ordered := by
    intro index a ha
    refine ⟨_, copied index, hdone index a ha, h.copies index, ?_, fun file hfile => ?_⟩
    · refine hkeys.sortedFiles_ordered.sublist ?_
      exact List.filter_sublist.trans s.survivors_sublist
    · obtain ⟨hsurvives, hat⟩ := List.mem_filter.1 hfile
      exact ⟨hkeys.mem_survivors_iff.1 hsurvives, (of_decide_eq_true hat).1⟩

end LastWins

/-- A session whose `survivors` and values are all written is `released`. -/
theorem released_of_written {look : Look Bytes} {s t u : Session} (hopen : s.finished? = none)
    (hfiles : s.survivors.forM (storeFrom look) { s with files := [] } = .ok () t)
    (hvalues : flushValues t = .ok () u) : released look s = .ok u.outputs := by
  have hflush : flushFiles look s = .ok () t := (flushFiles_eq look s).trans hfiles
  have hrelease : release look s = .ok u.outputs u.finish :=
    bind_of_ok (close_of_written hopen hflush hvalues) _
  rw [released, hrelease]

/-- A session that is `released` leaves in the archives of a type what its files add, and behind
that the documents of its declarations. -/
theorem exists_of_released {More : ResourceType → Nat → (Nat → List Entry) → Prop}
    {look : Look Bytes} {s : Session} {finished : Outputs} (hopen : s.finished? = none)
    (hreleased : released look s = .ok finished)
    (hfiles : ∀ t, s.survivors.forM (storeFrom look) { s with files := [] } = .ok () t →
      Extended More { s with files := [] } t)
    {type : ResourceType} {archives : List Archive}
    (harchives : s.outputs.get? type = some archives) :
    ∃ copied documents,
      let more := fun index =>
        copied index ++ documents.map (ValuesDocument.entry s.sharder archives.length index)
      More type archives.length copied ∧
      List.Forall₂ (fun item d => DocumentOf s.rootAttributes s.sharder archives.length item.2 d)
        (s.sortedValues.filter fun item => decide (item.1.2 = type)) documents ∧
      finished.get? type = some (appendAll more archives) ∧
      (WellNamed archives → WellNamed (appendAll more archives)) := by
  obtain ⟨t, u, hwritten, hvalues, rfl⟩ := released_ok hopen hreleased
  have hcopies := hfiles t hwritten
  have hdocuments := extended_of_forM_storeValues hvalues
  -- writing files leaves everything that documents are made from
  have hsharder : t.sharder = s.sharder := hcopies.sharder
  have hattributes : t.rootAttributes = s.rootAttributes := hcopies.attributes
  have hsorted : t.sortedValues = s.sortedValues := by
    have horder : t.order = s.order := hcopies.order
    have hheld : t.values = s.values := hcopies.values
    unfold sortedValues place
    rw [horder, hheld]
  simp only [hsharder, hattributes, hsorted] at hdocuments
  obtain ⟨copied, hcopied, hout, hnamed⟩ := hcopies.some type archives harchives
  obtain ⟨more, ⟨documents, rfl, hall⟩, hout', hnamed'⟩ := hdocuments.some type _ hout
  rw [length_appendAll] at hall hout' hnamed'
  rw [appendAll_appendAll] at hout' hnamed'
  exact ⟨copied, documents, hcopied, hall, hout', fun h => hnamed' (hnamed h)⟩

/-- **The last file wins.** Where closing a session with empty archives succeeds, each archive holds
the collected files that `ComesLast` holds of and are assigned to it, then its documents. No other
file is opened: with any disk that agrees on these `release` comes to the same. -/
theorem released_lastWins {outputs finished : Outputs} {sharder : Sharder}
    {order : DeclarationOrder} {look : Look Bytes} {ds : List Delivery}
    (hempty : ∀ type archives, outputs.get? type = some archives → ∀ a ∈ archives, a = [])
    (hpaths : ∀ file, Delivery.file file ∈ ds → ResourceFile.ofPath file.path = .ok file)
    (hreleased : released look (collectEach { outputs, sharder, order } ds) = .ok finished) :
    (∀ type archives, outputs.get? type = some archives → ∃ documents done,
      finished.get? type = some done ∧ done.length = archives.length ∧
      (∀ d ∈ documents, d.Tells outputs sharder (accepted { outputs, sharder, order } ds) type
        archives.length) ∧
      LastWins sharder order look (CollectedFile outputs ds) type documents done) ∧
    ∀ look' : Look Bytes,
      (∀ file, ComesLast order (CollectedFile outputs ds) file →
        look' file.path = look file.path) →
      release look' (collectEach { outputs, sharder, order } ds) =
        release look (collectEach { outputs, sharder, order } ds) := by
  have hds := collectAll_accepted { outputs, sharder, order } ds
  have hhasFiles := (hasFiles_new outputs sharder order).collectEach
    (keyed_new outputs sharder order) ds
  rw [List.nil_append] at hhasFiles
  generalize accepted { outputs, sharder, order } ds = kept at hds ⊢
  generalize collectEach { outputs, sharder, order } ds = s at hds hhasFiles hreleased ⊢
  obtain ⟨hkeys, hsame⟩ := (keyed_new outputs sharder order).collectAll hds
  have hholds : s.Holds kept := (holds_nil outputs sharder order).collectAll hds
  obtain rfl : s.outputs = outputs := hsame.outputs
  obtain rfl : s.sharder = sharder := hsame.sharder
  obtain rfl : s.order = order := hsame.order
  have hcollected : (· ∈ s.files.map Prod.snd) = CollectedFile s.outputs ds :=
    funext fun file => propext (hhasFiles file)
  rw [← hcollected]
  refine ⟨fun type archives harchives => ?_, fun look' hlook => release_congr fun file hfile =>
    hlook file (hkeys.mem_survivors_iff.1 hfile)⟩
  have hvisible : ∀ file ∈ s.survivors, isHidden file = false := by
    intro file hfile
    obtain ⟨before, after, rfl, -⟩ := (hhasFiles file).1 (hkeys.mem_survivors_iff.1 hfile).mem
    exact isHidden_of_ofPath (hpaths file (by simp))
  obtain ⟨copied, documents, hcopied, hall, hdone, hnamed⟩ := exists_of_released hsame.finished
    hreleased (fun t hfiles => extended_of_forM_storeFrom_home hvisible hfiles) harchives
  have hnil := hempty type archives harchives
  refine ⟨documents, _, hdone, length_appendAll _ _, fun d hd => ?_, ?_⟩
  · obtain ⟨⟨key, held⟩, hin, hdocument⟩ := exists_left_of_forall₂ hall hd
    obtain ⟨hsortedIn, htype⟩ := List.mem_filter.1 hin
    obtain rfl : key.2 = type := of_decide_eq_true htype
    exact hholds.tells hkeys (s.sortedValues_perm.subset hsortedIn) hdocument
  · rw [← length_appendAll] at hcopied
    refine hcopied.lastWins hkeys (fun index a ha => ?_) (hnamed fun a ha => ?_)
    · rw [length_appendAll]
      rw [getElem?_appendAll] at ha
      obtain ⟨before, hbefore, rfl⟩ := Option.map_eq_some_iff.1 ha
      rw [hnil before (List.mem_of_getElem? hbefore), List.nil_append]
    · rw [hnil a ha]
      exact .nil

/-- A raw file of some directory. -/
def rawFileOf (root : String) : ResourceFile :=
  ⟨.ofString (root ++ "/res/raw/a.txt"), .ofString (root ++ "/res"), "raw", .raw, "", {}⟩

/-- Two files of one name. -/
def overlapping : List Delivery :=
  [.file (rawFileOf "two"), .file (rawFileOf "one")]

/-- The order of their directories. -/
def roots : DeclarationOrder :=
  .ofFiles [.ofString "one", .ofString "two"]

/-- A disk on which only one of them can be opened. -/
def disk : Look Bytes := fun p =>
  if p = (rawFileOf "two").path then .ok (.file (Bytes.ofString "text")) else .error .notFound

/-- A session to which they were delivered. -/
def overlappingSession : Session :=
  collectEach { outputs := [(.raw, [[], []])], sharder := .fnv, order := roots } overlapping

theorem survivors_overlappingSession : overlappingSession.survivors = [rawFileOf "two"] := by
  have hfiles : overlappingSession.files.map Prod.snd = [rawFileOf "two", rawFileOf "one"] := by
    decide +kernel
  rw [survivors, hfiles, Place.sort_pair]
  decide +kernel

theorem exists_released_overlappingSession :
    ∃ finished, released disk overlappingSession = .ok finished := by
  let act : Filing Unit := [rawFileOf "two"].forM (storeFrom disk) >>= fun _ => flushValues
  have hrun : (act.run' { overlappingSession with files := [] }).isSome = true := by decide +kernel
  cases hwritten : act { overlappingSession with files := [] } with
  | error e u =>
      delta EStateM.run' EStateM.run at hrun
      rw [hwritten] at hrun
      cases hrun
  | ok v u =>
      obtain ⟨w, t, hfiles, hvalues⟩ := exists_of_bind_ok hwritten
      rw [← survivors_overlappingSession] at hfiles
      exact ⟨u.outputs, released_of_written rfl hfiles hvalues⟩

theorem released_lastWins_overlapping :
    (∀ file, Delivery.file file ∈ overlapping → ResourceFile.ofPath file.path = .ok file) ∧
      ∃ finished documents done, released disk overlappingSession = .ok finished ∧
        finished.get? .raw = some done ∧
        LastWins .fnv roots disk (CollectedFile [(.raw, [[], []])] overlapping) .raw documents
          done := by
  have hempty : ∀ type archives, Table.get? type [(ResourceType.raw, [([] : Archive), []])] =
      some archives → ∀ a ∈ archives, a = [] := by
    intro type archives harchives
    obtain ⟨-, rfl⟩ := Prod.mk.inj (List.mem_singleton.1 (Table.mem_of_get? harchives))
    decide
  have hpaths : ∀ file, Delivery.file file ∈ overlapping →
      ResourceFile.ofPath file.path = .ok file := by
    intro file hfile
    rcases List.mem_pair.1 hfile with h | h
    · obtain rfl := Delivery.file.inj h
      decide +kernel
    · obtain rfl := Delivery.file.inj h
      decide +kernel
  obtain ⟨finished, hreleased⟩ := exists_released_overlappingSession
  obtain ⟨documents, done, hdone, -, -, hwins⟩ :=
    (released_lastWins hempty hpaths hreleased).1 .raw [[], []] rfl
  exact ⟨hpaths, finished, documents, done, hreleased, hdone, hwins⟩

end Session

end ResourceShards
