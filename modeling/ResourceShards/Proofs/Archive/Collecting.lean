import ResourceShards.Archive.Archiver
import ResourceShards.Proofs.Table

/-!
# ResourceShards.Proofs.Archive.Collecting

**What a session holds after some deliveries.** A delivery is about one source file. What a session
holds of a file depends on the deliveries about that file and their order alone, and the archives
are left as they are.

* `Session.collectAll`: deliveries one after the other, up to the first that is refused
* `Session.released`: what closing a session comes to
* `Session.Keyed`: what is held stands under the path of its file, once
* `Session.AgreeAt`: two sessions hold the same of a file
-/

namespace ResourceShards

open Markup (Attribute)

namespace Delivery

/-- The source file that a delivery is about. -/
def source : Delivery → ResourceFile
  | .file f => f
  | .collected f _ => f

/-- The components of its path. -/
def parts (d : Delivery) : List Path.Component :=
  d.source.path.components

end Delivery

namespace Session

/-- Collects what is delivered. -/
def collect (s : Session) : Delivery → Except Error Session
  | .file file => .ok (s.collectFile file)
  | .collected source (.rootAttribute attr) => .ok (s.collectRootAttribute source attr)
  | .collected source (.value name payload) => s.collectValue source name payload

/-- Collects deliveries, up to the first that is refused. -/
def collectAll (s : Session) : List Delivery → Except Error Session
  | [] => .ok s
  | d :: rest =>
    match s.collect d with
    | .ok next => next.collectAll rest
    | .error e => .error e

/-- What closing a session comes to: its archives or a failure. -/
def released (look : Look Bytes) (s : Session) : Except Error Outputs :=
  match release look s with
  | .ok archives _ => .ok archives
  | .error e _ => .error e

/-- The declarations of a type that are held of a source file. -/
def held (s : Session) (source : ResourceFile) (type : ResourceType) : Holding :=
  (s.values.get? (source.path.components, type)).getD { source }

/-- A session with a declaration under its name. -/
def hold (s : Session) (source : ResourceFile) (name : ResourceName) (payload : Bytes) : Session :=
  { s with
    values := s.values.insert (source.path.components, name.type)
      { s.held source name.type with
        payloads := (s.held source name.type).payloads.insert name.text payload } }

/-! ### One delivery -/

/-- `collectValue` drops a declaration, or does `hold` it with the `longer` payload, or refuses it.
-/
theorem collectValue_eq (s : Session) (source : ResourceFile) (name : ResourceName)
    (payload : Bytes) :
    s.collectValue source name payload =
      if s.drops name then .ok s
      else
        match longer name.text ((s.held source name.type).payloads.get? name.text) payload with
        | .error e => .error e
        | .ok kept => .ok (s.hold source name kept) := rfl

/-- What `collectValue` does with a declaration that is not refused. -/
theorem collectValue_ok {s next : Session} {source : ResourceFile} {name : ResourceName}
    {payload : Bytes} (h : s.collectValue source name payload = .ok next) :
    (s.drops name = true ∧ next = s) ∨
      (s.drops name = false ∧ ∃ kept,
        longer name.text ((s.held source name.type).payloads.get? name.text) payload = .ok kept ∧
        next = s.hold source name kept) := by
  rw [collectValue_eq] at h
  cases hdrops : s.drops name with
  | true =>
      rw [if_pos hdrops] at h
      exact .inl ⟨rfl, (Except.ok.inj h).symm⟩
  | false =>
      rw [if_neg (Bool.eq_false_iff.1 hdrops)] at h
      split at h
      · cases h
      · rename_i kept hkept
        exact .inr ⟨rfl, kept, hkept, (Except.ok.inj h).symm⟩

/-- `longer` refuses only two payloads of one length. -/
theorem longer_error {key : String} {kept? : Option Bytes} {offered : Bytes} {e : Error}
    (h : longer key kept? offered = .error e) : e = .valueConflict key := by
  unfold longer at h
  split at h
  · cases h
  · split at h
    · cases h
    · split at h
      · cases h
      · split at h
        · cases h
        · exact (Except.error.inj h).symm

/-- `collect` refuses a delivery for a conflict only. -/
theorem collect_error {s : Session} {d : Delivery} {e : Error} (h : s.collect d = .error e) :
    ∃ key, e = .valueConflict key := by
  cases d with
  | file file => cases h
  | collected source item =>
      cases item with
      | rootAttribute attr => cases h
      | value name payload =>
          rw [collect, collectValue_eq] at h
          split at h
          · cases h
          · split at h
            · rename_i found hfound
              rw [← Except.error.inj h]
              exact ⟨name.text, longer_error hfound⟩
            · cases h

/-- Two sessions with the same archives, that differ in what they hold at most. -/
structure SameArchives (s r : Session) : Prop where
  outputs : s.outputs = r.outputs
  sharder : s.sharder = r.sharder
  order : s.order = r.order
  taken : s.taken = r.taken
  finished : s.finished? = r.finished?

theorem SameArchives.refl (s : Session) : SameArchives s s :=
  ⟨rfl, rfl, rfl, rfl, rfl⟩

theorem SameArchives.symm {s r : Session} (h : SameArchives s r) : SameArchives r s :=
  ⟨h.outputs.symm, h.sharder.symm, h.order.symm, h.taken.symm, h.finished.symm⟩

theorem SameArchives.trans {s r t : Session} (h : SameArchives s r) (h' : SameArchives r t) :
    SameArchives s t :=
  ⟨h.outputs.trans h'.outputs, h.sharder.trans h'.sharder, h.order.trans h'.order,
    h.taken.trans h'.taken, h.finished.trans h'.finished⟩

/-- `collect` leaves the archives as they are. -/
theorem sameArchives_of_collect {s next : Session} {d : Delivery} (h : s.collect d = .ok next) :
    SameArchives next s := by
  cases d with
  | file file =>
      obtain rfl := Except.ok.inj h
      unfold collectFile
      split
      · exact ⟨rfl, rfl, rfl, rfl, rfl⟩
      · exact .refl s
  | collected source item =>
      cases item with
      | rootAttribute attr =>
          obtain rfl := Except.ok.inj h
          exact ⟨rfl, rfl, rfl, rfl, rfl⟩
      | value name payload =>
          rcases collectValue_ok h with ⟨-, rfl⟩ | ⟨-, kept, -, rfl⟩
          · exact .refl next
          · exact ⟨rfl, rfl, rfl, rfl, rfl⟩

/-! ### Keys -/

/-- What a session holds stands under the path of its file, and under that once. -/
structure Keyed (s : Session) : Prop where
  /-- Every path has one file. -/
  files : (s.files.map Prod.fst).Nodup
  /-- Every path and type have one holding. -/
  values : (s.values.map Prod.fst).Nodup
  /-- Files stand under their paths. -/
  ownFile : ∀ entry ∈ s.files, entry.2.path.components = entry.1
  /-- Holdings stand under the paths of their sources. -/
  ownSource : ∀ entry ∈ s.values, entry.2.source.path.components = entry.1.1

/-- A session that has collected nothing is `Keyed`. -/
theorem keyed_new (outputs : Outputs) (sharder : Sharder) (order : DeclarationOrder) :
    Keyed { outputs, sharder, order } where
  files := .nil
  values := .nil
  ownFile := fun _ h => absurd h List.not_mem_nil
  ownSource := fun _ h => absurd h List.not_mem_nil

theorem Keyed.held_source {s : Session} (h : s.Keyed) (source : ResourceFile)
    (type : ResourceType) :
    (s.held source type).source.path.components = source.path.components := by
  unfold held
  cases hget : s.values.get? (source.path.components, type) with
  | none => rfl
  | some found => exact h.ownSource _ (Table.mem_of_get? hget)

/-- `collect` keeps a session `Keyed`. -/
theorem Keyed.collect {s next : Session} (h : s.Keyed) {d : Delivery}
    (hd : s.collect d = .ok next) : next.Keyed := by
  cases d with
  | file file =>
      obtain rfl := Except.ok.inj hd
      unfold collectFile
      split
      · refine ⟨Table.nodup_keys_insert _ _ h.files, h.values, fun entry hentry => ?_, h.ownSource⟩
        rcases Table.mem_insert hentry with rfl | hentry
        · rfl
        · exact h.ownFile entry hentry
      · exact h
  | collected source item =>
      cases item with
      | rootAttribute attr =>
          obtain rfl := Except.ok.inj hd
          exact ⟨h.files, h.values, h.ownFile, h.ownSource⟩
      | value name payload =>
          rcases collectValue_ok hd with ⟨-, rfl⟩ | ⟨-, kept, -, rfl⟩
          · exact h
          · refine ⟨h.files, Table.nodup_keys_insert _ _ h.values, h.ownFile,
              fun entry hentry => ?_⟩
            rcases Table.mem_insert hentry with rfl | hentry
            · exact h.held_source source name.type
            · exact h.ownSource entry hentry

/-- `collectAll` keeps a session `Keyed`, and its archives as they are. -/
theorem Keyed.collectAll {s last : Session} (h : s.Keyed) {ds : List Delivery}
    (hds : s.collectAll ds = .ok last) : last.Keyed ∧ SameArchives last s := by
  induction ds generalizing s with
  | nil =>
      obtain rfl := Except.ok.inj hds
      exact ⟨h, .refl _⟩
  | cons d ds ih =>
      rw [Session.collectAll] at hds
      split at hds
      · rename_i next hnext
        obtain ⟨hlast, hsame⟩ := ih (h.collect hnext) hds
        exact ⟨hlast, hsame.trans (sameArchives_of_collect hnext)⟩
      · cases hds

/-! ### One file at a time -/

/-- Two sessions hold the same of the file with a path. -/
structure AgreeAt (parts : List Path.Component) (s r : Session) : Prop where
  /-- The file itself. -/
  file : s.files.get? parts = r.files.get? parts
  /-- Its declarations. -/
  values : ∀ type, s.values.get? (parts, type) = r.values.get? (parts, type)
  /-- Its root attributes. -/
  attributes : s.rootAttributes.get? parts = r.rootAttributes.get? parts

theorem AgreeAt.refl (parts : List Path.Component) (s : Session) : AgreeAt parts s s :=
  ⟨rfl, fun _ => rfl, rfl⟩

theorem AgreeAt.symm {parts : List Path.Component} {s r : Session} (h : AgreeAt parts s r) :
    AgreeAt parts r s :=
  ⟨h.file.symm, fun type => (h.values type).symm, h.attributes.symm⟩

theorem AgreeAt.trans {parts : List Path.Component} {s r t : Session} (h : AgreeAt parts s r)
    (h' : AgreeAt parts r t) : AgreeAt parts s t :=
  ⟨h.file.trans h'.file, fun type => (h.values type).trans (h'.values type),
    h.attributes.trans h'.attributes⟩

/-- `collect` changes nothing about another file than that of the delivery. -/
theorem AgreeAt.of_collect {s next : Session} {d : Delivery} (h : s.collect d = .ok next)
    {parts : List Path.Component} (hparts : d.parts ≠ parts) : AgreeAt parts next s := by
  cases d with
  | file file =>
      obtain rfl := Except.ok.inj h
      have hpath : file.path.components ≠ parts := hparts
      unfold collectFile
      split
      · exact ⟨(Table.get?_insert _ _ _ _).trans (if_neg hpath), fun _ => rfl, rfl⟩
      · exact .refl parts s
  | collected source item =>
      have hpath : source.path.components ≠ parts := hparts
      cases item with
      | rootAttribute attr =>
          obtain rfl := Except.ok.inj h
          exact ⟨rfl, fun _ => rfl, (Table.get?_insert _ _ _ _).trans (if_neg hpath)⟩
      | value name payload =>
          rcases collectValue_ok h with ⟨-, rfl⟩ | ⟨-, kept, -, rfl⟩
          · exact .refl parts next
          · refine ⟨rfl, fun type => (Table.get?_insert _ _ _ _).trans (if_neg fun heq => ?_), rfl⟩
            exact hpath (Prod.mk.inj heq).1

/-- Sessions with the same archives drop the same. -/
theorem SameArchives.drops {s r : Session} (h : SameArchives s r) (name : ResourceName) :
    s.drops name = r.drops name := by
  unfold Session.drops accepts
  rw [h.outputs]

/-- A delivery about a file of which two sessions hold the same is refused by both for one reason,
or they `AgreeAt` that file afterwards. -/
theorem AgreeAt.collect {s r : Session} {d : Delivery} (hsame : SameArchives s r)
    (h : AgreeAt d.parts s r) :
    (∃ e, s.collect d = .error e ∧ r.collect d = .error e) ∨
      ∃ s' r', s.collect d = .ok s' ∧ r.collect d = .ok r' ∧ AgreeAt d.parts s' r' := by
  cases d with
  | file file =>
      refine .inr ⟨_, _, rfl, rfl, ?_⟩
      have haccepts : s.accepts file.type = r.accepts file.type := by
        unfold accepts
        rw [hsame.outputs]
      unfold collectFile
      rw [haccepts]
      split
      · refine ⟨?_, h.values, h.attributes⟩
        rw [Table.get?_insert, Table.get?_insert, h.file]
      · exact h
  | collected source item =>
      cases item with
      | rootAttribute attr =>
          have hattributes : s.rootAttributes.get? source.path.components =
            r.rootAttributes.get? source.path.components := h.attributes
          refine .inr ⟨_, _, rfl, rfl, h.file, h.values, ?_⟩
          unfold collectRootAttribute Table.alter
          rw [Table.get?_insert, Table.get?_insert, h.attributes, hattributes]
      | value name payload =>
          have hvalues : s.values.get? (source.path.components, name.type) =
            r.values.get? (source.path.components, name.type) := h.values name.type
          have hheld : s.held source name.type = r.held source name.type := by
            rw [held, held, hvalues]
          simp only [Session.collect, collectValue_eq, hsame.drops name, hheld]
          split
          · exact .inr ⟨s, r, rfl, rfl, h⟩
          · split
            · rename_i e _
              exact .inl ⟨e, rfl, rfl⟩
            · rename_i kept _
              refine .inr ⟨_, _, rfl, rfl, h.file, fun type => ?_, h.attributes⟩
              unfold hold
              rw [Table.get?_insert, Table.get?_insert, hheld, h.values type]

end Session

end ResourceShards
