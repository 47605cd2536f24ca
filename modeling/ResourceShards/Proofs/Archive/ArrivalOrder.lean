import ResourceShards.Proofs.Archive.Collecting
import ResourceShards.Proofs.Archive.Place
import ResourceShards.Proofs.Runs

/-!
# ResourceShards.Proofs.Archive.ArrivalOrder

**Archives do not depend on the order of arrival.** Deliveries about different files may be
exchanged: either order is refused for a conflict, or both are collected and give the same archives
when the session is closed, or the same failure. Only the order of deliveries about one file counts.

Two sessions are alike if they hold the same of every file. Their tables may list it in different
orders, but everything is sorted by places before it is written, and places are different.

* `Delivery.Rearranged`: the same deliveries, those about one file in the same order
* `Session.Alike`: the sessions that are reached
* `Filing.Matches`: what is done to them stops for the same failure, or leaves them alike
-/

namespace ResourceShards

open Markup (Attribute)

namespace Delivery

/-- The deliveries about one file. -/
def about (parts : List Path.Component) (ds : List Delivery) : List Delivery :=
  ds.filter fun d => decide (d.parts = parts)

theorem about_cons_self (d : Delivery) (ds : List Delivery) :
    about d.parts (d :: ds) = d :: about d.parts ds :=
  List.filter_cons_of_pos (decide_eq_true rfl)

theorem about_cons_of_ne {parts : List Path.Component} {d : Delivery} (h : d.parts ≠ parts)
    (ds : List Delivery) : about parts (d :: ds) = about parts ds :=
  List.filter_cons_of_neg (by simpa using h)

/-- Deliveries `ds'` that are `ds` in another order, in which those about one file stand as before.
-/
structure Rearranged (ds ds' : List Delivery) : Prop where
  /-- They are the same. -/
  perm : ds.Perm ds'
  /-- Those about one file come in the same order. -/
  about : ∀ parts, Delivery.about parts ds = Delivery.about parts ds'

/-- Two deliveries about different files may be exchanged. -/
theorem Rearranged.exchange {d d' : Delivery} (h : d.parts ≠ d'.parts) (ds : List Delivery) :
    Rearranged (d :: d' :: ds) (d' :: d :: ds) := by
  refine ⟨.swap _ _ _, ?_⟩
  intro parts
  by_cases hparts : d.parts = parts
  · have hne : d'.parts ≠ parts := fun hparts' => h (hparts.trans hparts'.symm)
    subst hparts
    rw [about_cons_self, about_cons_of_ne hne, about_cons_of_ne hne, about_cons_self]
  · rw [about_cons_of_ne hparts]
    by_cases hparts' : d'.parts = parts
    · subst hparts'
      rw [about_cons_self, about_cons_self, about_cons_of_ne hparts]
    · rw [about_cons_of_ne hparts', about_cons_of_ne hparts', about_cons_of_ne hparts]

theorem Rearranged.symm {ds ds' : List Delivery} (h : Rearranged ds ds') : Rearranged ds' ds :=
  ⟨h.perm.symm, fun parts => (h.about parts).symm⟩

end Delivery

namespace Session

open Delivery (about Rearranged)

/-! ### Deliveries about one file -/

/-- What a session holds of a file after `collectAll` is what it holds after those deliveries that
are `about` the file. -/
theorem collectAll_about {parts : List Path.Component} {s r last : Session} {ds : List Delivery}
    (hsame : SameArchives s r) (h : AgreeAt parts s r) (hds : s.collectAll ds = .ok last) :
    ∃ last', r.collectAll (about parts ds) = .ok last' ∧ AgreeAt parts last last' := by
  induction ds generalizing s r with
  | nil =>
      obtain rfl := Except.ok.inj hds
      exact ⟨r, rfl, h⟩
  | cons d ds ih =>
      rw [collectAll] at hds
      split at hds
      · rename_i next hnext
        have hframe := sameArchives_of_collect hnext
        by_cases hparts : d.parts = parts
        · subst hparts
          -- both sessions take the delivery and agree on the file afterwards
          rcases h.collect hsame with ⟨e, herror, -⟩ | ⟨s', r', hs', hr', hagree⟩
          · rw [hnext] at herror
            cases herror
          · obtain rfl : next = s' := Except.ok.inj (hnext.symm.trans hs')
            have hframe' := sameArchives_of_collect hr'
            obtain ⟨last', hlast', hlast⟩ :=
              ih ((hframe.trans hsame).trans hframe'.symm) hagree hds
            refine ⟨last', ?_, hlast⟩
            rw [Delivery.about_cons_self, collectAll, hr']
            exact hlast'
        · -- only the first session gets it, which changes nothing for the file
          rw [Delivery.about_cons_of_ne hparts]
          exact ih (hframe.trans hsame) ((AgreeAt.of_collect hnext hparts).trans h) hds
      · cases hds

/-- If `collectAll` fails, it fails for the deliveries `about` some file too. -/
theorem collectAll_about_error {s : Session} {ds : List Delivery} {e : Error}
    (hds : s.collectAll ds = .error e) :
    ∃ parts, ∀ r, SameArchives s r → AgreeAt parts s r →
      ∃ e', r.collectAll (about parts ds) = .error e' := by
  induction ds generalizing s with
  | nil => cases hds
  | cons d ds ih =>
      rw [collectAll] at hds
      split at hds
      · rename_i next hnext
        obtain ⟨parts, hrefused⟩ := ih hds
        have hframe := sameArchives_of_collect hnext
        refine ⟨parts, ?_⟩
        intro r hsame h
        by_cases hparts : d.parts = parts
        · subst hparts
          rcases h.collect hsame with ⟨e, herror, -⟩ | ⟨s', r', hs', hr', hagree⟩
          · rw [hnext] at herror
            cases herror
          · obtain rfl : next = s' := Except.ok.inj (hnext.symm.trans hs')
            have hframe' := sameArchives_of_collect hr'
            rw [Delivery.about_cons_self, collectAll, hr']
            exact hrefused r' ((hframe.trans hsame).trans hframe'.symm) hagree
        · rw [Delivery.about_cons_of_ne hparts]
          exact hrefused r (hframe.trans hsame) ((AgreeAt.of_collect hnext hparts).trans h)
      · rename_i found hfound
        refine ⟨d.parts, ?_⟩
        intro r hsame h
        rcases h.collect hsame with ⟨e', -, hr⟩ | ⟨s', r', hs', -, -⟩
        · refine ⟨e', ?_⟩
          rw [Delivery.about_cons_self, collectAll, hr]
        · rw [hfound] at hs'
          cases hs'

/-! ### Sessions that are alike -/

/-- Two sessions with the same archives hold the same of every file. -/
structure Alike (s r : Session) : Prop where
  /-- The archives. -/
  same : SameArchives s r
  /-- The keys of the first. -/
  keyed : s.Keyed
  /-- The keys of the second. -/
  keyed' : r.Keyed
  /-- What they hold. -/
  agree : ∀ parts, AgreeAt parts s r

/-- Rearranged deliveries are collected as well, and the sessions are `Alike`. -/
theorem collectAll_rearranged {s last : Session} {ds ds' : List Delivery} (hkeyed : s.Keyed)
    (h : Rearranged ds ds') (hds : s.collectAll ds = .ok last) :
    ∃ last', s.collectAll ds' = .ok last' ∧ Alike last last' := by
  have hpart : ∀ parts, ∃ last', s.collectAll (about parts ds') = .ok last' ∧
      AgreeAt parts last last' := by
    intro parts
    rw [← h.about]
    exact collectAll_about (.refl s) (.refl parts s) hds
  cases hds' : s.collectAll ds' with
  | error e =>
      -- what is refused is about one file, whose deliveries come in the same order in `ds`
      obtain ⟨parts, hrefused⟩ := collectAll_about_error hds'
      obtain ⟨e', he'⟩ := hrefused s (.refl s) (.refl parts s)
      obtain ⟨last', hlast', -⟩ := hpart parts
      rw [he'] at hlast'
      cases hlast'
  | ok last' =>
      obtain ⟨hlast, hframe⟩ := hkeyed.collectAll hds
      obtain ⟨hlast', hframe'⟩ := hkeyed.collectAll hds'
      refine ⟨last', rfl, hframe.trans hframe'.symm, hlast, hlast', ?_⟩
      intro parts
      obtain ⟨one, hone, hagree⟩ := hpart parts
      obtain ⟨one', hone', hagree'⟩ := collectAll_about (.refl s) (.refl parts s) hds'
      obtain rfl : one = one' := Except.ok.inj (hone.symm.trans hone')
      exact hagree.trans hagree'.symm

/-- `collectAll` fails by a conflict only. -/
theorem collectAll_error {s : Session} {ds : List Delivery} {e : Error}
    (h : s.collectAll ds = .error e) : ∃ key, e = .valueConflict key := by
  induction ds generalizing s with
  | nil => cases h
  | cons d ds ih =>
      rw [collectAll] at h
      split at h
      · exact ih h
      · rename_i found hfound
        obtain rfl := Except.error.inj h
        exact collect_error hfound

/-- Sessions that are `Alike` list the same files. -/
theorem Alike.files_perm {s r : Session} (h : Alike s r) : s.files.Perm r.files :=
  Table.perm_of_get? h.keyed.files h.keyed'.files fun parts => (h.agree parts).file

theorem Alike.values_perm {s r : Session} (h : Alike s r) : s.values.Perm r.values :=
  Table.perm_of_get? h.keyed.values h.keyed'.values fun key => (h.agree key.1).values key.2

/-- The `place` of an item tells the components of its path and its type. -/
theorem components_of_place {s : Session} {p q : Path} {type type' : ResourceType}
    (h : s.place p type = s.place q type') : p.components = q.components ∧ type = type' :=
  ⟨Path.key_eq_iff.1 (congrArg Place.path h), ResourceType.rank_injective (congrArg Place.rank h)⟩

theorem Alike.place {s r : Session} (h : Alike s r) : s.place = r.place := by
  funext path type
  rw [Session.place, Session.place, h.same.order]

/-- Sessions that are `Alike` write the same files in the same order. -/
theorem Alike.survivors {s r : Session} (h : Alike s r) : s.survivors = r.survivors := by
  have hsorted : Place.sort (fun file => s.place file.path file.type) (s.files.map Prod.snd) =
      Place.sort (fun file => s.place file.path file.type) (r.files.map Prod.snd) := by
    refine Place.sort_congr (h.files_perm.map Prod.snd) ?_
    intro x hx y hy hplace
    obtain ⟨⟨partsX, fileX⟩, hinX, rfl⟩ := List.mem_map.1 hx
    obtain ⟨⟨partsY, fileY⟩, hinY, rfl⟩ := List.mem_map.1 hy
    have hownX : fileX.path.components = partsX := h.keyed.ownFile _ hinX
    have hownY : fileY.path.components = partsY := h.keyed.ownFile _ hinY
    obtain rfl : partsX = partsY := hownX ▸ hownY ▸ (components_of_place hplace).1
    have hgetX := (Table.get?_eq_some_iff h.keyed.files).2 hinX
    have hgetY := (Table.get?_eq_some_iff h.keyed.files).2 hinY
    exact Option.some.inj (hgetX.symm.trans hgetY)
  unfold Session.survivors
  simp only
  rw [hsorted, h.place]

/-- Sessions that are `Alike` write the same declarations in the same order. -/
theorem Alike.sorted_values {s r : Session} (h : Alike s r) :
    Place.sort (fun entry : _ × Holding => s.place entry.2.source.path entry.1.2) s.values =
      Place.sort (fun entry : _ × Holding => r.place entry.2.source.path entry.1.2) r.values := by
  rw [h.place.symm]
  refine Place.sort_congr h.values_perm ?_
  intro x hx y hy hplace
  obtain ⟨⟨partsX, typeX⟩, heldX⟩ := x
  obtain ⟨⟨partsY, typeY⟩, heldY⟩ := y
  obtain ⟨hpath, rfl⟩ : heldX.source.path.components = heldY.source.path.components ∧
    typeX = typeY := components_of_place hplace
  have hownX : heldX.source.path.components = partsX := h.keyed.ownSource _ hx
  have hownY : heldY.source.path.components = partsY := h.keyed.ownSource _ hy
  obtain rfl : partsX = partsY := hownX ▸ hownY ▸ hpath
  have hgetX := (Table.get?_eq_some_iff h.keyed.values).2 hx
  have hgetY := (Table.get?_eq_some_iff h.keyed.values).2 hy
  rw [Option.some.inj (hgetX.symm.trans hgetY)]

/-! ### Runs from sessions that are alike -/

end Session

namespace Filing

open Session (Alike)

variable {α : Type}

/-- From sessions that are alike two actions do the same. -/
abbrev Matches (x y : Filing α) : Prop :=
  InStep Alike x y

theorem Matches.labelled (label : String) {x y : Filing α} (h : Matches x y) :
    Matches (Filing.labelled label x) (Filing.labelled label y) := by
  intro s r halike
  have hend := h s r halike
  unfold Filing.labelled
  cases hxs : x s with
  | ok a s' =>
      cases hyr : y r with
      | ok b r' =>
          rw [hxs, hyr] at hend
          exact hend
      | error e r' =>
          rw [hxs, hyr] at hend
          exact hend.elim
  | error e s' =>
      cases hyr : y r with
      | ok b r' =>
          rw [hxs, hyr] at hend
          exact hend.elim
      | error e' r' =>
          rw [hxs, hyr] at hend
          exact ⟨congrArg (Error.withLabel label) hend.1, hend.2⟩

end Filing

namespace Session

open Delivery (Rearranged)

/-- Sessions stay `Alike` when both are written in the same way. -/
theorem Alike.write {s r : Session} (h : Alike s r) (outputs : Outputs → Outputs)
    (taken : Table ResourceType (List String) → Table ResourceType (List String))
    (finished : Outputs → Option Outputs → Option Outputs) :
    Alike
      { s with
        outputs := outputs s.outputs
        taken := taken s.taken
        finished? := finished s.outputs s.finished? }
      { r with
        outputs := outputs r.outputs
        taken := taken r.taken
        finished? := finished r.outputs r.finished? } where
  same := ⟨congrArg outputs h.same.outputs, h.same.sharder, h.same.order,
    congrArg taken h.same.taken, by rw [h.same.outputs, h.same.finished]⟩
  keyed := ⟨h.keyed.files, h.keyed.values, h.keyed.ownFile, h.keyed.ownSource⟩
  keyed' := ⟨h.keyed'.files, h.keyed'.values, h.keyed'.ownFile, h.keyed'.ownSource⟩
  agree := fun parts =>
    ⟨(h.agree parts).file, (h.agree parts).values, (h.agree parts).attributes⟩

theorem Alike.take {s r : Session} (h : Alike s r) (type : ResourceType) (entry : String) :
    Alike (s.take type entry) (r.take type entry) :=
  h.write id (fun taken => taken.alter type fun names? => entry :: names?.getD [])
    fun _ done? => done?

theorem Alike.setOutput {s r : Session} (h : Alike s r) (type : ResourceType)
    (archives : List Archive) :
    Alike { s with outputs := s.outputs.insert type archives }
      { r with outputs := r.outputs.insert type archives } :=
  h.write (fun outputs => outputs.insert type archives) id fun _ done? => done?

/-- `store` does the same to sessions that are `Alike`. -/
theorem matches_store (file : ResourceFile) (contents : Except OsError Bytes) :
    Filing.Matches (store file contents) (store file contents) := by
  unfold store
  split
  · exact .ret _
  simp only
  cases storedName file with
  | error e => exact .fail _
  | ok name =>
      refine .seq (.ret name) fun name => .read ?_
      intro s r halike
      rw [halike.same.outputs, halike.same.sharder]
      cases r.outputs.get? name.type with
      | none => exact .fail _
      | some archives =>
          simp only
          cases r.sharder.shard name.text archives.length with
          | error e => exact .fail _
          | ok index =>
              refine .seq (.ret index) fun index =>
                .seq (.update fun s r halike => halike.take _ _) fun _ => ?_
              split
              · exact .fail _
              · refine .seq (.update fun s r halike => ?_) fun _ => ?_
                · exact halike.setOutput _ _
                · split
                  · exact .fail _
                  · exact .ret _

theorem matches_storeFrom (look : Look Bytes) (file : ResourceFile) :
    Filing.Matches (storeFrom look file) (storeFrom look file) := by
  unfold storeFrom
  split
  · exact .fail _
  · exact matches_store file _

theorem matches_flushFiles (look : Look Bytes) :
    Filing.Matches (flushFiles look) (flushFiles look) := by
  refine .read fun s r halike => .seq (.write ?_) fun _ => ?_
  · exact {
      same := ⟨halike.same.outputs, halike.same.sharder, halike.same.order, halike.same.taken,
        halike.same.finished⟩
      keyed := ⟨.nil, halike.keyed.values, fun _ h => absurd h List.not_mem_nil,
        halike.keyed.ownSource⟩
      keyed' := ⟨.nil, halike.keyed'.values, fun _ h => absurd h List.not_mem_nil,
        halike.keyed'.ownSource⟩
      agree := fun parts => ⟨rfl, (halike.agree parts).values, (halike.agree parts).attributes⟩ }
  · rw [halike.survivors]
    exact .each (matches_storeFrom look) _

/-- `storeValues` does the same to sessions that are `Alike`. -/
theorem matches_storeValues (type : ResourceType) (held : Holding) :
    Filing.Matches (storeValues type held) (storeValues type held) := by
  refine .read ?_
  intro s r halike
  simp only
  rw [(halike.agree held.source.path.components).attributes, halike.same.outputs,
    halike.same.sharder, halike.same.taken]
  cases resourcesTag ((r.rootAttributes.get? held.source.path.components).getD []) with
  | error e => exact .fail _
  | ok tag =>
      refine .seq (.ret tag) fun tag => ?_
      cases FreshName.choose ((r.taken.get? type).getD []) held.source.entryName with
      | none => exact .fail _
      | some entry =>
          refine .seq (.ret entry) fun entry =>
            .seq (.update fun s r halike => halike.take _ _) fun _ => ?_
          cases r.outputs.get? type with
          | none => exact .fail _
          | some archives =>
              simp only
              refine .seq (.update fun s r halike => halike.setOutput _ _) fun _ => ?_
              split
              · exact .fail _
              · refine .seq (.update fun s r halike => halike.setOutput _ _) fun _ => ?_
                split
                · exact .fail _
                · exact .ret _

theorem matches_flushValues : Filing.Matches flushValues flushValues := by
  refine .read fun s r halike => .seq (.write ?_) fun _ => ?_
  · exact {
      same := ⟨halike.same.outputs, halike.same.sharder, halike.same.order, halike.same.taken,
        halike.same.finished⟩
      keyed := ⟨halike.keyed.files, .nil, halike.keyed.ownFile,
        fun _ h => absurd h List.not_mem_nil⟩
      keyed' := ⟨halike.keyed'.files, .nil, halike.keyed'.ownFile,
        fun _ h => absurd h List.not_mem_nil⟩
      agree := fun parts =>
        ⟨(halike.agree parts).file, fun _ => rfl, (halike.agree parts).attributes⟩ }
  · have hsorted := halike.sorted_values
    simp only at hsorted ⊢
    rw [hsorted]
    refine .each (fun entry => ?_) _
    obtain ⟨key, held⟩ := entry
    exact matches_storeValues key.2 held

theorem matches_close (look : Look Bytes) : Filing.Matches (close look) (close look) := by
  refine .read ?_
  intro s r halike
  rw [halike.same.finished]
  split
  · exact .ret _
  · refine .seq ((matches_flushFiles look).labelled _) fun _ =>
      .seq (matches_flushValues.labelled _) fun _ => .update fun s r halike => ?_
    exact halike.write (fun _ => []) id fun outputs _ => some outputs

theorem matches_release (look : Look Bytes) : Filing.Matches (release look) (release look) := by
  refine .seq (matches_close look) fun _ => .read ?_
  intro s r halike
  rw [halike.same.finished]
  exact .ret _

/-! ### Any order of arrival -/

/-- **The order of arrival does not matter.** Deliveries that are `Rearranged` are refused by
`collectAll` for a conflict in both orders or collected in both, and then `released` is the same:
the same archives, or the same failure. -/
theorem released_rearranged (outputs : Outputs) (sharder : Sharder) (order : DeclarationOrder)
    (look : Look Bytes) {ds ds' : List Delivery} (h : Rearranged ds ds') :
    ((∃ key, collectAll { outputs, sharder, order } ds = .error (.valueConflict key)) ∧
        ∃ key, collectAll { outputs, sharder, order } ds' = .error (.valueConflict key)) ∨
      ∃ last last', collectAll { outputs, sharder, order } ds = .ok last ∧
        collectAll { outputs, sharder, order } ds' = .ok last' ∧
        released look last = released look last' := by
  have hkeyed := keyed_new outputs sharder order
  cases hds : collectAll { outputs, sharder, order } ds with
  | error e =>
      cases hds' : collectAll { outputs, sharder, order } ds' with
      | error e' =>
          obtain ⟨key, rfl⟩ := collectAll_error hds
          obtain ⟨key', rfl⟩ := collectAll_error hds'
          exact .inl ⟨⟨key, rfl⟩, key', rfl⟩
      | ok last' =>
          obtain ⟨last, hlast, -⟩ := collectAll_rearranged hkeyed h.symm hds'
          rw [hds] at hlast
          cases hlast
  | ok last =>
      obtain ⟨last', hlast', halike⟩ := collectAll_rearranged hkeyed h hds
      refine .inr ⟨last, last', rfl, hlast', ?_⟩
      have hend := matches_release look last last' halike
      unfold released
      cases hs : release look last with
      | ok archives s =>
          cases hr : release look last' with
          | ok archives' r =>
              rw [hs, hr] at hend
              rw [hend.1]
          | error e r =>
              rw [hs, hr] at hend
              exact hend.elim
      | error e s =>
          cases hr : release look last' with
          | ok archives' r =>
              rw [hs, hr] at hend
              exact hend.elim
          | error e' r =>
              rw [hs, hr] at hend
              rw [hend.1]

/-- A declaration of one name in the values file with that file name. -/
def arriving (fileName : String) : Delivery :=
  .collected ⟨.ofString ("res/values/" ++ fileName), .ofString "res", "values", .values, "", {}⟩
    (.value ⟨ResourceName.defaultPackage, .string, "title"⟩ (Bytes.ofString "<string/>"))

theorem released_arriving :
    Rearranged [arriving "b.xml", arriving "a.xml"] [arriving "a.xml", arriving "b.xml"] ∧
      ∃ last last',
        collectAll { outputs := [(.string, [[], []])], sharder := .fnv }
            [arriving "b.xml", arriving "a.xml"] = .ok last ∧
          collectAll { outputs := [(.string, [[], []])], sharder := .fnv }
            [arriving "a.xml", arriving "b.xml"] = .ok last' ∧
          released (fun _ => .error .notFound) last =
            released (fun _ => .error .notFound) last' := by
  have h : Rearranged [arriving "b.xml", arriving "a.xml"] [arriving "a.xml", arriving "b.xml"] :=
    .exchange (by decide) []
  refine ⟨h, (released_rearranged [(.string, [[], []])] .fnv {} _ h).resolve_left ?_⟩
  rintro ⟨⟨key, hkey⟩, -⟩
  have hok : (collectAll { outputs := [(.string, [[], []])], sharder := .fnv }
      [arriving "b.xml", arriving "a.xml"]).isOk = true := by decide +kernel
  rw [hkey] at hok
  cases hok

end Session

end ResourceShards
