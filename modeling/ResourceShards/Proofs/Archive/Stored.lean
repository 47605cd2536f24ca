import ResourceShards.Proofs.Archive.Collecting

/-!
# ResourceShards.Proofs.Archive.Stored

**What deliveries leave in a session.** Of the payloads that are offered for a name in one file, the
longest is stored. Offered is what a values file declares, unless there are no archives for its type
or it is an attribute of another package. Root attributes are kept in the order in which they come.

* `Offered`, `attributesOf`: what deliveries say about a file
* `Stores`: what is stored of what was offered
* `Session.Holds`: what a session holds of the deliveries so far
-/

namespace ResourceShards

open Markup (Attribute)

/-! ### What deliveries say -/

/-- Resources that are stored: those of types that have archives, attributes of other packages left
out. -/
def Configured (outputs : Outputs) (name : ResourceName) : Prop :=
  outputs.contains name.type = true ∧
    (name.type = .attr → name.package = ResourceName.defaultPackage)

/-- Deliveries offer a payload for the full name of a resource of some type in some file. -/
def Offered (outputs : Outputs) (ds : List Delivery) (parts : List Path.Component)
    (type : ResourceType) (key : String) (payload : Bytes) : Prop :=
  ∃ source name, Delivery.collected source (.value name payload) ∈ ds ∧
    source.path.components = parts ∧ name.type = type ∧ name.text = key ∧ Configured outputs name

/-- The root attribute of a file that a delivery brings. -/
def Delivery.attribute? (parts : List Path.Component) : Delivery → Option Attribute
  | .collected source (.rootAttribute attr) =>
    if source.path.components = parts then some attr else none
  | _ => none

/-- The root attributes of a file among deliveries. -/
def attributesOf (parts : List Path.Component) (ds : List Delivery) : List Attribute :=
  ds.filterMap (Delivery.attribute? parts)

/-- A payload is the longest of those that are offered for a name, and no other one has its
length. -/
def Longest (offered : Bytes → Prop) (payload : Bytes) : Prop :=
  offered payload ∧ ∀ other, offered other → other.length < payload.length ∨ other = payload

/-- Stored payloads are the longest that are offered, one for every name, in the order of the bytes
of the names. -/
structure Stores (offered : String → Bytes → Prop) (payloads : List (String × Bytes)) : Prop where
  /-- Names ascend, so none comes twice. -/
  ascending : payloads.Pairwise fun a b => Bytes.ofString a.1 < Bytes.ofString b.1
  /-- No name is left out. -/
  complete : ∀ key payload, offered key payload → ∃ kept, (key, kept) ∈ payloads
  /-- The longest is stored. -/
  longest : ∀ entry ∈ payloads, Longest (offered entry.1) entry.2

/-- What is kept of what is offered for a name: the longest payload, or nothing if there is none. -/
def Keeps (offered : Bytes → Prop) : Option Bytes → Prop
  | none => ∀ payload, ¬offered payload
  | some kept => Longest offered kept

theorem Keeps.congr {offered offered' : Bytes → Prop} {kept? : Option Bytes}
    (h : Keeps offered kept?) (hsame : ∀ payload, offered payload ↔ offered' payload) :
    Keeps offered' kept? := by
  cases kept? with
  | none => exact fun payload hoffered => h payload ((hsame payload).2 hoffered)
  | some kept => exact ⟨(hsame _).1 h.1, fun other hother => h.2 other ((hsame other).2 hother)⟩

namespace Session

/-- What `longer` keeps is what `Keeps` asks for, with the payload that is offered added to those
before. -/
theorem keeps_of_longer {key : String} {kept? : Option Bytes} {offered kept : Bytes}
    {before : Bytes → Prop} (h : longer key kept? offered = .ok kept)
    (hbefore : Keeps before kept?) :
    Keeps (fun payload => before payload ∨ payload = offered) (some kept) := by
  cases kept? with
  | none =>
      obtain rfl : offered = kept := Except.ok.inj h
      exact ⟨.inr rfl, fun other hother => .inr (hother.resolve_left (hbefore other))⟩
  | some old =>
      obtain ⟨hold, hlongest⟩ := hbefore
      simp only [longer] at h
      split at h
      · rename_i hshort
        obtain rfl : old = kept := Except.ok.inj h
        refine ⟨.inl hold, ?_⟩
        intro other hother
        rcases hother with hother | rfl
        · exact hlongest other hother
        · exact .inl hshort
      · split at h
        · rename_i hlong
          obtain rfl : offered = kept := Except.ok.inj h
          refine ⟨.inr rfl, ?_⟩
          intro other hother
          rcases hother with hother | rfl
          · -- the new one is longer than the old one, which none before was
            left
            rcases hlongest other hother with hlt | rfl
            · exact Nat.lt_trans hlt hlong
            · exact hlong
          · exact .inr rfl
        · split at h
          · rename_i hsame
            obtain rfl : old = kept := Except.ok.inj h
            refine ⟨.inl hold, ?_⟩
            intro other hother
            rcases hother with hother | rfl
            · exact hlongest other hother
            · exact .inr hsame.symm
          · cases h

theorem drops_eq_false_iff {s : Session} {name : ResourceName} :
    s.drops name = false ↔ Configured s.outputs name := by
  unfold drops accepts Configured
  cases hcontains : s.outputs.contains name.type with
  | false => simp
  | true =>
      by_cases htype : name.type = .attr
      · simp [htype]
      · simp [htype]

/-- The payloads that a session has stored of a type in a file. -/
def payloadsOf (s : Session) (parts : List Path.Component) (type : ResourceType) :
    Table String Bytes :=
  ((s.values.get? (parts, type)).map Holding.payloads).getD []

theorem payloads_held (s : Session) (source : ResourceFile) (type : ResourceType) :
    (s.held source type).payloads = s.payloadsOf source.path.components type := by
  unfold held payloadsOf
  cases s.values.get? (source.path.components, type) <;> rfl

theorem payloadsOf_hold (s : Session) (source : ResourceFile) (name : ResourceName)
    (payload : Bytes) (parts : List Path.Component) (type : ResourceType) :
    (s.hold source name payload).payloadsOf parts type =
      if (source.path.components, name.type) = (parts, type) then
        (s.payloadsOf parts type).insert name.text payload
      else s.payloadsOf parts type := by
  have hget : (s.hold source name payload).values.get? (parts, type) =
      if (source.path.components, name.type) = (parts, type) then
        some { s.held source name.type with
          payloads := (s.held source name.type).payloads.insert name.text payload }
      else s.values.get? (parts, type) := Table.get?_insert _ _ _ _
  unfold payloadsOf
  rw [hget]
  by_cases hkey : (source.path.components, name.type) = (parts, type)
  · rw [if_pos hkey, if_pos hkey]
    obtain ⟨rfl, rfl⟩ := Prod.mk.inj hkey
    rw [Option.map_some, Option.getD_some, payloads_held]
    rfl
  · rw [if_neg hkey, if_neg hkey]

/-- What a session holds after some deliveries. -/
structure Holds (seen : List Delivery) (s : Session) : Prop where
  /-- Its files were delivered. -/
  files : ∀ entry ∈ s.files, Delivery.file entry.2 ∈ seen ∧ s.outputs.contains entry.2.type = true
  /-- Every name is stored once. -/
  names : ∀ parts type, ((s.payloadsOf parts type).map Prod.fst).Nodup
  /-- No holding is without names. -/
  used : ∀ entry ∈ s.values, entry.2.payloads ≠ []
  /-- What is stored under a name is the longest that was offered. -/
  payloads : ∀ parts type key,
    Keeps (Offered s.outputs seen parts type key) ((s.payloadsOf parts type).get? key)
  /-- Root attributes come in the order of their deliveries. -/
  attributes : ∀ parts, (s.rootAttributes.get? parts).getD [] = attributesOf parts seen

theorem attributesOf_append_singleton (parts : List Path.Component) (seen : List Delivery)
    (d : Delivery) : attributesOf parts (seen ++ [d]) =
      attributesOf parts seen ++ (d.attribute? parts).toList := by
  rw [attributesOf, List.filterMap_append, attributesOf]
  cases h : d.attribute? parts <;> simp [h]

/-- What is `Offered` by deliveries is so by those before the last, or by the last. -/
theorem offered_append {outputs : Outputs} {seen : List Delivery} {d : Delivery}
    {parts : List Path.Component} {type : ResourceType} {key : String} {payload : Bytes} :
    Offered outputs (seen ++ [d]) parts type key payload ↔
      Offered outputs seen parts type key payload ∨ Offered outputs [d] parts type key payload := by
  unfold Offered
  constructor
  · rintro ⟨source, name, hmem, hrest⟩
    exact (List.mem_append.1 hmem).imp (fun h => ⟨source, name, h, hrest⟩)
      fun h => ⟨source, name, h, hrest⟩
  · rintro (⟨source, name, hmem, hrest⟩ | ⟨source, name, hmem, hrest⟩)
    · exact ⟨source, name, List.mem_append_left _ hmem, hrest⟩
    · exact ⟨source, name, List.mem_append_right _ hmem, hrest⟩

/-- A single declaration has `Offered` its own payload, if its type is `Configured`. -/
theorem offered_singleton {outputs : Outputs} {source : ResourceFile} {name : ResourceName}
    {payload other : Bytes} {parts : List Path.Component} {type : ResourceType} {key : String} :
    Offered outputs [.collected source (.value name payload)] parts type key other ↔
      Configured outputs name ∧ ((source.path.components, name.type) = (parts, type) ∧
        name.text = key) ∧ other = payload := by
  constructor
  · rintro ⟨source', name', hmem, rfl, rfl, rfl, hconfigured⟩
    obtain ⟨rfl, hitem⟩ := Delivery.collected.inj (List.mem_singleton.1 hmem)
    obtain ⟨rfl, rfl⟩ := Collected.value.inj hitem
    exact ⟨hconfigured, ⟨rfl, rfl⟩, rfl⟩
  · rintro ⟨hconfigured, ⟨hkey, rfl⟩, rfl⟩
    obtain ⟨rfl, rfl⟩ := Prod.mk.inj hkey
    exact ⟨source, name, List.mem_singleton_self _, rfl, rfl, rfl, hconfigured⟩

/-- A delivery by which nothing is `Offered` leaves the payloads right. -/
theorem Holds.payloads_of_silent {seen : List Delivery} {s next : Session} {d : Delivery}
    (h : s.Holds seen) (houtputs : next.outputs = s.outputs) (hvalues : next.values = s.values)
    (hsilent : ∀ parts type key payload, ¬Offered s.outputs [d] parts type key payload)
    (parts : List Path.Component) (type : ResourceType) (key : String) :
    Keeps (Offered next.outputs (seen ++ [d]) parts type key)
      ((next.payloadsOf parts type).get? key) := by
  have hpayloads : next.payloadsOf parts type = s.payloadsOf parts type := by
    rw [payloadsOf, hvalues, payloadsOf]
  rw [hpayloads, houtputs]
  refine (h.payloads parts type key).congr ?_
  intro payload
  rw [offered_append]
  exact ⟨.inl, fun hor => hor.resolve_right (hsilent parts type key payload)⟩

/-- Files that were delivered are among more deliveries. -/
theorem Holds.files_append {seen : List Delivery} {s : Session} (h : s.Holds seen) (d : Delivery) :
    ∀ entry ∈ s.files,
      Delivery.file entry.2 ∈ seen ++ [d] ∧ s.outputs.contains entry.2.type = true :=
  fun entry hentry =>
    ⟨List.mem_append_left _ (h.files entry hentry).1, (h.files entry hentry).2⟩

theorem Holds.collectFile {seen : List Delivery} {s : Session} (h : s.Holds seen)
    (file : ResourceFile) : (s.collectFile file).Holds (seen ++ [.file file]) := by
  have hsilent : ∀ parts type key payload,
      ¬Offered s.outputs [.file file] parts type key payload := by
    rintro parts type key payload ⟨source, name, hmem, -⟩
    cases List.mem_singleton.1 hmem
  have hattributes : ∀ parts, (s.rootAttributes.get? parts).getD [] =
      attributesOf parts (seen ++ [.file file]) := by
    intro parts
    rw [attributesOf_append_singleton, h.attributes]
    exact (List.append_nil _).symm
  unfold Session.collectFile
  split
  · rename_i haccepts
    refine ⟨fun entry hentry => ?_, h.names, h.used, h.payloads_of_silent rfl rfl hsilent,
      hattributes⟩
    rcases Table.mem_insert hentry with rfl | hentry
    · exact ⟨List.mem_append_right _ (List.mem_singleton_self _), haccepts⟩
    · exact h.files_append _ entry hentry
  · exact ⟨h.files_append _, h.names, h.used, h.payloads_of_silent rfl rfl hsilent, hattributes⟩

theorem Holds.collectRootAttribute {seen : List Delivery} {s : Session} (h : s.Holds seen)
    (source : ResourceFile) (attr : Attribute) :
    (s.collectRootAttribute source attr).Holds
      (seen ++ [.collected source (.rootAttribute attr)]) := by
  have hsilent : ∀ parts type key payload,
      ¬Offered s.outputs [.collected source (.rootAttribute attr)] parts type key payload := by
    rintro parts type key payload ⟨source', name, hmem, -⟩
    cases List.mem_singleton.1 hmem
  refine ⟨h.files_append _, h.names, h.used, h.payloads_of_silent rfl rfl hsilent, ?_⟩
  intro parts
  rw [attributesOf_append_singleton, ← h.attributes]
  unfold Session.collectRootAttribute Table.alter
  simp only [Delivery.attribute?]
  rw [Table.get?_insert]
  by_cases hparts : source.path.components = parts
  · rw [if_pos hparts, if_pos hparts, hparts]
    rfl
  · rw [if_neg hparts, if_neg hparts]
    exact (List.append_nil _).symm

theorem Holds.collectValue {seen : List Delivery} {s next : Session} (h : s.Holds seen)
    {source : ResourceFile} {name : ResourceName} {payload : Bytes}
    (hd : s.collectValue source name payload = .ok next) :
    next.Holds (seen ++ [.collected source (.value name payload)]) := by
  have hattributes : ∀ parts, (s.rootAttributes.get? parts).getD [] =
      attributesOf parts (seen ++ [.collected source (.value name payload)]) := by
    intro parts
    rw [attributesOf_append_singleton, h.attributes]
    exact (List.append_nil _).symm
  rcases collectValue_ok hd with ⟨hdrops, rfl⟩ | ⟨hdrops, kept, hkept, rfl⟩
  · refine ⟨h.files_append _, h.names, h.used, h.payloads_of_silent rfl rfl ?_, hattributes⟩
    intro parts type key other hoffered
    have hconfigured := drops_eq_false_iff.2 (offered_singleton.1 hoffered).1
    rw [hdrops] at hconfigured
    cases hconfigured
  · have hconfigured := drops_eq_false_iff.1 hdrops
    rw [payloads_held] at hkept
    refine ⟨h.files_append _, fun parts type => ?_, fun entry hentry => ?_,
      fun parts type key => ?_, hattributes⟩
    · rw [payloadsOf_hold]
      split
      · exact Table.nodup_keys_insert _ _ (h.names parts type)
      · exact h.names parts type
    · rcases Table.mem_insert hentry with rfl | hentry
      · exact Table.insert_ne_nil _ _ _
      · exact h.used entry hentry
    · have hbefore := h.payloads parts type key
      rw [payloadsOf_hold]
      by_cases hthis : (source.path.components, name.type) = (parts, type) ∧ name.text = key
      · -- the name that is declared
        obtain ⟨hkey, rfl⟩ := hthis
        rw [if_pos hkey, Table.get?_insert, if_pos rfl]
        obtain ⟨rfl, rfl⟩ := Prod.mk.inj hkey
        refine (keeps_of_longer hkept hbefore).congr ?_
        intro other
        rw [show (s.hold source name kept).outputs = s.outputs from rfl, offered_append,
          offered_singleton]
        exact or_congr_right ⟨fun hsame => ⟨hconfigured, ⟨rfl, rfl⟩, hsame⟩, fun h => h.2.2⟩
      · -- any other name
        have hget : (if (source.path.components, name.type) = (parts, type) then
            (s.payloadsOf parts type).insert name.text kept
            else s.payloadsOf parts type).get? key = (s.payloadsOf parts type).get? key := by
          split
          · rename_i hkey
            rw [Table.get?_insert, if_neg fun hname => hthis ⟨hkey, hname⟩]
          · rfl
        rw [hget]
        refine hbefore.congr ?_
        intro other
        rw [show (s.hold source name kept).outputs = s.outputs from rfl, offered_append,
          offered_singleton]
        exact ⟨.inl, fun hor => hor.resolve_right fun h => hthis h.2.1⟩

/-- If a session `Holds` some deliveries, `collect` makes it hold one more. -/
theorem Holds.collect {seen : List Delivery} {s next : Session} {d : Delivery} (h : s.Holds seen)
    (hd : s.collect d = .ok next) : next.Holds (seen ++ [d]) := by
  cases d with
  | file file =>
      obtain rfl := Except.ok.inj hd
      exact h.collectFile file
  | collected source item =>
      cases item with
      | rootAttribute attr =>
          obtain rfl := Except.ok.inj hd
          exact h.collectRootAttribute source attr
      | value name payload => exact h.collectValue hd

/-- Deliveries that `collectAll` takes become part of what the session `Holds`, in their order. -/
theorem Holds.collectAll {seen ds : List Delivery} {s last : Session} (h : s.Holds seen)
    (hds : s.collectAll ds = .ok last) : last.Holds (seen ++ ds) := by
  induction ds generalizing s seen with
  | nil =>
      obtain rfl := Except.ok.inj hds
      rw [List.append_nil]
      exact h
  | cons d ds ih =>
      rw [Session.collectAll] at hds
      split at hds
      · rename_i next hnext
        rw [List.append_cons]
        exact ih (h.collect hnext) hds
      · cases hds

/-- A new session `Holds` no deliveries. -/
theorem holds_nil (outputs : Outputs) (sharder : Sharder) (order : DeclarationOrder) :
    Holds [] { outputs, sharder, order } where
  files := fun _ h => absurd h List.not_mem_nil
  names := fun _ _ => .nil
  used := fun _ h => absurd h List.not_mem_nil
  payloads := fun _ _ _ _ hoffered => by
    obtain ⟨source, name, hmem, -⟩ := hoffered
    exact absurd hmem List.not_mem_nil
  attributes := fun _ => rfl

end Session

end ResourceShards
