import ResourceShards.Proofs.Archive.Place
import ResourceShards.Proofs.Archive.Stored
import ResourceShards.Proofs.Archive.Writing
import ResourceShards.Proofs.Text.Utf8

/-!
# ResourceShards.Proofs.Archive.Sharding

**Sharding loses and duplicates nothing.** After some deliveries a session is closed. Then every
archive of a type has one entry for each file that declares something of the type, in the order of
the files, and the entries for one file have one name. Entry by entry they hold the root attributes
of the file and the declarations that belong to the shard; so each declaration is in one shard.

* `ValuesDocument.Tells`: the document of a file says what was delivered
* `Sharded`: the archives of a type
-/

namespace ResourceShards

open Markup (Attribute)

/-! ### What archives are to hold -/

/-- One source file comes before another: it was declared first, or in the same place and its path
is less. -/
def DeclarationOrder.Before (order : DeclarationOrder) (a b : Path) : Prop :=
  order.position a < order.position b ∨ (order.position a = order.position b ∧ a.key < b.key)

/-- The document of a file says what deliveries say about the file and a type. -/
structure ValuesDocument.Tells (outputs : Outputs) (sharder : Sharder) (ds : List Delivery)
    (type : ResourceType) (shards : Nat) (d : ValuesDocument) : Prop where
  /-- The tag has all root attributes in their order. -/
  tag : Session.resourcesTag (attributesOf d.source.path.components ds) = .ok d.tag
  /-- The declarations are those that are stored. -/
  stores : Stores (Offered outputs ds d.source.path.components type) d.payloads
  /-- There is at least one. -/
  nonempty : d.payloads ≠ []
  /-- Each of them belongs to a shard. -/
  placed : ∀ entry ∈ d.payloads, sharder.assign entry.1 shards < shards

/-- The archives of a type, with the documents that they share out. -/
structure Sharded (outputs : Outputs) (sharder : Sharder) (order : DeclarationOrder)
    (look : Look Bytes) (ds : List Delivery) (type : ResourceType) (shards : Nat)
    (documents : List ValuesDocument) (done : List Archive) : Prop where
  /-- There are as many archives as before. -/
  length : done.length = shards
  /-- Behind entries that are files, each archive has an entry of every document. -/
  entries : ∀ index a, done[index]? = some a → ∃ files,
    a = files ++ documents.map (ValuesDocument.entry sharder shards index) ∧
    ∀ e ∈ files, ∃ file, Delivery.file file ∈ ds ∧ outputs.contains file.type = true ∧
      Copies look file e
  /-- No two entries of an archive have one name. -/
  names : ∀ a ∈ done, a.names.Nodup
  /-- The documents come in the order of their files, no file twice. -/
  ordered : documents.Pairwise fun a b => order.Before a.source.path b.source.path
  /-- Every file that declares something of the type has a document. -/
  complete : ∀ parts key payload, Offered outputs ds parts type key payload →
    ∃ d ∈ documents, d.source.path.components = parts
  /-- Documents say what was delivered. -/
  tells : ∀ d ∈ documents, d.Tells outputs sharder ds type shards

/-! ### Documents and holdings -/

theorem exists_left_of_forall₂ {α β : Type} {R : α → β → Prop} {xs : List α} {ys : List β}
    (h : List.Forall₂ R xs ys) {y : β} (hy : y ∈ ys) : ∃ x ∈ xs, R x y := by
  induction h with
  | nil => exact absurd hy List.not_mem_nil
  | @cons x y' xs ys hxy _ ih =>
      rcases List.mem_cons.1 hy with rfl | hy
      · exact ⟨x, List.mem_cons_self, hxy⟩
      · obtain ⟨x', hx', hrel⟩ := ih hy
        exact ⟨x', List.mem_cons_of_mem _ hx', hrel⟩

theorem exists_right_of_forall₂ {α β : Type} {R : α → β → Prop} {xs : List α} {ys : List β}
    (h : List.Forall₂ R xs ys) {x : α} (hx : x ∈ xs) : ∃ y ∈ ys, R x y :=
  exists_left_of_forall₂ h.flip hx

/-- Lists in the relation `Forall₂` are ordered alike. -/
theorem pairwise_of_forall₂ {α β : Type} {R : α → β → Prop} {P : α → α → Prop} {Q : β → β → Prop}
    {xs : List α} {ys : List β} (h : List.Forall₂ R xs ys) (hxs : xs.Pairwise P)
    (himp : ∀ {x x' y y'}, R x y → R x' y' → P x x' → Q y y') : ys.Pairwise Q := by
  induction h with
  | nil => exact .nil
  | @cons x y xs ys hxy hall ih =>
      obtain ⟨hfirst, hrest⟩ := List.pairwise_cons.1 hxs
      refine List.pairwise_cons.2 ⟨fun y' hy' => ?_, ih hrest⟩
      obtain ⟨x', hx', hrel⟩ := exists_left_of_forall₂ hall hy'
      exact himp hxy hrel (hfirst x' hx')

namespace Session

/-- `sortedPayloads` are in the order of the bytes of their names, and each is one that is kept. -/
theorem stores_sortedPayloads {offered : String → Bytes → Prop} {payloads : Table String Bytes}
    (hnames : (payloads.map Prod.fst).Nodup)
    (hkeeps : ∀ key, Keeps (offered key) (payloads.get? key)) :
    Stores offered (sortedPayloads payloads) := by
  have hperm : (sortedPayloads payloads).Perm payloads := List.mergeSort_perm _ _
  have hsorted : (sortedPayloads payloads).Pairwise fun a b => decide (a.1 ≤ b.1) = true := by
    unfold sortedPayloads
    refine List.pairwise_mergeSort (fun a b c hab hbc => ?_) (fun a b => ?_) payloads
    · exact decide_eq_true (String.le_trans (of_decide_eq_true hab) (of_decide_eq_true hbc))
    · simpa using String.le_total a.1 b.1
  have hdistinct : (sortedPayloads payloads).Pairwise fun a b => a.1 ≠ b.1 :=
    List.pairwise_map.1 ((hperm.map Prod.fst).nodup_iff.2 hnames)
  refine ⟨(hsorted.and hdistinct).imp fun {a b} h => ?_, fun key payload hoffered => ?_,
    fun entry hentry => ?_⟩
  · exact Utf8.ofString_lt (Std.lt_of_le_of_ne (of_decide_eq_true h.1) h.2)
  · have hkept := hkeeps key
    cases hget : payloads.get? key with
    | none =>
        rw [hget] at hkept
        exact absurd hoffered (hkept payload)
    | some kept => exact ⟨kept, hperm.symm.subset (Table.mem_of_get? hget)⟩
  · have hget := (Table.get?_eq_some_iff hnames).2 (hperm.subset hentry)
    have hkept := hkeeps entry.1
    rw [hget] at hkept
    exact hkept

theorem Holds.stores {seen : List Delivery} {s : Session} (h : s.Holds seen)
    {parts : List Path.Component} {type : ResourceType} {held : Holding}
    (hheld : s.values.get? (parts, type) = some held) :
    Stores (Offered s.outputs seen parts type) (sortedPayloads held.payloads) := by
  have hpayloads : s.payloadsOf parts type = held.payloads := by
    rw [payloadsOf, hheld]
    rfl
  rw [← hpayloads]
  exact stores_sortedPayloads (h.names parts type) (h.payloads parts type)

/-! ### The order of documents -/

/-- The holdings as they are written. -/
def sortedValues (s : Session) : Table (List Path.Component × ResourceType) Holding :=
  Place.sort (fun (key, held) => s.place held.source.path key.2) s.values

theorem sortedValues_perm (s : Session) : s.sortedValues.Perm s.values :=
  Place.sort_perm _ _

/-- The holdings of one type come in `sortedValues` in the order of their files. -/
theorem Keyed.sortedValues_ordered {s : Session} (h : s.Keyed) (type : ResourceType) :
    (s.sortedValues.filter fun item => decide (item.1.2 = type)).Pairwise fun a b =>
      s.order.Before a.2.source.path b.2.source.path := by
  have hle := Place.sort_pairwise (fun (key, held) => s.place held.source.path key.2) s.values
  have hdistinct : s.sortedValues.Pairwise (· ≠ ·) :=
    s.sortedValues_perm.nodup_iff.2 (Table.nodup_of_keys h.values)
  refine ((List.Pairwise.and hle hdistinct).filter _).imp_of_mem fun {a b} ha hb hab => ?_
  obtain ⟨⟨partsA, typeA⟩, heldA⟩ := a
  obtain ⟨⟨partsB, typeB⟩, heldB⟩ := b
  obtain ⟨hinA, htypeA⟩ := List.mem_filter.1 ha
  obtain ⟨hinB, htypeB⟩ := List.mem_filter.1 hb
  obtain rfl : typeA = type := of_decide_eq_true htypeA
  obtain rfl : typeB = typeA := of_decide_eq_true htypeB
  have hinA' := s.sortedValues_perm.subset hinA
  have hinB' := s.sortedValues_perm.subset hinB
  have hownA : heldA.source.path.components = partsA := h.ownSource _ hinA'
  have hownB : heldB.source.path.components = partsB := h.ownSource _ hinB'
  -- holdings of one type with one path would be the same holding
  have hkeys : heldA.source.path.key ≠ heldB.source.path.key := by
    intro hkey
    obtain rfl : partsA = partsB := hownA ▸ hownB ▸ Path.key_eq_iff.1 hkey
    have hgetA := (Table.get?_eq_some_iff h.values).2 hinA'
    have hgetB := (Table.get?_eq_some_iff h.values).2 hinB'
    rw [Option.some.inj (hgetA.symm.trans hgetB)] at hab
    exact hab.2 rfl
  rcases Place.le_iff.1 hab.1 with hlt | ⟨heq, ⟨-, hpath⟩ | ⟨hpath, -⟩⟩
  · exact .inl hlt
  · exact .inr ⟨heq, Std.lt_of_le_of_ne hpath hkeys⟩
  · exact absurd hpath hkeys

/-! ### Closing -/

/-- What is written are files that were collected. -/
theorem mem_files_of_mem_survivors {s : Session} {file : ResourceFile} (h : file ∈ s.survivors) :
    ∃ parts, (parts, file) ∈ s.files := by
  -- what is overridden is left out, and the rest stays
  have hdrop : ∀ items : List ((ResourceType × String) × ResourceFile),
      ∀ a ∈ dropOverridden items, a ∈ items.map Prod.snd := by
    intro items
    induction items with
    | nil => exact fun a ha => absurd ha List.not_mem_nil
    | cons item items ih =>
        obtain ⟨key, first⟩ := item
        intro a ha
        rw [dropOverridden] at ha
        split at ha
        · exact List.mem_cons_of_mem _ (ih a ha)
        · rcases List.mem_cons.1 ha with rfl | ha
          · exact List.mem_cons_self
          · exact List.mem_cons_of_mem _ (ih a ha)
  have hsorted := hdrop _ file h
  rw [List.map_map] at hsorted
  obtain ⟨found, hfound, rfl⟩ := List.mem_map.1 hsorted
  obtain ⟨⟨parts, found⟩, hentry, rfl⟩ := List.mem_map.1 ((Place.sort_perm _ _).subset hfound)
  exact ⟨parts, hentry⟩

/-- A label changes failures only. -/
theorem labelled_ok {α : Type} {label : String} {act : Filing α} {s s' : Session} {a : α}
    (h : Filing.labelled label act s = .ok a s') : act s = .ok a s' := by
  unfold Filing.labelled at h
  cases hact : act s with
  | ok b t =>
      rw [hact] at h
      exact h
  | error e t =>
      rw [hact] at h
      cases h

/-- A session that is closed for the first time writes its files, then its declarations. -/
theorem released_ok {look : Look Bytes} {s : Session} {finished : Outputs}
    (hopen : s.finished? = none) (h : released look s = .ok finished) :
    ∃ t u, s.survivors.forM (storeFrom look) { s with files := [] } = .ok () t ∧
      (t.sortedValues.forM fun (key, held) => storeValues key.2 held : Filing Unit)
        { t with values := [] } = .ok () u ∧
      finished = u.outputs := by
  obtain ⟨s', hrelease⟩ : ∃ s', release look s = .ok finished s' := by
    unfold released at h
    cases hrelease : release look s with
    | ok archives s' =>
        rw [hrelease] at h
        exact ⟨s', congrArg (EStateM.Result.ok · s') (Except.ok.inj h)⟩
    | error e s' =>
        rw [hrelease] at h
        cases h
  obtain ⟨v, closed, hclose, hget⟩ := exists_of_bind_ok hrelease
  unfold close at hclose
  obtain ⟨now, start, hstart, hclose⟩ := exists_of_bind_ok hclose
  cases hstart
  rw [hopen] at hclose
  simp only [Option.isSome_none, Bool.false_eq_true, if_false] at hclose
  obtain ⟨v, t, hfiles, hclose⟩ := exists_of_bind_ok hclose
  obtain ⟨v, u, hvalues, hfinish⟩ := exists_of_bind_ok hclose
  cases hfinish
  cases hget
  exact ⟨t, u, labelled_ok hfiles, labelled_ok hvalues, rfl⟩

/-- The document of a holding says what was delivered. -/
theorem Holds.tells {seen : List Delivery} {s : Session} (h : s.Holds seen) (hkeys : s.Keyed)
    {shards : Nat} {key : List Path.Component × ResourceType} {held : Holding}
    {d : ValuesDocument} (hitem : (key, held) ∈ s.values)
    (hd : DocumentOf s.rootAttributes s.sharder shards held d) :
    d.Tells s.outputs s.sharder seen key.2 shards := by
  have hown : d.source.path.components = key.1 := by
    rw [hd.source]
    exact hkeys.ownSource _ hitem
  have hget : s.values.get? (d.source.path.components, key.2) = some held := by
    rw [hown]
    exact (Table.get?_eq_some_iff hkeys.values).2 hitem
  refine ⟨?_, ?_, ?_, hd.placed⟩
  · rw [← h.attributes, hd.source]
    exact hd.tag
  · rw [hd.payloads]
    exact h.stores hget
  · rw [hd.payloads]
    intro hnil
    have hperm : (sortedPayloads held.payloads).Perm held.payloads := List.mergeSort_perm _ _
    rw [hnil] at hperm
    exact h.used _ hitem hperm.nil_eq.symm

/-- Entries that are copies of survivors are copies of files that were delivered, of a type that has
archives. -/
theorem Holds.copied {seen : List Delivery} {s : Session} (h : s.Holds seen) {look : Look Bytes}
    {type : ResourceType} {shards : Nat} {more : Nat → List Entry}
    (hmore : CopiesOf look s.survivors type shards more) (index : Nat) :
    ∀ e ∈ more index, ∃ file, Delivery.file file ∈ seen ∧
      s.outputs.contains file.type = true ∧ Copies look file e := by
  intro e he
  obtain ⟨file, hfile, hcopy⟩ := hmore index e he
  obtain ⟨parts, hentry⟩ := mem_files_of_mem_survivors hfile
  exact ⟨file, (h.files _ hentry).1, (h.files _ hentry).2, hcopy⟩

/-- Every file that offers something of a type has a document among those written. -/
theorem Holds.complete {seen : List Delivery} {s : Session} (h : s.Holds seen) (hkeys : s.Keyed)
    {type : ResourceType} {shards : Nat} {documents : List ValuesDocument}
    (hall : List.Forall₂ (fun item d => DocumentOf s.rootAttributes s.sharder shards item.2 d)
      (s.sortedValues.filter fun item => decide (item.1.2 = type)) documents)
    {parts : List Path.Component} {key : String} {payload : Bytes}
    (hoffered : Offered s.outputs seen parts type key payload) :
    ∃ d ∈ documents, d.source.path.components = parts := by
  cases hget : s.values.get? (parts, type) with
  | none =>
      -- nothing is held, so nothing was offered
      have hkept := h.payloads parts type key
      rw [payloadsOf, hget] at hkept
      exact absurd hoffered (hkept payload)
  | some held =>
      have hentry := Table.mem_of_get? hget
      have hin : ((parts, type), held) ∈ s.sortedValues.filter fun item =>
          decide (item.1.2 = type) :=
        List.mem_filter.2 ⟨s.sortedValues_perm.symm.subset hentry, decide_eq_true rfl⟩
      obtain ⟨d, hd, hdocument⟩ := exists_right_of_forall₂ hall hin
      refine ⟨d, hd, ?_⟩
      rw [hdocument.source]
      exact hkeys.ownSource _ hentry

/-- **Nothing is lost or doubled.** Closing a session with empty archives leaves no archives of
other types, and those of each type `Sharded`: a file that declares something of the type has one
document, every archive has an entry of that name, and each declaration is in the entry of the
archive that it is assigned to. -/
theorem released_sharded {outputs finished : Outputs} {sharder : Sharder} {order : DeclarationOrder}
    {look : Look Bytes} {ds : List Delivery} {s : Session}
    (hempty : ∀ type archives, outputs.get? type = some archives → ∀ a ∈ archives, a = [])
    (hds : collectAll { outputs, sharder, order } ds = .ok s)
    (hreleased : released look s = .ok finished) :
    (∀ type, outputs.get? type = none → finished.get? type = none) ∧
      ∀ type archives, outputs.get? type = some archives → ∃ documents done,
        finished.get? type = some done ∧
        Sharded outputs sharder order look ds type archives.length documents done := by
  obtain ⟨hkeys, hsame⟩ := (keyed_new outputs sharder order).collectAll hds
  have hholds : s.Holds ds := (holds_nil outputs sharder order).collectAll hds
  obtain ⟨t, u, hfiles, hvalues, rfl⟩ := released_ok hsame.finished hreleased
  have hcopies := extended_of_forM_storeFrom hfiles
  have hdocuments := extended_of_forM_storeValues hvalues
  obtain rfl : s.outputs = outputs := hsame.outputs
  obtain rfl : s.sharder = sharder := hsame.sharder
  obtain rfl : s.order = order := hsame.order
  -- writing files leaves everything that documents are made from
  have hsharder : t.sharder = s.sharder := hcopies.sharder
  have hattributes : t.rootAttributes = s.rootAttributes := hcopies.attributes
  have hsorted : t.sortedValues = s.sortedValues := by
    have horder : t.order = s.order := hcopies.order
    have hvalues : t.values = s.values := hcopies.values
    unfold sortedValues place
    rw [horder, hvalues]
  simp only [hsharder, hattributes, hsorted] at hdocuments
  refine ⟨fun type hnone => hdocuments.none type (hcopies.none type hnone),
    fun type archives harchives => ?_⟩
  obtain ⟨copied, hcopied, hout, hnamed⟩ := hcopies.some type archives harchives
  obtain ⟨more, ⟨documents, rfl, hall⟩, hout', hnamed'⟩ := hdocuments.some type _ hout
  rw [length_appendAll] at hout' hall hnamed'
  refine ⟨documents, _, hout', ?_⟩
  constructor
  · rw [length_appendAll, length_appendAll]
  · intro index a ha
    rw [appendAll_appendAll, getElem?_appendAll] at ha
    obtain ⟨before, hbefore, rfl⟩ := Option.map_eq_some_iff.1 ha
    have hnil : before = [] := hempty type archives harchives before (List.mem_of_getElem? hbefore)
    refine ⟨copied index, ?_, hholds.copied hcopied index⟩
    rw [hnil]
    rfl
  · refine hnamed' (hnamed fun a ha => ?_)
    rw [hempty type archives harchives a ha]
    exact .nil
  · refine pairwise_of_forall₂ hall (hkeys.sortedValues_ordered type) ?_
    intro item item' d d' hd hd' hbefore
    rw [hd.source, hd'.source]
    exact hbefore
  · intro parts key payload hoffered
    exact hholds.complete hkeys hall hoffered
  · intro d hd
    obtain ⟨⟨key, held⟩, hin, hdocument⟩ := exists_left_of_forall₂ hall hd
    obtain ⟨hsortedIn, htype⟩ := List.mem_filter.1 hin
    obtain rfl : key.2 = type := of_decide_eq_true htype
    exact hholds.tells hkeys (s.sortedValues_perm.subset hsortedIn) hdocument

/-- A values file. -/
def valuesFile : ResourceFile :=
  ⟨.ofString "res/values/strings.xml", .ofString "res", "values", .values, "", {}⟩

/-- A root attribute of the file, a declaration, and an attribute of another package. -/
def oneName : List Delivery :=
  [.collected valuesFile (.rootAttribute ⟨⟨"xmlns", "p"⟩, "u"⟩),
    .collected valuesFile (.value ⟨ResourceName.defaultPackage, .string, "title"⟩
      (Bytes.ofString "<string name=\"title\"/>")),
    .collected valuesFile (.value ⟨"other", .attr, "title"⟩ (Bytes.ofString "<attr/>"))]

theorem released_sharded_oneName : ∃ s finished,
    collectAll { outputs := [(.string, [[], []])], sharder := .fnv } oneName = .ok s ∧
      released (fun _ => .error .notFound) s = .ok finished ∧
      ∃ documents done, finished.get? .string = some done ∧
        Sharded [(.string, [[], []])] .fnv {} (fun _ => .error .notFound) oneName .string 2
          documents done := by
  have hrun : ((collectAll { outputs := [(.string, [[], []])], sharder := .fnv } oneName).bind
      (released fun _ => .error .notFound)).isOk = true := by decide +kernel
  cases hds : collectAll { outputs := [(.string, [[], []])], sharder := .fnv } oneName with
  | error e =>
      rw [hds] at hrun
      cases hrun
  | ok s =>
      rw [hds, Except.bind] at hrun
      cases hreleased : released (fun _ => .error .notFound) s with
      | error e =>
          rw [hreleased] at hrun
          cases hrun
      | ok finished =>
          have hempty : ∀ type archives,
              Table.get? type [(ResourceType.string, [([] : Archive), []])] = some archives →
                ∀ a ∈ archives, a = [] := by
            intro type archives harchives
            have hentry := Table.mem_of_get? harchives
            obtain ⟨-, rfl⟩ := Prod.mk.inj (List.mem_singleton.1 hentry)
            decide
          obtain ⟨documents, done, hdone, hsharded⟩ :=
            (released_sharded hempty hds hreleased).2 .string [[], []] rfl
          exact ⟨s, finished, rfl, hreleased, documents, done, hdone, hsharded⟩

end Session

end ResourceShards
