import ResourceShards.Proofs.Archive.Noting
import ResourceShards.Proofs.Archive.Reclosing
import ResourceShards.Proofs.Archive.Surviving

/-!
# ResourceShards.Proofs.Archive.EntryNames

**Names of entries never clash.** The files of one type that are written have different entry names.
Declarations are written after all files, under a name that is not in use for their type, be it that
of a file, of other declarations, or one with a number. So each name in the archives of a type comes
from one source, and an archive never refuses an entry for its name, however far a close comes.

* `Session.closing`: a close, source by source
* `Session.Course`: a row of sources that are written, each under a new name
* `Session.Unmixed`: entries of one name come from one source
* `Session.unmixed_of_collectEach`: whatever is collected, closing mixes nothing up
-/

namespace ResourceShards.Session

/-! ### A close, source by source -/

/-- What entries are written for. -/
inductive Source where
  /-- A file that is a resource. -/
  | file (file : ResourceFile)
  /-- The declarations of one type in one file. -/
  | declarations (type : ResourceType) (held : Holding)

/-- Writes the entries of a source. -/
def Source.write (look : Look Bytes) : Source → Filing Unit
  | .file f => storeFrom look f
  | .declarations type held => storeValues type held

/-- The writing of one source. -/
structure Turn where
  /-- What is written. -/
  source : Source
  /-- The session before. -/
  before : Session
  /-- The session after it, or where it failed. -/
  after : Session

/-- The names of the entries that were put into the archives of a type. -/
def Turn.added (turn : Turn) (type : ResourceType) : List String :=
  ((turn.before.archivesOf type).zip (turn.after.archivesOf type)).flatMap fun (a, b) =>
    Archive.names (b.drop a.length)

/-- Sources that are written one after the other, up to the first that fails. -/
def turns (look : Look Bytes) : List Source → Session → List Turn
  | [], _ => []
  | source :: rest, s =>
    match source.write look s with
    | .ok _ t => ⟨source, s, t⟩ :: turns look rest t
    | .error _ t => [⟨source, s, t⟩]

/-- What closing a session writes: the files, and if that succeeds the declarations. -/
def closing (look : Look Bytes) (s : Session) : List Turn :=
  let files := turns look (s.survivors.map .file) { s with files := [] }
  match flushFiles look s with
  | .ok _ t =>
    files ++ turns look (t.sortedValues.map fun item => .declarations item.1.2 item.2)
      { t with values := [] }
  | .error _ _ => files

/-! ### One turn -/

/-- What a turn `added` is what stands behind the entries that were there. -/
theorem Turn.mem_added {turn : Turn} {type : ResourceType} {more : Nat → List Entry}
    (h : turn.after.archivesOf type = appendAll more (turn.before.archivesOf type))
    {name : String} :
    name ∈ turn.added type ↔
      ∃ index, index < (turn.before.archivesOf type).length ∧
        name ∈ Archive.names (more index) := by
  unfold added
  rw [h, List.mem_flatMap]
  constructor
  · rintro ⟨⟨a, b⟩, hpair, hname⟩
    obtain ⟨index, hindex, hget⟩ := List.getElem_of_mem hpair
    simp only [List.length_zip, length_appendAll, Nat.min_self] at hindex
    simp only [List.getElem_zip, appendAll, List.getElem_mapIdx, Prod.mk.injEq] at hget
    obtain ⟨rfl, rfl⟩ := hget
    exact ⟨index, hindex, by simpa using hname⟩
  · rintro ⟨index, hindex, hname⟩
    have hlength : index < ((turn.before.archivesOf type).zip
        (appendAll more (turn.before.archivesOf type))).length := by simpa using hindex
    refine ⟨_, List.getElem_mem hlength, ?_⟩
    simpa [appendAll] using hname

/-- What a turn `Adds` has the name of the turn, and that is noted. -/
theorem Adds.of_mem_added {type : ResourceType} {name : String} {turn : Turn}
    (h : Adds type name turn.before turn.after) {other : ResourceType} {entry : String}
    (hentry : entry ∈ turn.added other) :
    other = type ∧ entry = name ∧ name ∈ turn.after.takenOf type := by
  obtain ⟨more, harchives, hmore⟩ := h.written other
  obtain ⟨index, -, hmem⟩ := (Turn.mem_added harchives).1 hentry
  rcases hmore index with hnil | ⟨rfl, hname, e, rfl, hone⟩
  · rw [hnil] at hmem
    exact absurd hmem List.not_mem_nil
  · rw [hone] at hmem
    exact ⟨rfl, List.mem_singleton.1 hmem, hname⟩

/-- What is in the archives after a turn was there before it, or was `added`. -/
theorem Adds.mem_names {type : ResourceType} {name : String} {turn : Turn}
    (h : Adds type name turn.before turn.after) {other : ResourceType} {a : Archive}
    (ha : a ∈ turn.after.archivesOf other) {entry : String} (hentry : entry ∈ a.names) :
    (∃ b ∈ turn.before.archivesOf other, entry ∈ b.names) ∨ entry ∈ turn.added other := by
  obtain ⟨more, harchives, -⟩ := h.written other
  rw [Turn.mem_added harchives]
  rw [harchives, appendAll] at ha
  obtain ⟨index, hindex, rfl⟩ := List.mem_mapIdx.1 ha
  rw [Archive.names_append, List.mem_append] at hentry
  rcases hentry with hold | hnew
  · exact .inl ⟨_, List.getElem_mem hindex, hold⟩
  · exact .inr ⟨index, hindex, hnew⟩

/-! ### Rows of turns -/

/-- Sources that are written one after the other, each under a name that was not noted before. -/
inductive Course : Session → List Turn → Session → Prop where
  /-- Nothing is written. -/
  | stop {s t : Session} (houtputs : t.outputs = s.outputs) (htaken : t.taken = s.taken) :
      Course s [] t
  /-- A source is written, then others are. -/
  | turn {s t : Session} {turn : Turn} {rest : List Turn} {type : ResourceType} {name : String}
      (houtputs : turn.before.outputs = s.outputs) (htaken : turn.before.taken = s.taken)
      (hnew : name ∉ turn.before.takenOf type) (hadds : Adds type name turn.before turn.after)
      (hrest : Course turn.after rest t) : Course s (turn :: rest) t

theorem Noted.of_eq {s t : Session} (h : s.Noted) (houtputs : t.outputs = s.outputs)
    (htaken : t.taken = s.taken) : t.Noted := by
  unfold Noted archivesOf takenOf at h ⊢
  rwa [houtputs, htaken]

namespace Course

variable {s t : Session} {row : List Turn}

/-- A `Course` keeps the names of the archives `Noted`. -/
theorem noted (h : Course s row t) (hs : s.Noted) : t.Noted := by
  induction h with
  | stop houtputs htaken => exact hs.of_eq houtputs htaken
  | turn houtputs htaken hnew hadds hrest ih =>
      exact ih (hadds.toNoted hnew (hs.of_eq houtputs htaken))

/-- A `Course` takes no name from those that are noted. -/
theorem kept (h : Course s row t) (type : ResourceType) : s.takenOf type ⊆ t.takenOf type := by
  induction h with
  | stop houtputs htaken =>
      unfold takenOf
      rw [htaken]
      exact fun _ h => h
  | @turn s t turn rest type name houtputs htaken hnew hadds hrest ih =>
      intro entry hentry
      refine ih (hadds.kept _ ?_)
      unfold takenOf at hentry ⊢
      rwa [htaken]

/-- What is `added` in a `Course` was not noted before, and is noted then. -/
theorem new (h : Course s row t) {turn : Turn} (hturn : turn ∈ row) {type : ResourceType}
    {entry : String} (hentry : entry ∈ turn.added type) :
    entry ∉ s.takenOf type ∧ entry ∈ t.takenOf type := by
  induction h with
  | stop houtputs htaken => exact absurd hturn List.not_mem_nil
  | @turn s t first rest type' name houtputs htaken hnew hadds hrest ih =>
      have hbefore : ∀ type, first.before.takenOf type = s.takenOf type := by
        intro type
        rw [takenOf, htaken, takenOf]
      rcases List.mem_cons.1 hturn with rfl | hturn
      · obtain ⟨rfl, rfl, hname⟩ := hadds.of_mem_added hentry
        rw [← hbefore]
        exact ⟨hnew, hrest.kept _ hname⟩
      · obtain ⟨hnot, hin⟩ := ih hturn
        rw [← hbefore]
        exact ⟨fun hmem => hnot (hadds.kept _ hmem), hin⟩

/-- No two turns of a `Course` add one name for one type. -/
theorem pairwise (h : Course s row t) :
    row.Pairwise fun a b => ∀ type, (a.added type).Disjoint (b.added type) := by
  induction h with
  | stop houtputs htaken => exact .nil
  | @turn s t first rest type' name houtputs htaken hnew hadds hrest ih =>
      refine List.pairwise_cons.2 ⟨fun turn hturn type entry hfirst hlater => ?_, ih⟩
      obtain ⟨rfl, rfl, hname⟩ := hadds.of_mem_added hfirst
      exact (hrest.new hturn hlater).1 hname

/-- What is in the archives at the end of a `Course` was there at first, or was `added` by a turn.
-/
theorem covers (h : Course s row t) {type : ResourceType} {a : Archive}
    (ha : a ∈ t.archivesOf type) {entry : String} (hentry : entry ∈ a.names) :
    (∃ b ∈ s.archivesOf type, entry ∈ b.names) ∨ ∃ turn ∈ row, entry ∈ turn.added type := by
  induction h generalizing a with
  | stop houtputs htaken =>
      unfold archivesOf at ha ⊢
      rw [houtputs] at ha
      exact .inl ⟨a, ha, hentry⟩
  | @turn s t first rest type' name houtputs htaken hnew hadds hrest ih =>
      rcases ih ha hentry with ⟨b, hb, hold⟩ | ⟨turn, hturn, hadded⟩
      · rcases hadds.mem_names hb hold with hbefore | hadded
        · unfold archivesOf at hbefore ⊢
          rw [houtputs] at hbefore
          exact .inl hbefore
        · exact .inr ⟨first, List.mem_cons_self, hadded⟩
      · exact .inr ⟨turn, List.mem_cons_of_mem _ hturn, hadded⟩

/-- A `Course` looks at the archives and the names that are noted, and at nothing else of a session.
-/
theorem of_eq {s' : Session} (h : Course s' row t) (houtputs : s'.outputs = s.outputs)
    (htaken : s'.taken = s.taken) : Course s row t := by
  cases h with
  | stop houtputs' htaken' => exact .stop (houtputs'.trans houtputs) (htaken'.trans htaken)
  | turn houtputs' htaken' hnew hadds hrest =>
      exact .turn (houtputs'.trans houtputs) (htaken'.trans htaken) hnew hadds hrest

/-- A `Course` may follow a `Course`. -/
theorem append {u : Session} {more : List Turn} (h : Course s row t) (h' : Course t more u) :
    Course s (row ++ more) u := by
  induction h with
  | stop houtputs htaken => exact h'.of_eq houtputs htaken
  | turn houtputs htaken hnew hadds hrest ih => exact .turn houtputs htaken hnew hadds (ih h')

end Course

/-! ### Closing -/

/-- The `turns` of sources are a `Course`, if some condition makes each source add a new name and
holds again for those behind it. -/
theorem course_turns {look : Look Bytes} (Ready : List Source → Session → Prop)
    (hstep : ∀ source rest s, Ready (source :: rest) s →
      (∃ type name, name ∉ s.takenOf type ∧
        Adds type name s (Filing.reached (source.write look) s)) ∧
      (∀ e t, source.write look s = .error e t → ¬e.IsDuplicate) ∧
      ∀ t, source.write look s = .ok () t → Ready rest t)
    {sources : List Source} {s : Session} (h : Ready sources s) :
    Course s (turns look sources s) (Filing.reached (sources.forM (Source.write look)) s) ∧
      ∀ e t, sources.forM (Source.write look) s = .error e t → ¬e.IsDuplicate := by
  induction sources generalizing s with
  | nil => exact ⟨.stop rfl rfl, fun e t h => nomatch h⟩
  | cons source rest ih =>
      obtain ⟨⟨type, name, hnew, hadds⟩, hrefused, hready⟩ := hstep source rest s h
      change Course s _ (Filing.reached
        (source.write look >>= fun _ => rest.forM (Source.write look)) s) ∧
        ∀ e t, (source.write look >>= fun _ => rest.forM (Source.write look)) s = .error e t → _
      rw [turns]
      cases hwrite : source.write look s with
      | error e t =>
          have hrun : (source.write look >>= fun _ => rest.forM (Source.write look)) s =
              .error e t := bind_eq_error_iff.2 (.inl hwrite)
          rw [Filing.reached, hwrite] at hadds
          rw [Filing.reached, hrun]
          refine ⟨.turn rfl rfl hnew hadds (.stop rfl rfl), fun e' t' heq => ?_⟩
          cases heq
          exact hrefused e t hwrite
      | ok u t =>
          obtain ⟨hcourse, hrest⟩ := ih (hready t hwrite)
          rw [Filing.reached, hwrite] at hadds
          rw [Filing.reached, bind_of_ok hwrite]
          exact ⟨.turn rfl rfl hnew hadds hcourse, hrest⟩

/-- Files with different entry names that are not noted yet are written in a `Course`. -/
theorem course_files (look : Look Bytes) {files : List ResourceFile} {s : Session} (hs : s.Noted)
    (hapart : files.Pairwise fun a b => (a.type, a.entryName) ≠ (b.type, b.entryName))
    (hnew : ∀ file ∈ files, file.entryName ∉ s.takenOf file.type) :
    Course s (turns look (files.map .file) s)
        (Filing.reached ((files.map .file).forM (Source.write look)) s) ∧
      ∀ e t, (files.map .file).forM (Source.write look) s = .error e t → ¬e.IsDuplicate := by
  refine course_turns (fun sources s => s.Noted ∧ ∃ files : List ResourceFile,
    sources = files.map .file ∧
    (files.Pairwise fun a b => (a.type, a.entryName) ≠ (b.type, b.entryName)) ∧
    ∀ file ∈ files, file.entryName ∉ s.takenOf file.type) ?_ ⟨hs, files, rfl, hapart, hnew⟩
  rintro source rest s ⟨hs, files, hsources, hapart, hnew⟩
  cases files with
  | nil => cases hsources
  | cons file files =>
      obtain ⟨rfl, rfl⟩ := List.cons.inj hsources
      obtain ⟨hfirst, hapart⟩ := List.pairwise_cons.1 hapart
      obtain ⟨hnewFirst, hnew⟩ := List.forall_mem_cons.1 hnew
      obtain ⟨hadds, hrefused⟩ := adds_storeFrom look file s
      refine ⟨⟨file.type, file.entryName, hnewFirst, hadds⟩, fun e t hwrite => ?_,
        fun t hwrite => ?_⟩
      · exact hrefused e t hwrite fun a ha hmem => hnewFirst ((hs _ a ha).1 hmem)
      · have ht : Filing.reached (storeFrom look file) s = t := by
          rw [Filing.reached, show storeFrom look file s = .ok () t from hwrite]
        rw [ht] at hadds
        refine ⟨hadds.toNoted hnewFirst hs, files, rfl, hapart, fun other hother hmem => ?_⟩
        rcases hadds.noted _ _ hmem with hmem | ⟨htype, hentry⟩
        · exact hnew other hother hmem
        · exact hfirst other hother (by rw [htype, hentry])

/-- Declarations are written in a `Course`: `FreshName.choose` gives them names that are not noted.
-/
theorem course_declarations (look : Look Bytes)
    (items : List ((List Path.Component × ResourceType) × Holding)) {s : Session} (hs : s.Noted) :
    let sources := items.map fun item => Source.declarations item.1.2 item.2
    Course s (turns look sources s) (Filing.reached (sources.forM (Source.write look)) s) ∧
      ∀ e t, sources.forM (Source.write look) s = .error e t → ¬e.IsDuplicate := by
  refine course_turns (fun sources s => s.Noted ∧
    ∃ items : List ((List Path.Component × ResourceType) × Holding),
      sources = items.map fun item => .declarations item.1.2 item.2) ?_ ⟨hs, items, rfl⟩
  rintro source rest s ⟨hs, items, hsources⟩
  cases items with
  | nil => cases hsources
  | cons item items =>
      obtain ⟨⟨parts, type⟩, held⟩ := item
      obtain ⟨rfl, rfl⟩ := List.cons.inj hsources
      obtain ⟨⟨entry, hnew, hadds⟩, hrefused⟩ := adds_storeValues hs type held
      refine ⟨⟨type, entry, hnew, hadds⟩, hrefused, fun t hwrite => ?_⟩
      have ht : Filing.reached (storeValues type held) s = t := by
        rw [Filing.reached, show storeValues type held s = .ok () t from hwrite]
      rw [ht] at hadds
      exact ⟨hadds.toNoted hnew hs, items, rfl⟩

/-- The archives of a session, finished or not. -/
def left (s : Session) : Outputs :=
  s.finished?.getD s.outputs

theorem forM_map_write (look : Look Bytes) {α : Type} (source : α → Source) (items : List α) :
    (items.map source).forM (Source.write look) =
      items.forM fun item => (source item).write look := by
  induction items with
  | nil => rfl
  | cons item items ih =>
      show ((source item).write look >>= fun _ => (items.map source).forM (Source.write look)) = _
      rw [ih]
      rfl

/-- `flushFiles` is the course of the session's `survivors`. -/
theorem course_flushFiles (look : Look Bytes) {s : Session} (hs : s.Noted)
    (hnew : ∀ type, s.takenOf type = []) :
    Course s (turns look (s.survivors.map .file) { s with files := [] })
        (Filing.reached (flushFiles look) s) ∧
      ∀ e t, flushFiles look s = .error e t → ¬e.IsDuplicate := by
  have hsurvivors : ∀ file ∈ s.survivors, file.entryName ∉ s.takenOf file.type := by
    intro file _
    rw [hnew]
    exact List.not_mem_nil
  obtain ⟨hfiles, hrefused⟩ := course_files look (s := { s with files := [] }) hs
    s.survivors_apart hsurvivors
  have hflush : (s.survivors.map .file).forM (Source.write look) { s with files := [] } =
      flushFiles look s := by
    rw [forM_map_write]
    rfl
  rw [hflush] at hrefused
  rw [Filing.reached, hflush] at hfiles
  exact ⟨hfiles.of_eq rfl rfl, hrefused⟩

/-- `flushValues` is the course of the session's `sortedValues`, and no archive refuses a document
for its name. -/
theorem course_flushValues (look : Look Bytes) {s : Session} (hs : s.Noted) :
    Course s (turns look (s.sortedValues.map fun item => .declarations item.1.2 item.2)
        { s with values := [] }) (Filing.reached flushValues s) ∧
      ∀ e t, flushValues s = .error e t → ¬e.IsDuplicate := by
  obtain ⟨hvalues, hrefused⟩ :=
    course_declarations look (s := { s with values := [] }) s.sortedValues hs
  have hflush : (s.sortedValues.map fun item =>
      Source.declarations item.1.2 item.2).forM (Source.write look) { s with values := [] } =
      flushValues s := by
    rw [forM_map_write]
    rfl
  rw [hflush] at hrefused
  rw [Filing.reached, hflush] at hvalues
  exact ⟨hvalues.of_eq rfl rfl, hrefused⟩

/-- A `close` that fails leaves the archives where it stopped. -/
theorem left_of_close_error {look : Look Bytes} {s t : Session} {e : Error}
    (h : close look s = .error e t) : t.left = t.outputs := by
  have hopen : t.finished? = none := ((close_eq_error_iff.1 h).pending).1
  rw [left, hopen]
  rfl

/-- A `close` writes its sources in a `Course`, whether it succeeds or fails. -/
theorem course_closing (look : Look Bytes) {s : Session} (hopen : s.finished? = none)
    (hs : s.Noted) (hnew : ∀ type, s.takenOf type = []) :
    ∃ t, Course s (s.closing look) t ∧ (Filing.reached (close look) s).left = t.outputs ∧
      ∀ e s', close look s = .error e s' → ¬e.IsDuplicate := by
  obtain ⟨hfiles, hrefused⟩ := course_flushFiles look hs hnew
  unfold closing
  rw [Filing.reached] at hfiles
  cases hrun : flushFiles look s with
  | error e t =>
      rw [hrun] at hfiles
      have hclose := close_of_files_error hopen hrun
      rw [Filing.reached, hclose]
      refine ⟨t, hfiles, left_of_close_error hclose, fun e' s' heq => ?_⟩
      cases heq
      rw [Error.isDuplicate_withLabel]
      exact hrefused e t hrun
  | ok u t =>
      rw [hrun] at hfiles
      obtain ⟨hvalues, hrefusedValues⟩ := course_flushValues look (hfiles.noted hs)
      rw [Filing.reached] at hvalues
      cases hrunValues : flushValues t with
      | error e v =>
          rw [hrunValues] at hvalues
          have hclose := close_of_values_error hopen hrun hrunValues
          rw [Filing.reached, hclose]
          refine ⟨v, hfiles.append hvalues, left_of_close_error hclose, fun e' s' heq => ?_⟩
          cases heq
          rw [Error.isDuplicate_withLabel]
          exact hrefusedValues e v hrunValues
      | ok w v =>
          rw [hrunValues] at hvalues
          rw [Filing.reached, close_of_written hopen hrun hrunValues]
          refine ⟨v, hfiles.append hvalues, rfl, fun e' s' heq => ?_⟩
          cases heq

/-- What a close writes, and leaves in the archives: entries of one name come from one source. -/
structure Unmixed (look : Look Bytes) (s : Session) : Prop where
  /-- No two sources put entries of one name into the archives of a type. -/
  apart : (s.closing look).Pairwise fun a b => ∀ type, (a.added type).Disjoint (b.added type)
  /-- Every entry that is left was put there by a source. -/
  covered : ∀ type archives, (Filing.reached (close look) s).left.get? type = some archives →
    ∀ a ∈ archives, ∀ name ∈ a.names, ∃ turn ∈ s.closing look, name ∈ turn.added type
  /-- No archive has a name twice. -/
  distinct : ∀ type archives, (Filing.reached (close look) s).left.get? type = some archives →
    ∀ a ∈ archives, a.names.Nodup
  /-- No archive refused an entry for its name. -/
  welcome : ∀ e s', close look s = .error e s' → ¬e.IsDuplicate

theorem sameArchives_collectEach (s : Session) (ds : List Delivery) :
    SameArchives (s.collectEach ds) s := by
  induction ds generalizing s with
  | nil => exact .refl s
  | cons d ds ih =>
      rw [collectEach]
      split
      · rename_i next hd
        exact (ih next).trans (sameArchives_of_collect hd)
      · exact ih s

/-- **A close mixes no names up.** Whatever is delivered to a session with empty archives, and
whatever the disk holds, closing it is `Unmixed`, even if it fails. -/
theorem unmixed_of_collectEach {outputs : Outputs} (sharder : Sharder) (order : DeclarationOrder)
    (hempty : ∀ type archives, outputs.get? type = some archives → ∀ a ∈ archives, a = [])
    (ds : List Delivery) (look : Look Bytes) :
    (collectEach { outputs, sharder, order } ds).Unmixed look := by
  have hsame := sameArchives_collectEach { outputs, sharder, order } ds
  generalize collectEach { outputs, sharder, order } ds = s at hsame
  have hnone : ∀ type, ∀ a ∈ s.archivesOf type, a = [] := by
    intro type a ha
    rw [archivesOf, hsame.outputs] at ha
    cases harchives : outputs.get? type with
    | none =>
        rw [harchives] at ha
        exact absurd ha List.not_mem_nil
    | some archives =>
        rw [harchives] at ha
        exact hempty type archives harchives a ha
  have hnoted : s.Noted := by
    intro type a ha
    rw [hnone type a ha]
    exact ⟨fun name h => absurd h List.not_mem_nil, .nil⟩
  have hnew : ∀ type, s.takenOf type = [] := by
    intro type
    rw [takenOf, hsame.taken]
    rfl
  obtain ⟨t, hcourse, hleft, hwelcome⟩ := course_closing look hsame.finished hnoted hnew
  refine ⟨hcourse.pairwise, fun type archives hget a ha name hname => ?_,
    fun type archives hget a ha => ?_, hwelcome⟩
  · rw [hleft] at hget
    have ha' : a ∈ t.archivesOf type := by
      rw [archivesOf, hget]
      exact ha
    refine (hcourse.covers ha' hname).resolve_left ?_
    rintro ⟨b, hb, hbefore⟩
    rw [hnone type b hb] at hbefore
    exact List.not_mem_nil hbefore
  · rw [hleft] at hget
    have ha' : a ∈ t.archivesOf type := by
      rw [archivesOf, hget]
      exact ha
    exact (hcourse.noted hnoted type a ha').2

/-- A values file of some directory. -/
def valuesFileOf (root name : String) : ResourceFile :=
  ⟨.ofString (root ++ "/res/values/" ++ name), .ofString (root ++ "/res"), "values", .values, "",
    {}⟩

/-- Two files of one name, and one that is named as the second of these is to be. -/
def clashing : List Delivery :=
  [valuesFileOf "one" "a.xml", valuesFileOf "two" "a.xml", valuesFileOf "two" "a_1.xml"].map
    fun file => .collected file (.value ⟨ResourceName.defaultPackage, .string, "title"⟩
      (Bytes.ofString "<string/>"))

theorem unmixed_of_clashing :
    let outputs : Outputs := [(.string, [[], []])]
    (∀ type archives, outputs.get? type = some archives → ∀ a ∈ archives, a = []) ∧
      (collectEach { outputs, sharder := .fnv } clashing).Unmixed fun _ => .error .notFound := by
  intro outputs
  have hempty : ∀ type archives, outputs.get? type = some archives → ∀ a ∈ archives, a = [] := by
    intro type archives harchives
    obtain ⟨-, rfl⟩ := Prod.mk.inj (List.mem_singleton.1 (Table.mem_of_get? harchives))
    decide
  exact ⟨hempty, unmixed_of_collectEach .fnv {} hempty clashing _⟩

end ResourceShards.Session
