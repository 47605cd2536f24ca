import ResourceShards.Proofs.Archive.Sharding

/-!
# ResourceShards.Proofs.Archive.Reclosing

**Closing again.** What was collected is taken out of a session before it is written, and a close
that fails does not put it back. The session stays open, with archives that end where the failure
was, and the next close finds less to do: after a failure in the files it writes the declarations,
after a failure in the declarations it has nothing to write at all and finishes the archives as they
are. So a session fails to close twice at most.

* `Filing.Leaves`: what is done to a session leaves a part of it as it is, also where it fails
* `Session.Interrupted`: where a close stops, and what it leaves
* `Session.close_eq_error_iff`: it stops nowhere else
* `Session.release_of_close_error`: what the closes after it do
-/

namespace ResourceShards

/-! ### Parts of a session that stay -/

namespace Filing

variable {α γ : Type}

/-- What is done leaves a part of the session as it is, whether it succeeds or fails. -/
abbrev Leaves (part : Session → γ) (act : Filing α) : Prop :=
  Spares part (fun _ => True) act

end Filing

namespace Session

/-- What is collected in a session, and the archives that are finished. -/
def pending (s : Session) :
    Table (List Path.Component) ResourceFile ×
      Table (List Path.Component × ResourceType) Holding × Option Outputs :=
  (s.files, s.values, s.finished?)

theorem pending_eq_iff {s t : Session} :
    t.pending = s.pending ↔
      t.files = s.files ∧ t.values = s.values ∧ t.finished? = s.finished? := by
  unfold pending
  rw [Prod.mk.injEq, Prod.mk.injEq]

/-- `store` touches nothing that is collected. -/
theorem leaves_store (file : ResourceFile) (contents : Except OsError Bytes) :
    Filing.Leaves pending (store file contents) := by
  unfold store
  split
  · exact .ret _
  simp only
  cases storedName file with
  | error e => exact .fail trivial
  | ok name =>
      refine .seq (.ret name) fun name => .seq .read fun s => ?_
      cases s.outputs.get? name.type with
      | none => exact .fail trivial
      | some archives =>
          simp only
          cases s.sharder.shard name.text archives.length with
          | error e => exact .fail trivial
          | ok index =>
              refine .seq (.ret index) fun index => .seq (.update fun s => rfl) fun _ => ?_
              split
              · exact .fail trivial
              · refine .seq (.update fun s => rfl) fun _ => ?_
                split
                · exact .fail trivial
                · exact .ret _

theorem leaves_storeFrom (look : Look Bytes) (file : ResourceFile) :
    Filing.Leaves pending (storeFrom look file) := by
  unfold storeFrom
  split
  · exact .fail trivial
  · exact leaves_store file _

/-- `storeValues` touches nothing that is collected. -/
theorem leaves_storeValues (type : ResourceType) (held : Holding) :
    Filing.Leaves pending (storeValues type held) := by
  refine .seq .read fun s => ?_
  simp only
  cases resourcesTag ((s.rootAttributes.get? held.source.path.components).getD []) with
  | error e => exact .fail trivial
  | ok tag =>
      refine .seq (.ret tag) fun tag => ?_
      cases FreshName.choose ((s.taken.get? type).getD []) held.source.entryName with
      | none => exact .fail trivial
      | some entry =>
          refine .seq (.ret entry) fun entry => .seq (.update fun s => rfl) fun _ => ?_
          cases s.outputs.get? type with
          | none => exact .fail trivial
          | some archives =>
              simp only
              refine .seq (.update fun s => rfl) fun _ => ?_
              split
              · exact .fail trivial
              · refine .seq (.update fun s => rfl) fun _ => ?_
                split
                · exact .fail trivial
                · exact .ret _

/-! ### Closes that fail -/

/-- A session with its archives finished as they are. -/
def finish (s : Session) : Session :=
  { s with outputs := [], finished? := some s.outputs }

/-- Writes the declarations that are held, one holding after the other. -/
abbrev storeHoldings (items : List ((List Path.Component × ResourceType) × Holding)) :
    Filing Unit :=
  items.forM fun (key, held) => storeValues key.2 held

theorem leaves_storeHoldings (items : List ((List Path.Component × ResourceType) × Holding)) :
    Filing.Leaves pending (storeHoldings items) := by
  refine .each ?_ items
  rintro ⟨key, held⟩
  exact leaves_storeValues key.2 held

/-- How a close of an open session stops with a failure: at a file, when all files before it are
written, or at the declarations of one type in one file, when all files and all declarations before
them are. What comes after is lost. -/
inductive Interrupted (look : Look Bytes) (s : Session) : Error → Session → Prop where
  | file {written lost : List ResourceFile} {file : ResourceFile} {t s' : Session} {e : Error}
      (hopen : s.finished? = none)
      (hcollected : s.survivors = written ++ file :: lost)
      (hwritten : written.forM (storeFrom look) { s with files := [] } = .ok () t)
      (hfailed : storeFrom look file t = .error e s') :
      Interrupted look s (e.withLabel "got error flushing collected paths: ") s'
  | declarations {written lost : List ((List Path.Component × ResourceType) × Holding)}
      {key : List Path.Component × ResourceType} {held : Holding} {t u s' : Session} {e : Error}
      (hopen : s.finished? = none)
      (hfiles : s.survivors.forM (storeFrom look) { s with files := [] } = .ok () t)
      (hcollected : t.sortedValues = written ++ (key, held) :: lost)
      (hwritten : storeHoldings written { t with values := [] } = .ok () u)
      (hfailed : storeValues key.2 held u = .error e s') :
      Interrupted look s (e.withLabel "got error flushing collected values: ") s'

theorem labelled_eq_ok_iff {α : Type} {label : String} {act : Filing α} {s s' : Session} {a : α} :
    Filing.labelled label act s = .ok a s' ↔ act s = .ok a s' := by
  refine ⟨labelled_ok, fun h => ?_⟩
  unfold Filing.labelled
  rw [h]

theorem labelled_eq_error_iff {α : Type} {label : String} {act : Filing α} {s s' : Session}
    {e : Error} :
    Filing.labelled label act s = .error e s' ↔
      ∃ e₀, act s = .error e₀ s' ∧ e = e₀.withLabel label := by
  unfold Filing.labelled
  cases act s with
  | ok a t =>
      constructor
      · intro h
        cases h
      · rintro ⟨e₀, h, -⟩
        cases h
  | error e₀ t =>
      constructor
      · intro h
        cases h
        exact ⟨e₀, rfl, rfl⟩
      · rintro ⟨e₁, h, rfl⟩
        cases h
        rfl

/-- `close` of an open session runs `flushFiles`, then `flushValues`, then `finish`. -/
theorem close_of_open {look : Look Bytes} {s : Session} (hopen : s.finished? = none) :
    close look s =
      (Filing.labelled "got error flushing collected paths: " (flushFiles look) >>= fun _ =>
        Filing.labelled "got error flushing collected values: " flushValues >>= fun _ =>
          modify finish) s := by
  unfold close
  rw [bind_of_ok (show (get : Filing Session) s = .ok s s from rfl)]
  rw [hopen]
  rfl

theorem flushFiles_eq (look : Look Bytes) (s : Session) :
    flushFiles look s = s.survivors.forM (storeFrom look) { s with files := [] } := rfl

theorem flushValues_eq (s : Session) :
    flushValues s = storeHoldings s.sortedValues { s with values := [] } := rfl

/-- `close` stops at a failure of `flushFiles`. -/
theorem close_of_files_error {look : Look Bytes} {s t : Session} {e : Error}
    (hopen : s.finished? = none) (hfiles : flushFiles look s = .error e t) :
    close look s = .error (e.withLabel "got error flushing collected paths: ") t := by
  rw [close_of_open hopen]
  exact bind_eq_error_iff.2 (.inl (labelled_eq_error_iff.2 ⟨e, hfiles, rfl⟩))

/-- `close` stops at a failure of `flushValues`, with all files written. -/
theorem close_of_values_error {look : Look Bytes} {s t u : Session} {e : Error}
    (hopen : s.finished? = none) (hfiles : flushFiles look s = .ok () t)
    (hvalues : flushValues t = .error e u) :
    close look s = .error (e.withLabel "got error flushing collected values: ") u := by
  rw [close_of_open hopen, bind_of_ok (labelled_eq_ok_iff.2 hfiles)]
  exact bind_eq_error_iff.2 (.inl (labelled_eq_error_iff.2 ⟨e, hvalues, rfl⟩))

/-- If `flushFiles` and then `flushValues` succeed, `close` does. -/
theorem close_of_written {look : Look Bytes} {s t u : Session} (hopen : s.finished? = none)
    (hfiles : flushFiles look s = .ok () t) (hvalues : flushValues t = .ok () u) :
    close look s = .ok () u.finish := by
  rw [close_of_open hopen, bind_of_ok (labelled_eq_ok_iff.2 hfiles),
    bind_of_ok (labelled_eq_ok_iff.2 hvalues)]
  rfl

/-- `close` fails exactly where it is `Interrupted`. -/
theorem close_eq_error_iff {look : Look Bytes} {s s' : Session} {e : Error} :
    close look s = .error e s' ↔ Interrupted look s e s' := by
  constructor
  · intro h
    have hopen : s.finished? = none := by
      cases hfinished : s.finished? with
      | none => rfl
      | some archives =>
          unfold close at h
          rw [bind_of_ok (show (get : Filing Session) s = .ok s s from rfl), hfinished] at h
          cases h
    rw [close_of_open hopen, bind_eq_error_iff] at h
    rcases h with h | ⟨v, t, hfiles, h⟩
    · obtain ⟨e₀, hflush, rfl⟩ := labelled_eq_error_iff.1 h
      rw [flushFiles_eq] at hflush
      obtain ⟨written, file, lost, t, hcollected, hwritten, hfailed⟩ :=
        forM_eq_error_iff.1 hflush
      exact .file hopen hcollected hwritten hfailed
    · rcases bind_eq_error_iff.1 h with hvalues | ⟨v, u, -, hfinish⟩
      · obtain ⟨e₀, hflush, rfl⟩ := labelled_eq_error_iff.1 hvalues
        rw [flushValues_eq] at hflush
        obtain ⟨written, ⟨key, held⟩, lost, u, hcollected, hwritten, hfailed⟩ :=
          forM_eq_error_iff.1 hflush
        exact .declarations hopen (labelled_ok hfiles) hcollected hwritten hfailed
      · cases hfinish
  · rintro (⟨hopen, hcollected, hwritten, hfailed⟩ |
      ⟨hopen, hfiles, hcollected, hwritten, hfailed⟩)
    · rw [close_of_open hopen, bind_eq_error_iff]
      refine .inl (labelled_eq_error_iff.2 ⟨_, ?_, rfl⟩)
      rw [flushFiles_eq]
      exact forM_eq_error_iff.2 ⟨_, _, _, _, hcollected, hwritten, hfailed⟩
    · rw [close_of_open hopen, bind_eq_error_iff]
      refine .inr ⟨(), _, labelled_eq_ok_iff.2 hfiles, bind_eq_error_iff.2 (.inl ?_)⟩
      refine labelled_eq_error_iff.2 ⟨_, ?_, rfl⟩
      rw [flushValues_eq]
      exact forM_eq_error_iff.2 ⟨_, _, _, _, hcollected, hwritten, hfailed⟩

/-- A close that is `Interrupted` leaves an open session without files, which holds all declarations
or none. -/
theorem Interrupted.pending {look : Look Bytes} {s s' : Session} {e : Error}
    (h : Interrupted look s e s') :
    s'.finished? = none ∧ s'.files = [] ∧ (s'.values = s.values ∨ s'.values = []) := by
  rcases h with ⟨hopen, hcollected, hwritten, hfailed⟩ |
    ⟨hopen, hfiles, hcollected, hwritten, hfailed⟩
  · obtain ⟨hleft, -⟩ := (leaves_storeFrom look _).error hfailed
    rw [(Spares.each (leaves_storeFrom look) _).ok hwritten] at hleft
    obtain ⟨hnone, hvalues, hfinished⟩ := pending_eq_iff.1 hleft
    exact ⟨hfinished.trans hopen, hnone, .inl hvalues⟩
  · obtain ⟨hleft, -⟩ := (leaves_storeValues _ _).error hfailed
    rw [(leaves_storeHoldings _).ok hwritten] at hleft
    have hbefore := (Spares.each (leaves_storeFrom look) _).ok hfiles
    obtain ⟨hnone, hvalues, hfinished⟩ := pending_eq_iff.1 hleft
    obtain ⟨hnone', -, hfinished'⟩ := pending_eq_iff.1 hbefore
    exact ⟨hfinished.trans (hfinished'.trans hopen), hnone.trans hnone', .inr hvalues⟩

/-- `flushFiles` does nothing where there are no files. -/
theorem flushFiles_of_no_files {s : Session} (h : s.files = []) (look : Look Bytes) :
    flushFiles look s = .ok () s := by
  have hnone : s.survivors = [] := by simp [survivors, Place.sort, dropOverridden, h]
  rw [flushFiles_eq, hnone, ← h]
  rfl

/-- `close` of a session without files succeeds if `storeHoldings` writes all declarations. -/
theorem close_of_no_files {s u : Session} (hopen : s.finished? = none) (hfiles : s.files = [])
    (hwritten : storeHoldings s.sortedValues { s with values := [] } = .ok () u)
    (look : Look Bytes) : close look s = .ok () u.finish := by
  have hflush := flushFiles_of_no_files hfiles look
  rw [close_of_open hopen, bind_of_ok (labelled_eq_ok_iff.2 hflush),
    bind_of_ok (labelled_eq_ok_iff.2 ((flushValues_eq s).trans hwritten))]
  rfl

theorem release_of_no_files {s u : Session} (hopen : s.finished? = none) (hfiles : s.files = [])
    (hwritten : storeHoldings s.sortedValues { s with values := [] } = .ok () u)
    (look : Look Bytes) : release look s = .ok u.outputs u.finish := by
  unfold release
  rw [bind_of_ok (close_of_no_files hopen hfiles hwritten look)]
  rfl

/-- `storeHoldings` does nothing where there are no declarations. -/
theorem storeHoldings_of_no_values {s : Session} (h : s.values = []) :
    storeHoldings s.sortedValues { s with values := [] } = .ok () s := by
  have hnone : s.sortedValues = [] := by simp [sortedValues, Place.sort, h]
  rw [hnone]
  show EStateM.Result.ok () { s with values := [] } = .ok () s
  rw [← h]

/-- **A failed close does not stay failed.** A `close` that fails leaves the session `Interrupted`.
The `release` after it reads nothing from the disk. Where `storeHoldings` can write the declarations
that are still held, it finishes the archives, without what the failure kept from being written;
where that fails in its turn, nothing is held any more, and the third one finishes the archives as
they are. -/
theorem release_of_close_error {look : Look Bytes} {s s' : Session} {e : Error}
    (h : close look s = .error e s') :
    Interrupted look s e s' ∧ s'.finished? = none ∧ s'.files = [] ∧
      (s'.values = s.values ∨ s'.values = []) ∧
      match storeHoldings s'.sortedValues { s' with values := [] } with
      | .ok _ u => ∀ second : Look Bytes, release second s' = .ok u.outputs u.finish
      | .error e' s'' => ∀ second third : Look Bytes,
          close second s' = .error (e'.withLabel "got error flushing collected values: ") s'' ∧
            release third s'' = .ok s''.outputs s''.finish := by
  have hinterrupted := close_eq_error_iff.1 h
  obtain ⟨hopen, hfiles, hvalues⟩ := hinterrupted.pending
  refine ⟨hinterrupted, hopen, hfiles, hvalues, ?_⟩
  cases hwritten : storeHoldings s'.sortedValues { s' with values := [] } with
  | ok v u =>
      intro second
      exact release_of_no_files hopen hfiles hwritten second
  | error e' s'' =>
      intro second third
      constructor
      · have hflush := flushFiles_of_no_files hfiles second
        rw [close_of_open hopen, bind_of_ok (labelled_eq_ok_iff.2 hflush), bind_eq_error_iff]
        exact .inl (labelled_eq_error_iff.2 ⟨e', (flushValues_eq s').trans hwritten, rfl⟩)
      · obtain ⟨hleft, -⟩ := (leaves_storeHoldings _).error hwritten
        obtain ⟨hfiles', hvalues', hopen'⟩ := pending_eq_iff.1 hleft
        have hnone : s''.values = [] := hvalues'
        exact release_of_no_files (hopen'.trans hopen) (hfiles'.trans hfiles)
          (storeHoldings_of_no_values hnone) third

/-- A sharder that has no archive for any name. -/
def stray : Sharder := ⟨"const", fun _ _ => 2⟩

/-- The document that is left in both archives: it has no declaration, and no end. -/
def torso : Entry where
  name := "res/values/strings.xml"
  body := header ++ Bytes.ofString "<resources xmlns:p=\"u\">"

/-- Whether closing a session without a disk fails and leaves these archives, with no declarations
held. -/
def breaksOff (outputs : Outputs) (s : Session) : Bool :=
  match close (fun _ => .error .notFound) s with
  | .ok _ _ => false
  | .error _ s' => s'.values.isEmpty && decide (s'.outputs = outputs)

theorem release_of_close_error_stray : ∃ s e s',
    collectAll { outputs := [(.string, [[], []])], sharder := stray } oneName = .ok s ∧
      close (fun _ => .error .notFound) s = .error e s' ∧
      ∀ second : Look Bytes, ∃ t, release second s' = .ok [(.string, [[torso], [torso]])] t := by
  have hrun :
      (collectAll { outputs := [(.string, [[], []])], sharder := stray } oneName).toOption.any
      (breaksOff [(.string, [[torso], [torso]])]) = true := by
    decide +kernel
  cases hds : collectAll { outputs := [(.string, [[], []])], sharder := stray } oneName with
  | error e =>
      rw [hds] at hrun
      cases hrun
  | ok s =>
      rw [hds] at hrun
      change breaksOff _ s = true at hrun
      unfold breaksOff at hrun
      cases hclose : close (fun _ => .error .notFound) s with
      | ok v t =>
          rw [hclose] at hrun
          cases hrun
      | error e s' =>
          rw [hclose] at hrun
          obtain ⟨hvalues, houtputs⟩ := (Bool.and_eq_true _ _).mp hrun
          obtain ⟨-, -, -, -, hnext⟩ := release_of_close_error hclose
          have hnone : s'.values = [] := List.isEmpty_iff.1 hvalues
          rw [storeHoldings_of_no_values hnone] at hnext
          refine ⟨s, e, s', rfl, hclose, fun second => ?_⟩
          have hreleased : release second s' = .ok s'.outputs _ := hnext second
          rw [of_decide_eq_true houtputs] at hreleased
          exact ⟨_, hreleased⟩

end Session

end ResourceShards
