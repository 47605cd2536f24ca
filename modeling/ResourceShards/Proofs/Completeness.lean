import ResourceShards.Proofs.Archive.Collecting
import ResourceShards.Proofs.Archive.Reclosing
import ResourceShards.Proofs.Causes
import ResourceShards.Proofs.Listing.ArrivalOrder
import ResourceShards.Proofs.Pipeline.Progress

/-!
# ResourceShards.Proofs.Completeness

**Whether a run that ends well has done everything.** A run that nobody cancels has: its set holds
what every file yields, and every delivery has reached the session before it is closed. A run that
somebody cancels ends well just the same, whatever it got to see until then; if it is cancelled
before it begins, that may be nothing at all.

* `ResourceSet.Returns`, `Archiver.Returns`: how a run can end well, whoever cancels it
* `ResourceSet.returns_of_ofFiles`, `Archiver.returns_of_archive`: listing and archiving are runs
* `ResourceSet.interleaves_of_returns`, `Archiver.interleaves_of_returns`: runs nobody cancels
* `ResourceSet.returns_nothing`, `Archiver.returns_nothing`: runs that are cancelled
* `returns_complete_iff`: when a run that ends well has done everything
-/

namespace ResourceShards

/-! ### Listing -/

namespace ResourceSet

/-- The run over some sources, as it begins. -/
def network (label : String) (workers : Nat) (sources : List Source) :
    Network Resource (List Resource) :=
  Network.fanOut workers (sources.map (job label)) [] []

/-- A run over some sources can end well with a set; `cancelled` tells whether somebody cancelled
it, before it began or at any time until it ended. -/
def Returns (label package : String) (workers : Nat) (sources : List Source) (cancelled : Bool)
    (set : ResourceSet) : Prop :=
  ∃ items after, Network.Delivers Network.keep (network label workers sources) items after ∧
    after.outcome? = some (.ok ()) ∧ after.cancelled = cancelled ∧
    set = ofResources package after.state.reverse

theorem yields_job (label : String) (source : Source) :
    (job label source).yields = yields label source :=
  Job.yields_ofTrace _ _

theorem map_yields_job (label : String) (sources : List Source) :
    (sources.map (job label)).map Job.yields = sources.map (yields label) := by
  rw [List.map_map]
  exact List.map_congr_left fun source _ => yields_job label source

/-- No `job` of a listing tells its worker to `stop`. -/
theorem endings_ne_stop (label : String) (sources : List Source) :
    ∀ job' ∈ sources.map (job label), job'.ending ≠ .stop :=
  List.forall_mem_map.2 fun source _ => ending_job_ne_stop label source

theorem mem_ofResources {package : String} {resources : List Resource} {r : Resource} :
    r ∈ (ofResources package resources).resources ↔ r ∈ resources :=
  (List.mergeSort_perm resources nameLe).mem_iff

/-- What `ofFiles` comes to is what a run without a cancellation `Returns`. -/
theorem returns_of_ofFiles {label package : String} {workers : Nat} {sources : List Source}
    {set : ResourceSet} (h : ofFiles label package workers sources = .ok set) :
    Returns label package workers sources false set := by
  obtain ⟨items, hrun, hended, hgood⟩ :=
    Network.exists_delivers_run Network.keep workers (sources.map (job label)) [] []
  unfold ofFiles Network.gather Network.result at h
  cases houtcome : ((Network.fanOut workers (sources.map (job label)) [] []).run
      Network.keep).outcome? with
  | none =>
      rw [houtcome] at hended
      cases hended
  | some outcome =>
      cases outcome with
      | error e =>
          rw [houtcome] at h
          cases h
      | ok u =>
          rw [houtcome] at h
          cases h
          exact ⟨items, _, hrun, houtcome, hgood houtcome, rfl⟩

/-- A run without a cancellation `Returns` only what `Interleaves` all that the files yield, and
only if every file is listed without a failure. -/
theorem interleaves_of_returns {label package : String} {workers : Nat} {sources : List Source}
    {set : ResourceSet} (h : Returns label package workers sources false set) :
    (∃ arrived, Interleaves (sources.map (yields label)) arrived ∧
      set = ofResources package arrived) ∧
      ∀ source ∈ sources, (Listing.ofFile label source.1 source.2).2 = .ok () := by
  obtain ⟨items, after, hrun, hended, huncancelled, rfl⟩ := h
  obtain ⟨hdrawn, hdone⟩ :=
    hrun.drawn_fanOut (endings_ne_stop label sources) hended huncancelled
  constructor
  · refine ⟨items, ?_, ?_⟩
    · rw [map_yields_job] at hdrawn
      exact hdrawn.of_cons_nil.interleaves
    · rw [Network.state_of_keep (hrun.state hended)]
      simp [network, Network.fanOut]
  · intro source hsource
    exact Job.ending_ofTrace_eq_done.1 (hdone _ (List.mem_map_of_mem hsource))

/-- A run that is cancelled before it begins `Returns` a set of nothing, among others. -/
theorem returns_nothing (label package : String) (workers : Nat) (sources : List Source) :
    Returns label package workers sources true ⟨package, []⟩ := by
  have hopen : (network label workers sources).outcome? = none := rfl
  obtain ⟨after, hrun, hended, hcancelled, hstate⟩ :=
    Network.exists_delivers_nothing Network.keep hopen rfl
  refine ⟨[], after, hrun, hended, hcancelled, ?_⟩
  have hnone : after.state = [] := hstate
  simp [hnone, ofResources]

end ResourceSet

/-! ### Archiving -/

namespace Archiver

open Session (accept)

/-- A run over some files can end well, with some deliveries handed to the session before it is
closed; `cancelled` tells whether somebody cancelled the run, before it began or at any time until
all lanes were closed. -/
def Returns (look : Look Bytes) (workers : Nat) (files : List ResourceFile) (s : Session)
    (cancelled : Bool) (reached : List Delivery) (closed : Session) : Prop :=
  ∃ after, Network.Delivers accept (network look workers files s) reached after ∧
    after.outcome? = some (.ok ()) ∧ after.cancelled = cancelled ∧
    Session.close look after.state = .ok () closed

/-- What a run over some files has to hand over: each of those that are resources, and what each of
the values files yields. -/
def deliveries (look : Look Bytes) (files : List ResourceFile) : List (List Delivery) :=
  (files.filter fun file => !file.isValues).map .file ::
    (files.filter ResourceFile.isValues).map fun file => (job look file).yields

theorem network_eq (look : Look Bytes) (workers : Nat) (files : List ResourceFile) (s : Session) :
    network look workers files s =
      Network.fanOut workers ((files.filter ResourceFile.isValues).map (job look))
        ((files.filter fun file => !file.isValues).map .file) s := by
  unfold network
  rw [List.partition_eq_filter_filter]
  rfl

/-- What `archive` comes to is what a run without a cancellation `Returns`. -/
theorem returns_of_archive {look : Look Bytes} {workers : Nat} {files : List ResourceFile}
    {s closed : Session} (h : archive look workers files s = .ok () closed) :
    ∃ reached, Returns look workers files s false reached closed := by
  obtain ⟨reached, hrun, hended, hgood⟩ := Network.exists_delivers_run accept workers
    ((files.filter ResourceFile.isValues).map (job look))
    ((files.filter fun file => !file.isValues).map .file) s
  rw [← network_eq] at hrun hended hgood
  unfold archive Network.result at h
  cases houtcome : ((network look workers files s).run accept).outcome? with
  | none =>
      rw [houtcome] at hended
      cases hended
  | some outcome =>
      cases outcome with
      | error e =>
          simp only [houtcome] at h
          cases h
      | ok u =>
          simp only [houtcome] at h
          exact ⟨reached, _, hrun, houtcome, hgood houtcome, Session.labelled_ok h⟩

/-- No `job` of an archiver tells its worker to `stop`. -/
theorem ending_job_ne_stop (look : Look Bytes) (file : ResourceFile) :
    (job look file).ending ≠ .stop :=
  Job.ending_ofTrace_ne_stop
    (Listening.genuine_trace fun _ hemit => Payload.genuine_ofFile hemit _ _ _)

/-- A session that accepts deliveries one after the other (`accept`) has collected them. -/
theorem collectAll_of_accept {ds : List Delivery} {s last : Session}
    (h : ds.foldlM (fun s d => accept d s) s = .ok last) : s.collectAll ds = .ok last := by
  have hcollect : ∀ {d : Delivery} {s next : Session}, accept d s = .ok next →
      s.collect d = .ok next := by
    intro d s next haccept
    cases d with
    | file file => exact haccept
    | collected source item =>
        cases item with
        | rootAttribute attr => exact haccept
        | value name payload => exact Error.eq_ok_of_labelling haccept
  induction ds generalizing s with
  | nil =>
      cases h
      rfl
  | cons d ds ih =>
      rw [List.foldlM_cons] at h
      cases hnext : accept d s with
      | error e =>
          rw [hnext] at h
          cases h
      | ok next =>
          rw [hnext] at h
          rw [Session.collectAll, hcollect hnext]
          exact ih h

/-- A run without a cancellation `Returns` only after everything was handed to the session, and only
if every values file is cut without a failure. -/
theorem interleaves_of_returns {look : Look Bytes} {workers : Nat} {files : List ResourceFile}
    {s closed : Session} {reached : List Delivery}
    (h : Returns look workers files s false reached closed) :
    Interleaves (deliveries look files) reached ∧
      (∃ last, s.collectAll reached = .ok last ∧ Session.close look last = .ok () closed) ∧
      ∀ file ∈ files, file.isValues = true → (job look file).ending = .done := by
  obtain ⟨after, hrun, hended, huncancelled, hclosed⟩ := h
  rw [network_eq] at hrun
  have hjobs : ∀ job' ∈ (files.filter ResourceFile.isValues).map (job look),
      job'.ending ≠ .stop := by
    intro job' hjob
    obtain ⟨file, -, rfl⟩ := List.mem_map.1 hjob
    exact ending_job_ne_stop look file
  obtain ⟨hdrawn, hdone⟩ := hrun.drawn_fanOut hjobs hended huncancelled
  refine ⟨?_, ⟨after.state, collectAll_of_accept (hrun.state hended), hclosed⟩, ?_⟩
  · rw [List.map_map, Multiset.cons_coe] at hdrawn
    exact hdrawn.interleaves
  · intro file hfile hvalues
    exact hdone _ (List.mem_map_of_mem (List.mem_filter.2 ⟨hfile, hvalues⟩))

/-- A run over a new session that is cancelled before it begins `Returns` a closed session of
nothing, among others. -/
theorem returns_nothing (look : Look Bytes) (workers : Nat) (files : List ResourceFile)
    (outputs : Outputs) (sharder : Sharder) (order : DeclarationOrder) :
    ∃ closed, Returns look workers files { outputs, sharder, order } true [] closed ∧
      closed.finished? = some outputs := by
  let s : Session := { outputs, sharder, order }
  have hopen : (network look workers files s).outcome? = none := rfl
  obtain ⟨after, hrun, hended, hcancelled, hstate⟩ :=
    Network.exists_delivers_nothing accept hopen rfl
  have hnew : after.state = s := hstate
  have hclosed : Session.close look s = .ok () s.finish :=
    Session.close_of_no_files rfl rfl (Session.storeHoldings_of_no_values rfl) look
  refine ⟨s.finish, ⟨after, hrun, hended, hcancelled, ?_⟩, rfl⟩
  rw [hnew]
  exact hclosed

end Archiver

/-- **When a run that ends well has done everything.** A set that `ResourceSet.Returns` without a
cancellation holds what every source yields, and a session that `Archiver.Returns` has received
every delivery before it was closed. Of runs that may be cancelled both are true only where there is
nothing to do. -/
theorem returns_complete_iff (label package : String) (workers : Nat)
    (sources : List ResourceSet.Source) (look : Look Bytes) (files : List ResourceFile)
    (outputs : Outputs) (sharder : Sharder) (order : DeclarationOrder) :
    ((∀ set, ResourceSet.Returns label package workers sources false set →
        ∀ source ∈ sources, ∀ r ∈ ResourceSet.yields label source, r ∈ set.resources) ∧
      ((∀ cancelled set, ResourceSet.Returns label package workers sources cancelled set →
          ∀ source ∈ sources, ∀ r ∈ ResourceSet.yields label source, r ∈ set.resources) ↔
        ∀ source ∈ sources, ResourceSet.yields label source = [])) ∧
    (∀ reached closed,
        Archiver.Returns look workers files { outputs, sharder, order } false reached closed →
        ∀ ds ∈ Archiver.deliveries look files, ∀ d ∈ ds, d ∈ reached) ∧
      ((∀ cancelled reached closed,
          Archiver.Returns look workers files { outputs, sharder, order } cancelled reached closed →
          ∀ ds ∈ Archiver.deliveries look files, ∀ d ∈ ds, d ∈ reached) ↔
        ∀ ds ∈ Archiver.deliveries look files, ds = []) := by
  refine ⟨⟨?_, ?_⟩, ?_, ?_⟩
  · intro set hset source hsource r hr
    obtain ⟨⟨arrived, hinterleaves, rfl⟩, -⟩ := ResourceSet.interleaves_of_returns hset
    exact ResourceSet.mem_ofResources.2
      (hinterleaves.mem (List.mem_map_of_mem hsource) hr)
  · constructor
    · intro hall source hsource
      have hnone := hall true _ (ResourceSet.returns_nothing label package workers sources) source
        hsource
      exact List.eq_nil_iff_forall_not_mem.2 fun r hr => List.not_mem_nil (hnone r hr)
    · intro hnothing cancelled set _ source hsource r hr
      rw [hnothing source hsource] at hr
      cases hr
  · intro reached closed hreached ds hds d hd
    exact (Archiver.interleaves_of_returns hreached).1.mem hds hd
  · constructor
    · intro hall ds hds
      obtain ⟨closed, hreturns, -⟩ :=
        Archiver.returns_nothing look workers files outputs sharder order
      have hnone := hall true [] closed hreturns ds hds
      exact List.eq_nil_iff_forall_not_mem.2 fun d hd => List.not_mem_nil (hnone d hd)
    · intro hnothing cancelled reached closed _ ds hds d hd
      rw [hnothing ds hds] at hd
      cases hd

end ResourceShards
