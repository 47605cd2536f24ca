import ResourceShards.Proofs.Completeness
import ResourceShards.Proofs.Pipeline.Gathering

/-!
# ResourceShards.Proofs.Listing.Stages

**Listing files, thread by thread.** In whatever order the threads of a listing proceed, and however
many workers there are: if every file can be listed, what the consumer returns is everything that
the files hand out; if one cannot, it returns the failure of such a file, and the run is cancelled.

* `ResourceSet.stages`: the threads of a listing as they begin
* `ResourceSet.returned_of_stages`: what the consumer returns
* `ResourceSet.exists_runs_ofFiles`: listing some files comes to what the consumer can return
-/

namespace ResourceShards

theorem Job.ending_ofTrace_eq_failed {α : Type} {items : List α} {outcome : Except Error Unit}
    {e : Error} (h : (Job.ofTrace (items, outcome)).ending = .failed e) : outcome = .error e := by
  cases outcome with
  | ok u => cases h
  | error e' =>
      cases hcancelled : e'.isCancelled with
      | true => simp [Job.ofTrace, hcancelled] at h
      | false =>
          simp only [Job.ofTrace, hcancelled, Bool.false_eq_true, if_false,
            Ending.failed.injEq] at h
          rw [h]

namespace ResourceSet

/-- The threads of a listing as they begin. -/
def stages (label : String) (workers : Nat) (sources : List Source) : Pipeline Resource :=
  .ofJobs workers (sources.map (job label))

/-- What listing some files comes to is made of what its threads can return. -/
theorem exists_runs_ofFiles (label package : String) (workers : Nat) (sources : List Source) :
    ∃ last r, (stages label workers sources).Runs last ∧ last.returned? = some r ∧
      ofFiles label package workers sources = r.map (ofResources package) := by
  obtain ⟨last, hruns, hreturned⟩ :=
    Pipeline.exists_runs_gather workers (sources.map (job label))
  exact ⟨last, _, hruns, hreturned, rfl⟩

/-- **What the stages return.** Whenever the consumer of `stages` returns, it returns an
interleaving of what the sources yield if `Listing.ofFile` succeeds for every source. Otherwise it
returns the failure of a source that can not be listed, and the run is cancelled. -/
theorem returned_of_stages {label : String} {workers : Nat} {sources : List Source}
    {last : Pipeline Resource} {r : Except Error (List Resource)}
    (hruns : (stages label workers sources).Runs last) (hreturned : last.returned? = some r) :
    ((∀ source ∈ sources, (Listing.ofFile label source.1 source.2).2 = .ok ()) →
      ∃ arrived, r = .ok arrived ∧ Interleaves (sources.map (yields label)) arrived) ∧
    ((∃ source ∈ sources, ∃ e, (Listing.ofFile label source.1 source.2).2 = .error e) →
      last.cancelled = true ∧ ∃ source ∈ sources, ∃ e,
        (Listing.ofFile label source.1 source.2).2 = .error e ∧ r = .error e) := by
  cases r with
  | ok arrived =>
      obtain ⟨hinterleaves, hdone⟩ :=
        hruns.returned_ok (endings_ne_stop label sources) hreturned
      constructor
      · intro _
        rw [map_yields_job] at hinterleaves
        exact ⟨arrived, rfl, hinterleaves⟩
      · rintro ⟨source, hsource, e, herror⟩
        have hok : (Listing.ofFile label source.1 source.2).2 = .ok () :=
          Job.ending_ofTrace_eq_done.1 (hdone _ (List.mem_map_of_mem hsource))
        rw [herror] at hok
        cases hok
  | error e =>
      obtain ⟨hcancelled, job', hjob, hending⟩ := hruns.returned_error hreturned
      obtain ⟨source, hsource, rfl⟩ := List.mem_map.1 hjob
      have herror : (Listing.ofFile label source.1 source.2).2 = .error e :=
        Job.ending_ofTrace_eq_failed hending
      constructor
      · intro hall
        rw [hall source hsource] at herror
        cases herror
      · intro _
        exact ⟨hcancelled, source, hsource, e, herror, rfl⟩

/-- Two workers for two files; the second file can be listed, or it is missing. -/
theorem returned_of_stages_two :
    let good := [styleableSource "a.xml" "a", styleableSource "b.xml" "b"]
    let bad : List Source := [styleableSource "a.xml" "a",
      ((styleableSource "b.xml" "b").1, .looked (.error .notFound))]
    (∃ last r, (stages "" 2 good).Runs last ∧ last.returned? = some r ∧
      ∃ arrived, r = .ok arrived ∧
        Interleaves [styleableResources "a", styleableResources "b"] arrived) ∧
    ∃ last r, (stages "" 2 bad).Runs last ∧ last.returned? = some r ∧
      last.cancelled = true ∧ ∃ source ∈ bad, ∃ e,
        (Listing.ofFile "" source.1 source.2).2 = .error e ∧ r = .error e := by
  intro good bad
  have hgood : ∀ source ∈ good, (Listing.ofFile "" source.1 source.2).2 = .ok () := by
    decide +kernel
  have hlists : good.map (yields "") = [styleableResources "a", styleableResources "b"] := by
    decide +kernel
  have hbad : ∃ source ∈ bad, ∃ e, (Listing.ofFile "" source.1 source.2).2 = .error e :=
    ⟨_, .tail _ (.head _), _, rfl⟩
  obtain ⟨last, r, hruns, hreturned, -⟩ := exists_runs_ofFiles "" "p" 2 good
  obtain ⟨last', r', hruns', hreturned', -⟩ := exists_runs_ofFiles "" "p" 2 bad
  refine ⟨⟨last, r, hruns, hreturned, ?_⟩, last', r', hruns', hreturned', ?_⟩
  · obtain ⟨arrived, hr, harrived⟩ := (returned_of_stages hruns hreturned).1 hgood
    rw [hlists] at harrived
    exact ⟨arrived, hr, harrived⟩
  · exact (returned_of_stages hruns' hreturned').2 hbad

end ResourceSet

end ResourceShards
