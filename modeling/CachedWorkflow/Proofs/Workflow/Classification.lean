import CachedWorkflow.Proofs.Workflow.Needs

/-!
# Proofs: which jobs can be sorted, and make a graph

The jobs of a document are sorted by kind if each of them can be by itself (`exists_classified_iff`), and
those with steps make a graph if all that they need is there and none of them needs itself
(`exists_graph_iff`). Neither depends on the order of the jobs.
-/

namespace CachedWorkflow

variable {config : Configuration} {jobs jobs' : Object} {found found' : Classified}

/-- A job that can be sorted by kind: its name is usable and not that of the initialization job, it is an
object, and if it has steps, its settings can be read. -/
def IsClassifiable (config : Configuration) (entry : Text × Json) : Prop :=
  validateJobId entry.1 = .ok () ∧ entry.1 ≠ config.initJobId ∧
    ∃ fields, entry.2 = .object fields ∧ (Object.contains fields "steps" = true →
      ∃ settings, JobSettings.ofJob entry.1 fields = .ok settings)

theorem exists_classify_eq_ok_iff {entry : Text × Json} :
    (∃ found', classify config found entry = .ok found') ↔ IsClassifiable config entry := by
  simp only [classify_eq_ok_iff]
  constructor
  · rintro ⟨found', ⟨hvalid, hinit, hsteps, hsettings⟩ | ⟨hvalid, hinit, hsteps⟩⟩
    · exact ⟨hvalid, hinit, _, rfl, fun _ => ⟨_, hsettings⟩⟩
    · exact ⟨hvalid, hinit, _, rfl, fun htrue => absurd htrue (Bool.eq_false_iff.mp hsteps)⟩
  · obtain ⟨name, job⟩ := entry
    rintro ⟨hvalid, hinit, fields, rfl, hsettings⟩
    cases hsteps : Object.contains fields "steps" with
    | true =>
      obtain ⟨settings, hsettings⟩ := hsettings hsteps
      exact ⟨_, .pipeline hvalid hinit hsteps hsettings⟩
    | false => exact ⟨_, .passthrough hvalid hinit hsteps⟩

theorem exists_classified_iff : (∃ found, jobs.foldlM (classify config) {} = .ok found) ↔
    ∀ entry ∈ jobs, IsClassifiable config entry := by
  have hstep : ∀ found entry, (∃ found', classify config found entry = .ok found') ↔
      IsClassifiable config entry := fun _ _ => exists_classify_eq_ok_iff
  exact exists_foldlM_eq_ok_iff hstep

/-- No job is lost when the jobs are sorted. -/
theorem mem_of_classified (hfound : jobs.foldlM (classify config) {} = .ok found) :
    ∀ name ∈ jobs.keys, name ∈ found.pipeline.map Job.name ∨ name ∈ found.passthrough := by
  refine foldlM_induction (motive := fun seen b => ∀ name ∈ Object.keys seen,
    name ∈ b.pipeline.map Job.name ∨ name ∈ b.passthrough) hfound (by simp [Object.keys])
    fun seen entry rest before after _ hseen hstep => ?_
  rw [Object.keys_append, List.forall_mem_append]
  cases classify_eq_ok_iff.mp hstep with
  | pipeline _ _ _ _ =>
    rw [List.map_append]
    exact ⟨fun n hn => (hseen n hn).imp_left (List.mem_append_left _),
      fun n hn => .inl (List.mem_append_right _ hn)⟩
  | passthrough _ _ _ =>
    exact ⟨fun n hn => (hseen n hn).imp_right (List.mem_append_left _),
      fun n hn => .inr (List.mem_append_right _ hn)⟩

/-- To jobs that have been sorted, the unknown needs are those that name no job. -/
theorem hasUnknown_iff (hfound : jobs.foldlM (classify config) {} = .ok found) :
    HasUnknown found.pipeline found.passthrough ↔
      ∃ job ∈ found.pipeline, ∃ need ∈ job.settings.needs, need ∉ jobs.keys := by
  have hsorts := sorts_of_foldlM hfound
  have hknown : ∀ need, IsUnknown found.pipeline found.passthrough need ↔ need ∉ jobs.keys := by
    intro need
    rw [IsUnknown, ← not_or, not_iff_not]
    exact ⟨fun h => h.elim (fun hmem => hsorts.sublist.subset hmem) (hsorts.passthrough need),
      mem_of_classified hfound need⟩
  simp only [HasUnknown, hknown]

/-- Jobs that have been sorted make a graph if those with steps need jobs that are there, and none of them
needs itself through others. -/
theorem exists_graph_iff (hfound : jobs.foldlM (classify config) {} = .ok found) (hd : jobs.Distinct) :
    (∃ graph, JobGraph.ofJobs found.pipeline found.passthrough = .ok graph) ↔
      (∀ job ∈ found.pipeline, ∀ need ∈ job.settings.needs, need ∈ jobs.keys) ∧
        ¬ HasCycle found.pipeline := by
  have hsorts := sorts_of_foldlM hfound
  rw [JobGraph.exists_ofJobs_eq_ok_iff, exists_topological_iff (hsorts.nodup hd), hasUnknown_iff hfound]
  simp only [not_exists, not_and, not_not]

/-- The pipeline jobs do not depend on the order of the jobs. -/
theorem pipeline_perm (hd : jobs.Distinct) (hperm : jobs.Perm jobs')
    (hfound : jobs.foldlM (classify config) {} = .ok found)
    (hfound' : jobs'.foldlM (classify config) {} = .ok found') : found.pipeline.Perm found'.pipeline := by
  have hd' : Object.Distinct jobs' := (hperm.map Prod.fst).nodup_iff.mp hd
  have hsorts := sorts_of_foldlM hfound
  have hsorts' := sorts_of_foldlM hfound'
  refine (List.perm_ext_iff_of_nodup (hsorts.nodup hd).of_map (hsorts'.nodup hd').of_map).mpr fun job => ?_
  simp only [hsorts.mem_pipeline job, hsorts'.mem_pipeline job, hperm.mem_iff]

end CachedWorkflow
