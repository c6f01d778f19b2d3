import CachedWorkflow.Proofs.Job.Decision

/-!
# Proofs: the order of declaration

Positions, roots of the search and the order that it finds all change when jobs are declared in another
order. What a graph answers about a name does not: it is a matter of the job that owns the name
(`owner?`), which is the same in every order. So graphs of the same jobs answer alike
(`reordered_of_ofJobs`). Whether they have a cycle is a matter of their jobs as well (`hasCycle_perm`).
-/

namespace CachedWorkflow

variable {jobs jobs' : List Job} {passthrough passthrough' : List Text} {name : Text}

/-! ## Owners -/

/-- The job that owns the name. -/
def owner? (jobs : List Job) (name : Text) : Option Job := (ownerOf jobs name).bind fun i => jobs[i]?

/-- Among jobs with distinct names a name belongs to the job that has it. -/
theorem owner?_eq_some_iff (hnames : (jobs.map Job.name).Nodup) {job : Job} :
    owner? jobs name = some job ↔ job ∈ jobs ∧ job.name = name := by
  rw [owner?, Option.bind_eq_some_iff]
  constructor
  · rintro ⟨i, howner, hjob⟩
    obtain ⟨job', hjob', hname⟩ := ownerOf_eq_some howner
    obtain rfl := Option.some.inj (hjob'.symm.trans hjob)
    exact ⟨List.mem_of_getElem? hjob, hname⟩
  · rintro ⟨hjob, rfl⟩
    obtain ⟨i, hi⟩ := List.mem_iff_getElem?.mp hjob
    exact ⟨i, ownerOf_name hnames hi, hi⟩

theorem owner?_perm (hnames : (jobs.map Job.name).Nodup) (hperm : jobs.Perm jobs') :
    owner? jobs = owner? jobs' := by
  have hnames' : (jobs'.map Job.name).Nodup := (hperm.map Job.name).nodup_iff.mp hnames
  funext name
  refine Option.ext fun job => ?_
  rw [owner?_eq_some_iff hnames, owner?_eq_some_iff hnames', hperm.mem_iff]

/-- An owner of the name stands at its position. -/
theorem map_owner? {α : Type} (f : Job → α) :
    (owner? jobs name).map f = (ownerOf jobs name).bind fun i => (jobs[i]?).map f := by
  rw [owner?, Option.map_bind]
  rfl

theorem isSome_owner? : (owner? jobs name).isSome = (ownerOf jobs name).isSome := by
  cases howner : ownerOf jobs name with
  | none => rw [owner?, howner]; rfl
  | some i =>
    obtain ⟨job, hjob, -⟩ := ownerOf_eq_some howner
    rw [owner?, howner, Option.bind_some, hjob]
    rfl

namespace JobGraph

variable {graph graph' : JobGraph}

theorem get?_eq_map_owner? : graph.get? name = (owner? graph.jobs name).map Job.settings :=
  (map_owner? Job.settings).symm

theorem contains_eq_isSome_owner? : graph.contains name = (owner? graph.jobs name).isSome :=
  isSome_owner?.symm

/-- The needs of a job in the graph are the owners of its declared needs. -/
theorem Built.pipelineNeeds_eq (h : graph.Built passthrough) : graph.pipelineNeeds name
    = (owner? graph.jobs name).elim [] fun job => job.settings.needs.filterMap (owner? graph.jobs) := by
  rw [pipelineNeeds, owner?]
  cases howner : ownerOf graph.jobs name with
  | none => rfl
  | some i =>
    obtain ⟨job, hjob, -⟩ := ownerOf_eq_some howner
    simp only [Option.bind_some, hjob, Option.elim_some, h.dependenciesOf_eq hjob, List.filterMap_filterMap]
    rfl

/-! ## Graphs of the same jobs -/

/-- Two graphs answer alike, apart from the order in which they list their jobs. -/
structure Reordered (graph graph' : JobGraph) : Prop where
  perm : graph.jobs.Perm graph'.jobs
  contains : ∀ name, graph.contains name = graph'.contains name
  get? : ∀ name, graph.get? name = graph'.get? name
  pipelineNeeds : ∀ name, graph.pipelineNeeds name = graph'.pipelineNeeds name
  isForced : ∀ name, graph.isForced name = graph'.isForced name

theorem isForced_of_not_contains (h : graph.contains name = false) : graph.isForced name = false := by
  have hnone : ownerOf graph.jobs name = none := by simpa [contains] using h
  rw [isForced, hnone]
  rfl

/-- Force comes from the same jobs in every order. -/
theorem Built.isForced_perm (h : graph.Built passthrough) (h' : graph'.Built passthrough')
    (hnames : (graph.jobs.map Job.name).Nodup) (hperm : graph.jobs.Perm graph'.jobs)
    (hneeds : ∀ name, graph.pipelineNeeds name = graph'.pipelineNeeds name) :
    ∀ job ∈ graph.jobs, graph.isForced job.name = graph'.isForced job.name := by
  have hnames' : (graph'.jobs.map Job.name).Nodup := (hperm.map Job.name).nodup_iff.mp hnames
  refine h.induction_on_needs hnames fun job hjob ih => ?_
  rw [Bool.eq_iff_iff, h.isForced_iff hnames hjob, h'.isForced_iff hnames' (hperm.mem_iff.mp hjob),
    ← hneeds]
  refine or_congr_right (exists_congr fun d => and_congr_right fun hd => ?_)
  rw [ih d hd]

theorem reordered_of_ofJobs (hnames : (jobs.map Job.name).Nodup) (hperm : jobs.Perm jobs')
    (h : ofJobs jobs passthrough = .ok graph) (h' : ofJobs jobs' passthrough' = .ok graph') :
    Reordered graph graph' := by
  obtain ⟨rfl, hbuilt⟩ := built_of_ofJobs h
  obtain ⟨rfl, hbuilt'⟩ := built_of_ofJobs h'
  have howner := owner?_perm hnames hperm
  have hcontains : ∀ name, graph.contains name = graph'.contains name := by
    intro name
    rw [contains_eq_isSome_owner?, contains_eq_isSome_owner?, howner]
  have hneeds : ∀ name, graph.pipelineNeeds name = graph'.pipelineNeeds name := by
    intro name
    rw [hbuilt.pipelineNeeds_eq, hbuilt'.pipelineNeeds_eq, howner]
  refine ⟨hperm, hcontains, fun name => ?_, hneeds, fun name => ?_⟩
  · rw [get?_eq_map_owner?, get?_eq_map_owner?, howner]
  · cases hname : graph.contains name with
    | true =>
      obtain ⟨job, hjob, rfl⟩ := contains_iff.mp hname
      exact hbuilt.isForced_perm hbuilt' hnames hperm hneeds job hjob
    | false =>
      rw [isForced_of_not_contains hname, isForced_of_not_contains ((hcontains name).symm.trans hname)]

end JobGraph

/-! ## Building -/

theorem needs_perm (hperm : jobs.Perm jobs') {a b : Text} : Needs jobs a b ↔ Needs jobs' a b := by
  simp only [Needs, hperm.mem_iff, (hperm.map Job.name).mem_iff]

theorem hasCycle_perm (hperm : jobs.Perm jobs') : HasCycle jobs ↔ HasCycle jobs' := by
  have heq : Needs jobs = Needs jobs' := funext₂ fun a b => propext (needs_perm hperm)
  rw [HasCycle, HasCycle, heq]

end CachedWorkflow
