import CachedWorkflow.Job.KeyScript
import CachedWorkflow.Proofs.Job.Graph

/-!
# Proofs: a job with other key inputs

The key inputs of a job are its paths and its extra key. A graph is built without looking at them
(`ofJobs_rekeyed`), so that with other key inputs of one job it answers as before. The key script then
differs in one assignment (`exists_keyAssignments_rekeyed`).
-/

namespace CachedWorkflow

/-- The settings with other key inputs. -/
def JobSettings.withKeyInputs (settings : JobSettings) (paths : List Text) (extraKey : Text) : JobSettings :=
  { settings with paths, extraKey }

/-- The job with other key inputs, if it has this name. -/
def Job.rekeyed (name : Text) (paths : List Text) (extraKey : Text) (job : Job) : Job :=
  if job.name = name then { job with settings := job.settings.withKeyInputs paths extraKey } else job

/-- The graph with other key inputs of the jobs with this name. -/
def JobGraph.rekeyed (name : Text) (paths : List Text) (extraKey : Text) (graph : JobGraph) : JobGraph :=
  { graph with jobs := graph.jobs.map (Job.rekeyed name paths extraKey) }

variable {name : Text} {paths : List Text} {extraKey : Text}

/-! ## Jobs -/

namespace Job

theorem rekeyed_self {job : Job} (h : job.name = name) : job.rekeyed name paths extraKey
    = { job with settings := job.settings.withKeyInputs paths extraKey } := if_pos h

theorem rekeyed_of_ne {job : Job} (h : job.name ≠ name) : job.rekeyed name paths extraKey = job := if_neg h

@[simp] theorem name_rekeyed (job : Job) : (job.rekeyed name paths extraKey).name = job.name := by
  unfold rekeyed
  split <;> rfl

@[simp] theorem needs_rekeyed (job : Job) :
    (job.rekeyed name paths extraKey).settings.needs = job.settings.needs := by
  unfold rekeyed
  split <;> rfl

@[simp] theorem force_rekeyed (job : Job) :
    (job.rekeyed name paths extraKey).settings.force = job.settings.force := by
  unfold rekeyed
  split <;> rfl

@[simp] theorem outputs_rekeyed (job : Job) :
    (job.rekeyed name paths extraKey).settings.outputs = job.settings.outputs := by
  unfold rekeyed
  split <;> rfl

@[simp] theorem outputPaths_rekeyed (job : Job) :
    (job.rekeyed name paths extraKey).settings.outputPaths = job.settings.outputPaths := by
  unfold rekeyed
  split <;> rfl

end Job

/-! ## Graphs -/

theorem lastIndex?_map {α β : Type} (p : β → Bool) (f : α → β) (l : List α) :
    lastIndex? p (l.map f) = lastIndex? (fun a => p (f a)) l := by
  induction l with
  | nil => rfl
  | cons a rest ih => rw [List.map_cons, lastIndex?, lastIndex?, ih]

/-- Names keep their owners. -/
theorem ownerOf_rekeyed (jobs : List Job) (other : Text) :
    ownerOf (jobs.map (Job.rekeyed name paths extraKey)) other = ownerOf jobs other := by
  rw [ownerOf, lastIndex?_map]
  simp only [Job.name_rekeyed]
  rfl

theorem resolveNeeds_rekeyed (jobs : List Job) (passthrough : List Text) (job : Text) (needs : List Text) :
    resolveNeeds (jobs.map (Job.rekeyed name paths extraKey)) passthrough job needs
      = resolveNeeds jobs passthrough job needs := by
  induction needs with
  | nil => rfl
  | cons need rest ih => rw [resolveNeeds, resolveNeeds, ownerOf_rekeyed, ih]

theorem nameAt_rekeyed (jobs : List Job) (i : Nat) :
    nameAt (jobs.map (Job.rekeyed name paths extraKey)) i = nameAt jobs i := by
  rw [nameAt, nameAt, List.getElem?_map]
  cases jobs[i]? with
  | none => rfl
  | some job => simp

theorem spreadForce_rekeyed (jobs : List Job) (dependencies : List (List Nat)) :
    spreadForce (jobs.map (Job.rekeyed name paths extraKey)) dependencies
      = spreadForce jobs dependencies := by
  funext forced i
  have hforce : (jobs.map (Job.rekeyed name paths extraKey))[i]?.any (·.settings.force)
      = jobs[i]?.any (·.settings.force) := by
    rw [List.getElem?_map]
    cases jobs[i]? with
    | none => rfl
    | some job => simp
  rw [spreadForce, spreadForce, hforce]

namespace JobGraph

/-- A graph is built in the same way whatever the key inputs are, or fails to be built for the same
reason. -/
theorem ofJobs_rekeyed (jobs : List Job) (passthrough : List Text) :
    ofJobs (jobs.map (Job.rekeyed name paths extraKey)) passthrough
      = (ofJobs jobs passthrough).map (JobGraph.rekeyed name paths extraKey) := by
  have hneeds : ((jobs.map (Job.rekeyed name paths extraKey)).mapM fun job =>
        resolveNeeds (jobs.map (Job.rekeyed name paths extraKey)) passthrough job.name job.settings.needs)
      = jobs.mapM fun job => resolveNeeds jobs passthrough job.name job.settings.needs := by
    rw [List.mapM_map]
    refine congrArg (List.mapM · jobs) (funext fun job => ?_)
    simp only [Function.comp, Job.name_rekeyed, Job.needs_rekeyed, resolveNeeds_rekeyed]
  have hnames : nameAt (jobs.map (Job.rekeyed name paths extraKey)) = nameAt jobs :=
    funext (nameAt_rekeyed jobs)
  rw [ofJobs, ofJobs, hneeds]
  cases jobs.mapM fun job => resolveNeeds jobs passthrough job.name job.settings.needs with
  | error e => rfl
  | ok dependencies =>
    simp only [bind, Except.bind]
    cases Order.topological dependencies with
    | error cycle => simp only [hnames]; rfl
    | ok order => simp only [spreadForce_rekeyed]; rfl

variable (graph : JobGraph)

theorem contains_rekeyed (other : Text) :
    (graph.rekeyed name paths extraKey).contains other = graph.contains other := by
  rw [contains, contains, rekeyed, ownerOf_rekeyed]

theorem isForced_rekeyed (other : Text) :
    (graph.rekeyed name paths extraKey).isForced other = graph.isForced other := by
  rw [isForced, isForced, rekeyed, ownerOf_rekeyed]

theorem isEmpty_rekeyed : (graph.rekeyed name paths extraKey).isEmpty = graph.isEmpty := by
  rw [isEmpty, isEmpty, rekeyed, List.isEmpty_map]

theorem pipelineNeeds_rekeyed (other : Text) : (graph.rekeyed name paths extraKey).pipelineNeeds other
    = (graph.pipelineNeeds other).map (Job.rekeyed name paths extraKey) := by
  rw [pipelineNeeds, pipelineNeeds, rekeyed, ownerOf_rekeyed]
  cases ownerOf graph.jobs other with
  | none => rfl
  | some i => simp only [List.map_filterMap, List.getElem?_map]

theorem map_name_pipelineNeeds_rekeyed (other : Text) :
    ((graph.rekeyed name paths extraKey).pipelineNeeds other).map Job.name
      = (graph.pipelineNeeds other).map Job.name := by
  rw [pipelineNeeds_rekeyed, List.map_map]
  exact List.map_congr_left fun job _ => Job.name_rekeyed job

theorem topological_rekeyed : (graph.rekeyed name paths extraKey).topological
    = graph.topological.map (Job.rekeyed name paths extraKey) := by
  rw [topological, topological, rekeyed]
  simp only [List.map_filterMap, List.getElem?_map]

/-- The settings of a name are those of its owner, which has the name. -/
theorem get?_rekeyed (other : Text) : (graph.rekeyed name paths extraKey).get? other
    = (graph.get? other).map fun settings =>
      if other = name then settings.withKeyInputs paths extraKey else settings := by
  rw [get?, get?, rekeyed, ownerOf_rekeyed]
  cases howner : ownerOf graph.jobs other with
  | none => rfl
  | some i =>
    obtain ⟨job, hjob, rfl⟩ := ownerOf_eq_some howner
    simp only [Option.bind_eq_bind, Option.bind_some, List.getElem?_map, hjob, Option.map_some]
    by_cases hname : job.name = name
    · rw [Job.rekeyed_self hname, if_pos hname]
    · rw [Job.rekeyed_of_ne hname, if_neg hname]

end JobGraph

/-! ## The key script -/

section

variable {graph : JobGraph}

/-- The keys of other jobs have the same suffix. -/
theorem KeySuffix.ofJob_rekeyed {other : Text} (h : other ≠ name) :
    KeySuffix.ofJob (graph.rekeyed name paths extraKey) other = KeySuffix.ofJob graph other := by
  have hget : (graph.rekeyed name paths extraKey).get? other = graph.get? other := by
    rw [JobGraph.get?_rekeyed]
    simp [h]
  rw [ofJob, ofJob, JobGraph.isForced_rekeyed, hget, JobGraph.map_name_pipelineNeeds_rekeyed]

/-- The suffix of the key of a job with these settings. -/
theorem KeySuffix.ofJob_of_get? {settings : JobSettings} (hsettings : graph.get? name = some settings) :
    KeySuffix.ofJob graph name = if graph.isForced name then .nonce
      else .hash (settings.paths.map PathPiece.ofPath) ((graph.pipelineNeeds name).map Job.name)
        settings.extraKey := by
  rw [ofJob, hsettings]

/-- The suffix of a key is made of the key inputs that the job is given. -/
theorem KeySuffix.ofJob_rekeyed_self {settings : JobSettings} (hsettings : graph.get? name = some settings) :
    KeySuffix.ofJob (graph.rekeyed name paths extraKey) name = if graph.isForced name then .nonce
      else .hash (paths.map PathPiece.ofPath) ((graph.pipelineNeeds name).map Job.name) extraKey := by
  have hget : (graph.rekeyed name paths extraKey).get? name
      = some (settings.withKeyInputs paths extraKey) := by
    rw [JobGraph.get?_rekeyed, hsettings, Option.map_some, if_pos rfl]
  rw [ofJob_of_get? hget, JobGraph.isForced_rekeyed, JobGraph.map_name_pipelineNeeds_rekeyed]
  rfl

/-- The suffix of the key of a job depends on its key inputs as they stand in it. That of a forced job does
not depend on them. -/
theorem KeySuffix.ofJob_keyInputs {settings : JobSettings} (hsettings : graph.get? name = some settings)
    (paths : List Text) (extraKey : Text) :
    (graph.isForced name = true → KeySuffix.ofJob graph name = .nonce ∧
      KeySuffix.ofJob (graph.rekeyed name paths extraKey) name = .nonce) ∧
    (graph.isForced name = false → ∃ needs,
      KeySuffix.ofJob graph name = .hash (settings.paths.map PathPiece.ofPath) needs settings.extraKey ∧
      KeySuffix.ofJob (graph.rekeyed name paths extraKey) name
        = .hash (paths.map PathPiece.ofPath) needs extraKey) := by
  rw [ofJob_of_get? hsettings, ofJob_rekeyed_self hsettings]
  refine ⟨fun hforced => ?_, fun hforced => ?_⟩
  · rw [if_pos hforced, if_pos hforced]
    exact ⟨rfl, rfl⟩
  · have hnot : ¬ graph.isForced name = true := Bool.eq_false_iff.mp hforced
    rw [if_neg hnot, if_neg hnot]
    exact ⟨_, rfl, rfl⟩

/-- With other key inputs of a job the key script has the same assignments, apart from the one of that
job. -/
theorem exists_keyAssignments_rekeyed (hnames : (graph.topological.map Job.name).Nodup) {job : Job}
    (hjob : job ∈ graph.topological) : ∃ before after,
      keyAssignments graph = before ++ ⟨job.name, KeySuffix.ofJob graph job.name⟩ :: after ∧
      ∀ paths extraKey, keyAssignments (graph.rekeyed job.name paths extraKey) = before
        ++ ⟨job.name, KeySuffix.ofJob (graph.rekeyed job.name paths extraKey) job.name⟩ :: after := by
  obtain ⟨front, back, hsplit⟩ := List.append_of_mem hjob
  have hother : ∀ other ∈ front ++ back, other.name ≠ job.name := by
    intro other hmem hname
    rw [hsplit, List.map_append, List.map_cons, List.nodup_middle, List.nodup_cons] at hnames
    rw [← List.map_append] at hnames
    exact hnames.1 (List.mem_map.mpr ⟨other, hmem, hname⟩)
  have hsame : ∀ paths extraKey, ∀ jobs : List Job, (∀ other ∈ jobs, other.name ≠ job.name) →
      jobs.map (fun other => (⟨other.name,
        KeySuffix.ofJob (graph.rekeyed job.name paths extraKey) other.name⟩ : KeyAssignment))
      = jobs.map fun other => ⟨other.name, KeySuffix.ofJob graph other.name⟩ := by
    intro paths extraKey jobs hjobs
    refine List.map_congr_left fun other hmem => ?_
    rw [KeySuffix.ofJob_rekeyed (hjobs other hmem)]
  have hfront := fun paths extraKey => hsame paths extraKey front fun other hmem =>
    hother other (List.mem_append_left _ hmem)
  have hback := fun paths extraKey => hsame paths extraKey back fun other hmem =>
    hother other (List.mem_append_right _ hmem)
  refine ⟨_, _, by rw [keyAssignments, hsplit, List.map_append, List.map_cons], fun paths extraKey => ?_⟩
  rw [keyAssignments, JobGraph.topological_rekeyed, List.map_map]
  simp only [Function.comp_def, Job.name_rekeyed]
  rw [hsplit, List.map_append, List.map_cons, hfront, hback]

end

end CachedWorkflow
