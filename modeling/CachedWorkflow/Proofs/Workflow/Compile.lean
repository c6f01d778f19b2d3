import CachedWorkflow.Proofs.Workflow.PipelineJob

/-!
# Proofs: compiled workflows

Of a document that compiles, the jobs with steps are the jobs of the graph (`Sorts`), and each of them
has its compiled form in the workflow, next to the initialization job (`compile_eq_ok`).
-/

namespace CachedWorkflow

/-! ## Settings -/

theorem mem_withoutRepeats {text : Text} {texts : List Text} :
    text ∈ withoutRepeats texts ↔ text ∈ texts := by
  induction texts with
  | nil => simp [withoutRepeats]
  | cons first rest ih =>
    rw [withoutRepeats, List.mem_cons, List.mem_cons, List.mem_filter, ih]
    by_cases h : text = first <;> simp [h]

theorem nodup_withoutRepeats (texts : List Text) : (withoutRepeats texts).Nodup := by
  induction texts with
  | nil => exact List.nodup_nil
  | cons first rest ih =>
    rw [withoutRepeats, List.nodup_cons]
    exact ⟨by simp, ih.filter _⟩

/-- The settings of a job are made of five of its properties and of its needs, each of which can be read. -/
theorem ofJob_eq_ok_iff {name : Text} {job : Object} {settings : JobSettings} :
    JobSettings.ofJob name job = .ok settings ↔ ∃ paths outputPaths extraKey force needs,
      JobSettings.property job "paths" ("jobs." ++ name) (["./"] : List Text) Json.asStrings = .ok paths ∧
      JobSettings.property job "output-paths" ("jobs." ++ name) [] Json.asStrings = .ok outputPaths ∧
      JobSettings.property job "extra-key" ("jobs." ++ name) [] Json.asString = .ok extraKey ∧
      JobSettings.property job "force" ("jobs." ++ name) false Json.asBool = .ok force ∧
      readNeeds job ("jobs." ++ name) = .ok needs ∧
      settings = {
        paths := withoutRepeats paths
        outputPaths := withoutRepeats (outputPaths ++ [outputsFile name])
        extraKey, force
        outputs := (job.get? "outputs").filter (· ≠ .null)
        needs := withoutRepeats needs } := by
  constructor
  · intro h
    obtain ⟨paths, hpaths, h⟩ := bind_eq_ok.mp h
    obtain ⟨outputPaths, houtputPaths, h⟩ := bind_eq_ok.mp h
    obtain ⟨extraKey, hextraKey, h⟩ := bind_eq_ok.mp h
    obtain ⟨force, hforce, h⟩ := bind_eq_ok.mp h
    obtain ⟨needs, hneeds, h⟩ := bind_eq_ok.mp h
    exact ⟨paths, outputPaths, extraKey, force, needs, hpaths, houtputPaths, hextraKey, hforce, hneeds,
      (Except.ok.inj h).symm⟩
  · rintro ⟨paths, outputPaths, extraKey, force, needs, hpaths, houtputPaths, hextraKey, hforce, hneeds, rfl⟩
    refine bind_eq_ok.mpr ⟨paths, hpaths, bind_eq_ok.mpr ⟨outputPaths, houtputPaths, ?_⟩⟩
    refine bind_eq_ok.mpr ⟨extraKey, hextraKey, bind_eq_ok.mpr ⟨force, hforce, ?_⟩⟩
    exact bind_eq_ok.mpr ⟨needs, hneeds, rfl⟩

/-- The outputs file of a job is among the paths that are saved. -/
theorem outputsFile_mem_outputPaths {name : Text} {job : Object} {settings : JobSettings}
    (h : JobSettings.ofJob name job = .ok settings) : outputsFile name ∈ settings.outputPaths := by
  obtain ⟨paths, outputPaths, extraKey, force, needs, -, -, -, -, -, rfl⟩ := ofJob_eq_ok_iff.mp h
  exact mem_withoutRepeats.mpr (List.mem_append_right _ (List.mem_singleton_self _))

/-- A job needs each job once. -/
theorem nodup_needs {name : Text} {job : Object} {settings : JobSettings}
    (h : JobSettings.ofJob name job = .ok settings) : settings.needs.Nodup := by
  obtain ⟨paths, outputPaths, extraKey, force, needs, -, -, -, -, -, rfl⟩ := ofJob_eq_ok_iff.mp h
  exact nodup_withoutRepeats needs

/-- A job always has something to save. -/
theorem outputPaths_ne_nil {name : Text} {job : Object} {settings : JobSettings}
    (h : JobSettings.ofJob name job = .ok settings) : settings.outputPaths ≠ [] :=
  List.ne_nil_of_mem (outputsFile_mem_outputPaths h)

/-! ## Classification -/

/-- A job whose name is usable and not that of the initialization job joins the jobs of its kind. -/
inductive Joins (config : Configuration) (found : Classified) : Text × Json → Classified → Prop where
  | pipeline {name : Text} {fields : Object} {settings : JobSettings} : validateJobId name = .ok () →
      name ≠ config.initJobId → Object.contains fields "steps" = true →
      JobSettings.ofJob name fields = .ok settings →
      Joins config found (name, .object fields) { found with pipeline := found.pipeline ++ [⟨name, settings⟩] }
  | passthrough {name : Text} {fields : Object} : validateJobId name = .ok () → name ≠ config.initJobId →
      Object.contains fields "steps" = false →
      Joins config found (name, .object fields) { found with passthrough := found.passthrough ++ [name] }

theorem classify_eq_ok_iff {config : Configuration} {found found' : Classified} {entry : Text × Json} :
    classify config found entry = .ok found' ↔ Joins config found entry found' := by
  constructor
  · intro h
    obtain ⟨name, job⟩ := entry
    obtain ⟨⟨⟩, hvalid, hkind⟩ := bind_eq_ok.mp h
    by_cases hinit : name = config.initJobId
    · rw [if_pos hinit] at hkind
      cases hkind
    · rw [if_neg hinit] at hkind
      obtain ⟨fields, hfields, hadd⟩ := bind_eq_ok.mp hkind
      obtain rfl := Json.asObject_eq_ok.mp hfields
      cases hsteps : Object.contains fields "steps" with
      | true =>
        rw [if_pos hsteps] at hadd
        obtain ⟨settings, hsettings, hfound⟩ := bind_eq_ok.mp hadd
        cases hfound
        exact .pipeline hvalid hinit hsteps hsettings
      | false =>
        rw [if_neg (Bool.eq_false_iff.mp hsteps)] at hadd
        cases hadd
        exact .passthrough hvalid hinit hsteps
  · rintro (⟨hvalid, hinit, hsteps, hsettings⟩ | ⟨hvalid, hinit, hsteps⟩)
    · refine bind_eq_ok.mpr ⟨(), hvalid, ?_⟩
      rw [if_neg hinit]
      refine bind_eq_ok.mpr ⟨_, rfl, ?_⟩
      rw [if_pos hsteps]
      exact bind_eq_ok.mpr ⟨_, hsettings, rfl⟩
    · refine bind_eq_ok.mpr ⟨(), hvalid, ?_⟩
      rw [if_neg hinit]
      refine bind_eq_ok.mpr ⟨_, rfl, ?_⟩
      rw [if_neg (Bool.eq_false_iff.mp hsteps)]

/-- What is known of jobs that have been sorted by kind: all have a usable name, and the pipeline jobs
are those with steps, in order and with the settings that they have in the document. -/
structure Sorts (config : Configuration) (jobs : Object) (found : Classified) : Prop where
  names : ∀ name ∈ jobs.keys, IsName name ∧ name ≠ config.initJobId
  sublist : (found.pipeline.map Job.name).Sublist jobs.keys
  mem_pipeline : ∀ job, job ∈ found.pipeline ↔ ∃ fields, (job.name, Json.object fields) ∈ jobs ∧
    Object.contains fields "steps" = true ∧ JobSettings.ofJob job.name fields = .ok job.settings
  readable : ∀ name fields, (name, Json.object fields) ∈ jobs →
    Object.contains fields "steps" = true → ∃ settings, JobSettings.ofJob name fields = .ok settings
  passthrough : ∀ name ∈ found.passthrough, name ∈ jobs.keys

theorem Sorts.nil (config : Configuration) : Sorts config [] {} :=
  ⟨by simp [Object.keys], List.Sublist.refl _, by simp, by simp, by simp⟩

section

variable {config : Configuration} {jobs : Object} {found : Classified} {name : Text} {fields : Object}

theorem mem_append_job {n : Text} {f : Object} :
    (n, Json.object f) ∈ jobs ++ [(name, Json.object fields)] ↔
      (n, Json.object f) ∈ jobs ∨ n = name ∧ f = fields := by
  rw [List.mem_append, List.mem_singleton, Prod.mk.injEq, Json.object.injEq]

theorem Sorts.names_append (h : Sorts config jobs found) (hname : IsName name)
    (hinit : name ≠ config.initJobId) : ∀ n ∈ Object.keys (jobs ++ [(name, Json.object fields)]),
      IsName n ∧ n ≠ config.initJobId := by
  rw [Object.keys_append, List.forall_mem_append]
  exact ⟨h.names, List.forall_mem_singleton.mpr ⟨hname, hinit⟩⟩

/-- A job with steps joins the pipeline jobs. -/
theorem Sorts.add_pipeline (h : Sorts config jobs found) (hname : IsName name)
    (hinit : name ≠ config.initJobId) (hsteps : Object.contains fields "steps" = true)
    {settings : JobSettings} (hsettings : JobSettings.ofJob name fields = .ok settings) :
    Sorts config (jobs ++ [(name, .object fields)])
      { found with pipeline := found.pipeline ++ [⟨name, settings⟩] } := by
  refine ⟨h.names_append hname hinit, ?_, fun job => ?_, fun n f hf hfsteps => ?_, fun n hn => ?_⟩
  · rw [List.map_append, Object.keys_append]
    exact h.sublist.append (List.Sublist.refl _)
  · rw [List.mem_append, h.mem_pipeline job, List.mem_singleton]
    constructor
    · rintro (⟨f, hf, hrest⟩ | rfl)
      · exact ⟨f, List.mem_append_left _ hf, hrest⟩
      · exact ⟨fields, mem_append_job.mpr (.inr ⟨rfl, rfl⟩), hsteps, hsettings⟩
    · rintro ⟨f, hf, hfsteps, hfsettings⟩
      rcases mem_append_job.mp hf with hf | ⟨rfl, rfl⟩
      · exact .inl ⟨f, hf, hfsteps, hfsettings⟩
      · rw [hsettings] at hfsettings
        cases hfsettings
        exact .inr rfl
  · rcases mem_append_job.mp hf with hf | ⟨rfl, rfl⟩
    · exact h.readable n f hf hfsteps
    · exact ⟨settings, hsettings⟩
  · rw [Object.keys_append]
    exact List.mem_append_left _ (h.passthrough n hn)

/-- A job without steps is passed through. -/
theorem Sorts.add_passthrough (h : Sorts config jobs found) (hname : IsName name)
    (hinit : name ≠ config.initJobId) (hsteps : ¬ Object.contains fields "steps" = true) :
    Sorts config (jobs ++ [(name, .object fields)])
      { found with passthrough := found.passthrough ++ [name] } := by
  refine ⟨h.names_append hname hinit, ?_, fun job => ?_, fun n f hf hfsteps => ?_, ?_⟩
  · rw [Object.keys_append]
    exact h.sublist.trans (List.sublist_append_left _ _)
  · rw [h.mem_pipeline job]
    constructor
    · rintro ⟨f, hf, hrest⟩
      exact ⟨f, List.mem_append_left _ hf, hrest⟩
    · rintro ⟨f, hf, hfsteps, hfsettings⟩
      rcases mem_append_job.mp hf with hf | ⟨-, rfl⟩
      · exact ⟨f, hf, hfsteps, hfsettings⟩
      · exact absurd hfsteps hsteps
  · rcases mem_append_job.mp hf with hf | ⟨-, rfl⟩
    · exact h.readable n f hf hfsteps
    · exact absurd hfsteps hsteps
  · rw [Object.keys_append, List.forall_mem_append, List.forall_mem_singleton]
    exact ⟨fun n hn => List.mem_append_left _ (h.passthrough n hn),
      List.mem_append_right _ (List.mem_singleton_self name)⟩

end

theorem Sorts.step {config : Configuration} {jobs : Object} {found found' : Classified}
    {entry : Text × Json} (h : Sorts config jobs found)
    (hstep : Joins config found entry found') : Sorts config (jobs ++ [entry]) found' := by
  cases hstep with
  | pipeline hvalid hinit hsteps hsettings =>
    exact h.add_pipeline (validateJobId_eq_ok hvalid) hinit hsteps hsettings
  | passthrough hvalid hinit hsteps =>
    exact h.add_passthrough (validateJobId_eq_ok hvalid) hinit (Bool.eq_false_iff.mp hsteps)

theorem sorts_of_foldlM {config : Configuration} {jobs : Object} {found : Classified}
    (h : jobs.foldlM (classify config) {} = .ok found) : Sorts config jobs found :=
  foldlM_induction (motive := Sorts config) h (.nil config)
    fun _ _ _ _ _ _ hseen hstep => hseen.step (classify_eq_ok_iff.mp hstep)

/-- The pipeline jobs are the jobs with steps. -/
theorem Sorts.exists_pipeline_iff {config : Configuration} {jobs : Object} {found : Classified}
    (h : Sorts config jobs found) {name : Text} :
    (∃ job ∈ found.pipeline, job.name = name) ↔
      ∃ fields, (name, Json.object fields) ∈ jobs ∧ Object.contains fields "steps" = true := by
  constructor
  · rintro ⟨job, hjob, rfl⟩
    obtain ⟨fields, hmem, hsteps, -⟩ := (h.mem_pipeline job).mp hjob
    exact ⟨fields, hmem, hsteps⟩
  · rintro ⟨fields, hmem, hsteps⟩
    obtain ⟨settings, hsettings⟩ := h.readable name fields hmem hsteps
    exact ⟨⟨name, settings⟩, (h.mem_pipeline _).mpr ⟨fields, hmem, hsteps, hsettings⟩, rfl⟩

theorem Sorts.nodup {config : Configuration} {jobs : Object} {found : Classified}
    (h : Sorts config jobs found) (hd : jobs.Distinct) : (found.pipeline.map Job.name).Nodup :=
  List.Nodup.sublist h.sublist hd

/-- A job with steps is one of the graph, with the settings that it has in the document. -/
theorem Sorts.exists_mem_graph {config : Configuration} {jobs : Object} {found : Classified}
    {graph : JobGraph} (h : Sorts config jobs found) (hjobs : graph.jobs = found.pipeline) {name : Text}
    {fields : Object} (hmem : (name, Json.object fields) ∈ jobs)
    (hsteps : Object.contains fields "steps" = true) :
    ∃ settings, JobSettings.ofJob name fields = .ok settings ∧ (⟨name, settings⟩ : Job) ∈ graph.jobs := by
  obtain ⟨settings, hsettings⟩ := h.readable name fields hmem hsteps
  refine ⟨settings, hsettings, ?_⟩
  rw [hjobs]
  exact (h.mem_pipeline _).mpr ⟨fields, hmem, hsteps, hsettings⟩

/-- Everything that a job of the graph needs is a job of the document. -/
theorem Sorts.needs_subset {config : Configuration} {jobs : Object} {found : Classified}
    {graph : JobGraph} (h : Sorts config jobs found) (hjobs : graph.jobs = found.pipeline)
    (hbuilt : graph.Built found.passthrough) {job : Job} (hjob : job ∈ graph.jobs) :
    ∀ need ∈ job.settings.needs, need ∈ jobs.keys := by
  intro need hneed
  cases howner : ownerOf graph.jobs need with
  | none => exact h.passthrough need (hbuilt.known job hjob need hneed howner)
  | some i =>
    obtain ⟨other, hother, rfl⟩ := ownerOf_eq_some howner
    rw [hjobs] at hother
    exact h.sublist.subset (List.mem_map.mpr ⟨other, List.mem_of_getElem? hother, rfl⟩)

/-- Everything that a job of the graph needs has a usable name. -/
theorem Sorts.needs_names {config : Configuration} {jobs : Object} {found : Classified}
    {graph : JobGraph} (h : Sorts config jobs found) (hjobs : graph.jobs = found.pipeline)
    (hbuilt : graph.Built found.passthrough) {job : Job} (hjob : job ∈ graph.jobs) :
    ∀ need ∈ job.settings.needs, IsName need := fun need hneed =>
  (h.names need (h.needs_subset hjobs hbuilt hjob need hneed)).1

/-! ## The workflow -/

/-- The jobs of a document or a workflow. -/
def jobsOf (document : Object) : Option Object := (document.get? "jobs").bind Json.object?

/-- Nothing but the triggers changes. -/
theorem get?_stripCallTrigger {key : Text} (h : key ≠ "on") (document : Object) :
    (stripCallTrigger document).get? key = document.get? key := by
  unfold stripCallTrigger
  split
  · split
    · exact Object.get?_insert_of_ne _ _ h.symm
    · rfl
  · rfl

theorem get?_jobs_stripCallTrigger (document : Object) :
    (stripCallTrigger document).get? "jobs" = document.get? "jobs" :=
  get?_stripCallTrigger (by decide) document

theorem compileJob_fst {graph : JobGraph} {config : Configuration} {entry entry' : Text × Json}
    (h : compileJob graph config entry = .ok entry') : entry'.1 = entry.1 := by
  obtain ⟨name, job⟩ := entry
  unfold compileJob at h
  by_cases hcontains : graph.contains name = true
  · simp only [hcontains, if_true] at h
    obtain ⟨fields, -, h⟩ := bind_eq_ok.mp h
    obtain ⟨assembled, -, h⟩ := bind_eq_ok.mp h
    cases h
    rfl
  · simp only [hcontains] at h
    cases h
    rfl

/-- A pipeline job is assembled. -/
theorem compileJob_eq_ok {graph : JobGraph} {config : Configuration} {name : Text} {fields : Object}
    {entry' : Text × Json} (hcontains : graph.contains name = true)
    (h : compileJob graph config (name, .object fields) = .ok entry') :
    ∃ assembled, assemble name fields graph config = .ok assembled ∧
      entry' = (name, .object assembled) := by
  unfold compileJob at h
  simp only [hcontains, if_true] at h
  replace h := eq_ok_of_bind (Json.asObject_eq_ok.mpr rfl) h
  obtain ⟨assembled, hassemble, h⟩ := bind_eq_ok.mp h
  cases h
  exact ⟨assembled, hassemble, rfl⟩

/-- The initialization job and its name, if there is a pipeline job. -/
def initEntries (graph : JobGraph) (config : Configuration) : Object :=
  if graph.isEmpty then [] else [(config.initJobId, initJob graph config)]

/-- The initialization job does not stand in the way of other jobs. -/
theorem get?_initEntries_append {graph : JobGraph} {config : Configuration} {compiled : Object}
    {name : Text} (h : name ≠ config.initJobId) :
    Object.get? (initEntries graph config ++ compiled) name = compiled.get? name := by
  rw [initEntries, Object.get?_append]
  split
  · rfl
  · simp [Object.get?, Ne.symm h]

/-- A document compiles if it passes each of these stages. -/
theorem compile_eq_ok_iff {document workflow jobs : Object} {config : Configuration}
    (hjobs : document.get? "jobs" = some (.object jobs)) :
    compile document config = .ok workflow ↔ ∃ found graph compiled,
      validateJobId config.initJobId = .ok () ∧ jobs.foldlM (classify config) {} = .ok found ∧
      JobGraph.ofJobs found.pipeline found.passthrough = .ok graph ∧
      jobs.mapM (compileJob graph config) = .ok compiled ∧
      workflow = (stripCallTrigger document).insert "jobs"
        (.object (initEntries graph config ++ compiled)) := by
  have hstripped : (stripCallTrigger document).require "jobs" "top level" = .ok (.object jobs) := by
    rw [Object.require_eq_ok, get?_jobs_stripCallTrigger, hjobs]
  constructor
  · intro h
    replace h := eq_ok_of_bind hstripped h
    replace h := eq_ok_of_bind (Json.asObject_eq_ok.mpr rfl) h
    obtain ⟨⟨⟩, hvalid, h⟩ := bind_eq_ok.mp h
    obtain ⟨found, hfound, h⟩ := bind_eq_ok.mp h
    obtain ⟨graph, hgraph, h⟩ := bind_eq_ok.mp h
    obtain ⟨compiled, hcompiled, h⟩ := bind_eq_ok.mp h
    cases h
    exact ⟨found, graph, compiled, hvalid, hfound, hgraph, hcompiled, rfl⟩
  · rintro ⟨found, graph, compiled, hvalid, hfound, hgraph, hcompiled, rfl⟩
    refine bind_eq_ok.mpr ⟨_, hstripped, bind_eq_ok.mpr ⟨jobs, rfl, ?_⟩⟩
    refine bind_eq_ok.mpr ⟨(), hvalid, bind_eq_ok.mpr ⟨found, hfound, ?_⟩⟩
    exact bind_eq_ok.mpr ⟨graph, hgraph, bind_eq_ok.mpr ⟨compiled, hcompiled, rfl⟩⟩

/-- A workflow has the defaults of the document. -/
theorem get?_defaults_compile {document workflow jobs : Object} {config : Configuration}
    (hjobs : document.get? "jobs" = some (.object jobs)) (h : compile document config = .ok workflow) :
    workflow.get? "defaults" = document.get? "defaults" := by
  obtain ⟨found, graph, compiled, -, -, -, -, rfl⟩ := (compile_eq_ok_iff hjobs).mp h
  rw [Object.get?_insert_of_ne _ _ (by decide), get?_stripCallTrigger (by decide)]

/-- The stages that a document goes through when it compiles. -/
theorem compile_stages {document workflow jobs : Object} {config : Configuration}
    (hjobs : document.get? "jobs" = some (.object jobs))
    (h : compile document config = .ok workflow) :
    ∃ found graph compiled, IsName config.initJobId ∧
      jobs.foldlM (classify config) {} = .ok found ∧
      JobGraph.ofJobs found.pipeline found.passthrough = .ok graph ∧
      jobs.mapM (compileJob graph config) = .ok compiled ∧
      jobsOf workflow = some (initEntries graph config ++ compiled) := by
  obtain ⟨found, graph, compiled, hvalid, hfound, hgraph, hcompiled, rfl⟩ :=
    (compile_eq_ok_iff hjobs).mp h
  refine ⟨found, graph, compiled, validateJobId_eq_ok hvalid, hfound, hgraph, hcompiled, ?_⟩
  rw [jobsOf, Object.get?_insert_self]
  rfl

/-- What a document that compiles is compiled into: its jobs are sorted and make a graph, the
initialization job is there if there is a pipeline job, and every pipeline job has been assembled. -/
theorem compile_eq_ok {document workflow jobs : Object} {config : Configuration}
    (hjobs : document.get? "jobs" = some (.object jobs)) (hd : jobs.Distinct)
    (h : compile document config = .ok workflow) :
    ∃ found graph compiled, jobs.foldlM (classify config) {} = .ok found ∧
      JobGraph.ofJobs found.pipeline found.passthrough = .ok graph ∧ Sorts config jobs found ∧
      IsName config.initJobId ∧ jobsOf workflow = some compiled ∧
      (graph.isEmpty = false → compiled.get? config.initJobId = some (initJob graph config)) ∧
      ∀ job ∈ graph.jobs, ∃ fields assembled, jobs.get? job.name = some (.object fields) ∧
        assemble job.name fields graph config = .ok assembled ∧
        compiled.get? job.name = some (.object assembled) := by
  obtain ⟨found, graph, compiled, hinitName, hfound, hgraph, hcompiled, hworkflow⟩ :=
    compile_stages hjobs h
  have hsorts := sorts_of_foldlM hfound
  obtain ⟨hgraphjobs, hbuilt⟩ := JobGraph.built_of_ofJobs hgraph
  have hresults := mapM_eq_ok.mp hcompiled
  refine ⟨found, graph, initEntries graph config ++ compiled, hfound, hgraph, hsorts, hinitName,
    hworkflow, ?_, ?_⟩
  · intro hne
    rw [initEntries, hne, Object.get?_append]
    simp [Object.get?]
  · intro job hjob
    rw [hgraphjobs] at hjob
    obtain ⟨fields, hmem, hsteps, hsettings⟩ := (hsorts.mem_pipeline job).mp hjob
    have hget := Object.get?_of_mem hd hmem
    have hinit : job.name ≠ config.initJobId :=
      (hsorts.names job.name (Object.mem_keys_of_mem hmem)).2
    obtain ⟨result, hresult, hassembled⟩ :=
      Object.get?_forall₂ hresults (fun _ _ => compileJob_fst) hget
    have hcontains : graph.contains job.name = true :=
      JobGraph.contains_iff.mpr ⟨job, hgraphjobs ▸ hjob, rfl⟩
    obtain ⟨assembled, hassemble, heq⟩ := compileJob_eq_ok hcontains hassembled
    obtain ⟨-, rfl⟩ := Prod.mk.inj heq
    refine ⟨fields, assembled, hget, hassemble, ?_⟩
    rw [get?_initEntries_append hinit, hresult]

end CachedWorkflow
