import CachedWorkflow.Proofs.Workflow.Compile

/-!
# Proofs: one cache for all jobs

The initialization job and the compiled jobs deal with the same caches, though their texts are made
apart from each other (`compile_agrees`). What concerns the check of a job is there for exactly the
jobs that are not forced. Every reference to the initialization job names one of its outputs. The steps
that check, restore and save the cache of a job work on the same paths, under the key that the key step
has made for the job.
-/

namespace CachedWorkflow

/-- The step deals with the cache of the job: it works on the paths of the job, and its key is an output
of the initialization job that passes on what the key step has made for the job. -/
def UsesCacheOf (config : Configuration) (outputs : Object) (job : Job) (step : Json) : Prop :=
  stepPaths step = some (.string (pathLines job.settings.outputPaths)) ∧
    ∃ output, stepKey step = some (.string (Template.placeholder
        (initOutput config.initJobId output))) ∧
      outputs.get? output = some (.string (keyPlaceholder config job.name))

/-- A step that saves or restores a cache. -/
def IsCacheStep (step : Json) : Prop :=
  IsNamed step "Commit build" ∨ ∃ job, IsNamed step ("Restore " ++ job)

/-- A text of a step that deals with a cache is given by the configuration or the author: it is the
action, or it is the paths of a job. -/
def IsGiven (graph : JobGraph) (config : Configuration) (position : List Json.Step) (text : Text) :
    Prop :=
  position = [.member "uses"] ∧ (∃ half, text = config.cache.reference half) ∨
    position = [.member "with", .member "path"] ∧
      ∃ job ∈ graph.jobs, text = pathLines job.settings.outputPaths

/-- What the initialization job with the given steps and outputs provides for the jobs of the graph. -/
structure InitAgrees (graph : JobGraph) (config : Configuration) (steps : List Json)
    (outputs : Object) : Prop where
  /-- No two steps have one identifier. -/
  ids_nodup : (stepIds steps).Nodup
  /-- The outputs are the keys of all jobs and the checks of those that are not forced. -/
  mem_outputs : ∀ output, output ∈ outputs.keys ↔ ∃ job ∈ graph.jobs,
    output = keyOutput job.name ∨
      graph.isForced job.name = false ∧ output = needsBuildOutput job.name
  /-- Every output reads what one of the steps sets. -/
  refer : ∀ output value, outputs.get? output = some value → ∃ text id set step,
    value = .string text ∧ ReadsOutput text id set ∧ step ∈ steps ∧ HasId step id ∧
      SetsOutput config step set
  /-- The key step makes the key of every job, and the output for the key passes it on. -/
  key : ∀ job ∈ graph.jobs, outputs.get? (keyOutput job.name)
    = some (.string (keyPlaceholder config job.name))
  /-- The check step of a job looks for the paths of the job under this key. -/
  check : ∀ step ∈ steps, ∀ job ∈ graph.jobs, HasId step (checkStepId job.name) →
    stepPaths step = some (.string (pathLines job.settings.outputPaths)) ∧
      stepKey step = some (.string (keyPlaceholder config job.name))

/-- How a compiled job with the given generated steps and clauses fits to the initialization job. -/
structure JobAgrees (graph : JobGraph) (config : Configuration) (steps : List Json)
    (outputs : Object) (job : Job) (generated : List Json) (clauses : List Clause) : Prop where
  /-- The clauses refer to outputs of the initialization job that are there. -/
  clauses_refer : ∀ clause ∈ clauses, ∀ output,
    RefersTo config.initJobId clause.toText output → output ∈ outputs.keys
  /-- So do the steps that deal with caches, in all that is not given by the configuration or the
  author. -/
  steps_refer : ∀ step ∈ generated, IsCacheStep step → ∀ position text output,
    step.at? position = some (.string text) → RefersTo config.initJobId text output →
    output ∈ outputs.keys ∨ IsGiven graph config position text
  /-- The check step, the output and the clause are there unless the job is forced. -/
  check_iff : (∃ step ∈ steps, HasId step (checkStepId job.name)) ↔
    graph.isForced job.name = false
  output_iff : needsBuildOutput job.name ∈ outputs.keys ↔ graph.isForced job.name = false
  clause_iff : Clause.needsBuild config.initJobId job.name ∈ clauses ↔
    graph.isForced job.name = false
  /-- The job commits its own cache, and nothing else. -/
  commit : ∃ step ∈ generated, IsNamed step "Commit build"
  commit_cache : ∀ step ∈ generated, IsNamed step "Commit build" →
    UsesCacheOf config outputs job step
  /-- The job restores the cache of each dependency, and nothing else. -/
  restore : ∀ dependency ∈ graph.pipelineNeeds job.name,
    ∃ step ∈ generated, IsNamed step ("Restore " ++ dependency.name)
  restore_cache : ∀ step ∈ generated, ∀ name, IsNamed step ("Restore " ++ name) →
    ∃ dependency ∈ graph.pipelineNeeds job.name, dependency.name = name ∧
      UsesCacheOf config outputs dependency step

section

variable {graph : JobGraph} {passthrough : List Text} {config : Configuration}

theorem checkStepId_ne (hcheck : ¬ ("check-cache-" : Text) <+: config.keyStepId) (job : Text) :
    config.keyStepId ≠ checkStepId job := by
  intro h
  exact hcheck (h ▸ List.prefix_append _ _)

theorem initAgrees (hbuilt : graph.Built passthrough) (hnames : (graph.jobs.map Job.name).Nodup)
    (hfetch : config.keyStepId ≠ "git-fetch")
    (hcheck : ¬ ("check-cache-" : Text) <+: config.keyStepId)
    (hjobs : ∀ job ∈ graph.jobs, IsName job.name) :
    InitAgrees graph config (initSteps graph config) (initOutputs graph config) where
  ids_nodup := nodup_stepIds_initSteps hnames hfetch (checkStepId_ne hcheck)
  mem_outputs _ := mem_keys_initOutputs hnames config
  refer _ _ hvalue := initOutputs_refer hbuilt hnames hjobs config hvalue
  key _ hjob := get?_keyOutput hnames config hjob
  check := by
    intro step hstep job hjob hid
    rcases List.mem_append.mp hstep with hkey | hcheckStep
    · rcases List.mem_cons.mp hkey with rfl | hkey
      · cases hid
      · rw [List.mem_singleton.mp hkey] at hid
        exact absurd (Json.string.inj (Option.some.inj hid)) (checkStepId_ne hcheck job.name)
    · obtain ⟨other, hother, rfl⟩ := List.mem_map.mp hcheckStep
      have hname := checkStepId_injective (Json.string.inj (Option.some.inj hid))
      obtain rfl : other = job :=
        List.inj_on_of_nodup_map hnames (mem_checkedJobs.mp hother).1 hjob hname
      exact ⟨rfl, rfl⟩

theorem usesCacheOf_cacheStep (hnames : (graph.jobs.map Job.name).Nodup) {job : Job}
    (hjob : job ∈ graph.jobs) (name reference : Text) :
    UsesCacheOf config (initOutputs graph config) job (cacheStep name reference
      (pathLines job.settings.outputPaths) (initKeyPlaceholder config job.name)) :=
  ⟨rfl, keyOutput job.name, rfl, get?_keyOutput hnames config hjob⟩

theorem keyOutput_mem (hnames : (graph.jobs.map Job.name).Nodup) {job : Job} (hjob : job ∈ graph.jobs) :
    keyOutput job.name ∈ (initOutputs graph config).keys :=
  (mem_keys_initOutputs hnames config).mpr ⟨job, hjob, .inl rfl⟩

theorem needsBuildOutput_mem_iff (hnames : (graph.jobs.map Job.name).Nodup) {job : Job}
    (hjob : job ∈ graph.jobs) :
    needsBuildOutput job.name ∈ (initOutputs graph config).keys ↔ graph.isForced job.name = false := by
  rw [mem_keys_initOutputs hnames config]
  constructor
  · rintro ⟨other, -, hkey | ⟨hforced, hsame⟩⟩
    · exact absurd hkey.symm (keyOutput_ne_needsBuildOutput other.name job.name)
    · rw [List.append_cancel_left hsame]
      exact hforced
  · intro hforced
    exact ⟨job, hjob, .inr ⟨hforced, rfl⟩⟩

/-- The steps that deal with caches refer to keys that the initialization job passes on. -/
theorem cacheSteps_refer (hnames : (graph.jobs.map Job.name).Nodup) (hinit : IsName config.initJobId)
    (hjobs : ∀ job ∈ graph.jobs, IsName job.name) {job : Job} (hjob : job ∈ graph.jobs)
    (hneeded : ∀ d ∈ graph.pipelineNeeds job.name, d ∈ graph.jobs)
    {saving : List Json} (hsaving : ∀ step ∈ saving, IsNamed step "Save outputs") {step : Json}
    (hstep : step ∈ stepsBefore graph config job.name job.settings
      ++ (saving ++ commitSteps graph config job.name job.settings)) (hcache : IsCacheStep step)
    {position : List Json.Step} {text output : Text} (hat : step.at? position = some (.string text))
    (h : RefersTo config.initJobId text output) :
    output ∈ (initOutputs graph config).keys ∨ IsGiven graph config position text := by
  rcases hcache with hcommit | ⟨d, hrestore⟩
  · obtain rfl := eq_commitStep hsaving hstep hcommit
    rw [commitStep_eq] at hat
    rcases refersTo_cacheStep hinit (hjobs job hjob) (by decide) hat h with rfl | hgiven
    · exact .inl (keyOutput_mem hnames hjob)
    · exact .inr (hgiven.imp (fun h => ⟨h.1, _, h.2⟩) fun h => ⟨h.1, job, hjob, h.2⟩)
  · obtain ⟨dependency, hmem, -, rfl⟩ := eq_restoreStep hsaving hstep hrestore
    have hdependency := hneeded dependency hmem
    have hname := hjobs dependency hdependency
    have hdots : (("Restore " : Text) ++ dependency.name).count '.' = 0 := by
      rw [List.count_append, count_dot_of_name hname.chars]
      decide
    rw [restoreStep_eq] at hat
    rcases refersTo_cacheStep hinit hname (by omega) hat h with rfl | hgiven
    · exact .inl (keyOutput_mem hnames hdependency)
    · exact .inr (hgiven.imp (fun h => ⟨h.1, _, h.2⟩) fun h => ⟨h.1, dependency, hdependency, h.2⟩)

/-- The generated parts of a compiled job agree with the initialization job. -/
theorem jobAgrees (hbuilt : graph.Built passthrough) (hnames : (graph.jobs.map Job.name).Nodup)
    (hcheck : ¬ ("check-cache-" : Text) <+: config.keyStepId) (hinit : IsName config.initJobId)
    (hjobs : ∀ job ∈ graph.jobs, IsName job.name ∧ job.settings.outputPaths ≠ [])
    {job : Job} (hjob : job ∈ graph.jobs) (hneeds : ∀ need ∈ job.settings.needs, IsName need)
    {saving : List Json} (hsaving : ∀ step ∈ saving, IsNamed step "Save outputs") :
    JobAgrees graph config (initSteps graph config) (initOutputs graph config) job
      (stepsBefore graph config job.name job.settings
        ++ (saving ++ commitSteps graph config job.name job.settings))
      (gateClauses config job.name job.settings.needs (graph.isForced job.name) none) := by
  have hneeded : ∀ d ∈ graph.pipelineNeeds job.name, d ∈ graph.jobs := fun d hd =>
    ((hbuilt.mem_pipelineNeeds hnames hjob).mp hd).1
  have hbuild := @needsBuildOutput_mem_iff graph config hnames job hjob
  refine ⟨?_, ?_, ?_, hbuild, ?_, ?_, ?_, ?_, ?_⟩
  · intro clause hclause output h
    obtain ⟨hforced, rfl⟩ :=
      refersTo_of_mem_gateClauses hinit (hjobs job hjob).1 hneeds hclause h
    exact hbuild.mpr hforced
  · intro step hstep hcache position text output hat h
    exact cacheSteps_refer hnames hinit (fun j hj => (hjobs j hj).1) hjob hneeded hsaving hstep hcache
      hat h
  · refine (exists_checkStep_iff (checkStepId_ne hcheck)).trans ⟨?_, fun hforced => ?_⟩
    · rintro ⟨_, _, _, hforced⟩
      exact hforced
    · exact ⟨job, hjob, rfl, hforced⟩
  · rw [needsBuild_mem_gateClauses]
    simp
  · exact ⟨_, List.mem_append_right _ (List.mem_append_right _
      (commitStep_mem (hjobs job hjob).2)), isNamed_commitStep config job.name job.settings⟩
  · intro step hstep hcommit
    obtain rfl := eq_commitStep hsaving hstep hcommit
    exact usesCacheOf_cacheStep hnames hjob "Commit build" (config.cache.reference "save")
  · intro dependency hmem
    have hpaths := (hjobs dependency (hneeded dependency hmem)).2
    exact ⟨_, List.mem_append_left _ (restoreStep_mem hmem hpaths),
      isNamed_restoreStep config dependency⟩
  · intro step hstep name hrestore
    obtain ⟨dependency, hmem, hname, rfl⟩ := eq_restoreStep hsaving hstep hrestore
    exact ⟨dependency, hmem, hname,
      usesCacheOf_cacheStep hnames (hneeded dependency hmem) _ (config.cache.reference "restore")⟩

end

/-- All jobs of a compiled workflow agree on the cache: the initialization job provides what the other
jobs refer to, and for each of them the check, the commit and the restores in its dependents deal with
the same paths under the same key. The steps of a compiled job are those of the author between
generated ones, and its condition is a conjunction of generated clauses and the author's. -/
theorem compile_agrees {document workflow jobs : Object} {config : Configuration}
    (hjobs : document.get? "jobs" = some (.object jobs)) (hd : jobs.Distinct)
    (hpipeline : ∃ name fields, (name, Json.object fields) ∈ jobs ∧
      Object.contains fields "steps" = true)
    (hfetch : config.keyStepId ≠ "git-fetch")
    (hcheck : ¬ ("check-cache-" : Text) <+: config.keyStepId)
    (h : compile document config = .ok workflow) :
    ∃ found graph compiled init steps outputs,
      jobs.foldlM (classify config) {} = .ok found ∧
      JobGraph.ofJobs found.pipeline found.passthrough = .ok graph ∧
      (∀ name, (∃ job ∈ graph.jobs, job.name = name) ↔
        ∃ fields, (name, Json.object fields) ∈ jobs ∧ Object.contains fields "steps" = true) ∧
      jobsOf workflow = some compiled ∧ compiled.get? config.initJobId = some init ∧
      init.member? "steps" = some (.array steps) ∧
      init.member? "outputs" = some (.object outputs) ∧
      InitAgrees graph config steps outputs ∧
      ∀ job ∈ graph.jobs, ∃ fields own authored assembled before after clauses condition,
        jobs.get? job.name = some (.object fields) ∧
        Object.get? fields "steps" = some (.array own) ∧
        own.mapM (outputsRenaming config (graph.pipelineNeeds job.name)).applyToValue
          = .ok authored ∧
        authoredCondition? job.name fields = .ok condition ∧
        compiled.get? job.name = some (.object assembled) ∧
        Object.get? assembled "steps" = some (.array (before ++ authored ++ after)) ∧
        Object.get? assembled "if"
          = some (.string (gateText (clauses ++ (condition.map Clause.authored).toList))) ∧
        JobAgrees graph config steps outputs job (before ++ after) clauses := by
  obtain ⟨found, graph, compiled, hfound, hgraph, hsorts, hinit, hcompiled, hinitJob, hassembled⟩ :=
    compile_eq_ok hjobs hd h
  obtain ⟨hgraphjobs, hbuilt⟩ := JobGraph.built_of_ofJobs hgraph
  have hnames : (graph.jobs.map Job.name).Nodup := hgraphjobs ▸ hsorts.nodup hd
  have hpipelineJobs : ∀ name, (∃ job ∈ graph.jobs, job.name = name) ↔
      ∃ fields, (name, Json.object fields) ∈ jobs ∧ Object.contains fields "steps" = true :=
    fun name => hgraphjobs ▸ hsorts.exists_pipeline_iff
  have hall : ∀ job ∈ graph.jobs, IsName job.name ∧ job.settings.outputPaths ≠ [] := by
    intro job hjob
    obtain ⟨fields, hmem, -, hsettings⟩ := (hsorts.mem_pipeline job).mp (hgraphjobs ▸ hjob)
    exact ⟨(hsorts.names job.name (Object.mem_keys_of_mem hmem)).1, outputPaths_ne_nil hsettings⟩
  have hnonempty : graph.isEmpty = false := by
    obtain ⟨name, fields, hmem, hsteps⟩ := hpipeline
    obtain ⟨job, hjob, -⟩ := (hpipelineJobs name).mpr ⟨fields, hmem, hsteps⟩
    rw [JobGraph.isEmpty, List.isEmpty_eq_false_iff]
    exact List.ne_nil_of_mem hjob
  refine ⟨found, graph, compiled, initJob graph config, initSteps graph config,
    initOutputs graph config, hfound, hgraph, hpipelineJobs, hcompiled, hinitJob hnonempty, rfl, rfl,
    initAgrees hbuilt hnames hfetch hcheck fun job hjob => (hall job hjob).1, fun job hjob => ?_⟩
  obtain ⟨fields, assembled, hfields, hassemble, hresult⟩ := hassembled job hjob
  obtain ⟨own, authored, saving, condition, hown, hauthored, hcondition, hsaving, hsteps, hif⟩ :=
    assemble_eq_ok (JobGraph.Built.get?_eq hnames hjob) hassemble
  rw [gateClauses_eq] at hif
  exact ⟨fields, own, authored, assembled, _, _, _, condition, hfields, hown, hauthored, hcondition,
    hresult, hsteps, hif, jobAgrees hbuilt hnames hcheck hinit hall hjob
      (hsorts.needs_names hgraphjobs hbuilt hjob) (isNamed_outputsSteps hsaving)⟩

/-- The jobs of a small document: one, another that needs it, and a forced one that needs both. -/
def threeJobs : Object := [
  ("build", .object [("runs-on", .string "linux"), ("steps", .array [.object []])]),
  ("test", .object [("needs", .string "build"), ("runs-on", .string "linux"),
    ("steps", .array [.object []])]),
  ("deploy", .object [("needs", Json.ofTexts ["build", "test"]), ("force", .bool true),
    ("runs-on", .string "linux"), ("steps", .array [])])]

/-- The same jobs with their settings. -/
def threeGraphJobs : List Job := [
  ⟨"build", { outputPaths := [outputsFile "build"] }⟩,
  ⟨"test", { outputPaths := [outputsFile "test"], needs := ["build"] }⟩,
  ⟨"deploy", { outputPaths := [outputsFile "deploy"], needs := ["build", "test"], force := true }⟩]

theorem compile_agrees_threeJobs :
    ∃ workflow graph compiled init steps outputs,
      compile [("jobs", .object threeJobs)] {} = .ok workflow ∧ jobsOf workflow = some compiled ∧
      compiled.get? "cixx-init" = some init ∧ init.member? "steps" = some (.array steps) ∧
      init.member? "outputs" = some (.object outputs) ∧ InitAgrees graph {} steps outputs ∧
      graph.jobs = threeGraphJobs ∧ ∀ job ∈ threeGraphJobs,
        (graph.pipelineNeeds job.name).map Job.name = job.settings.needs ∧
          ∃ generated clauses, JobAgrees graph {} steps outputs job generated clauses := by
  have hok : (compile [("jobs", .object threeJobs)] {}).toBool = true := by decide +kernel
  obtain ⟨workflow, h⟩ := toBool_eq_true.mp hok
  have hdeploy : ∃ fields, (("deploy" : Text), Json.object fields) ∈ threeJobs ∧
      Object.contains fields "steps" = true :=
    ⟨_, List.mem_cons_of_mem _ (List.mem_cons_of_mem _ (List.mem_singleton_self _)), rfl⟩
  obtain ⟨found, graph, compiled, init, steps, outputs, hfound, hgraph, -, hcompiled, hinit, hsteps, houtputs,
    hagrees, hjobs⟩ := compile_agrees rfl (by decide +kernel) ⟨_, hdeploy⟩ (by decide +kernel)
      (by decide +kernel) h
  have hsorted : (threeJobs.foldlM (classify {}) {}).map Classified.pipeline = .ok threeGraphJobs := by
    decide +kernel
  rw [hfound] at hsorted
  have hpipeline : found.pipeline = threeGraphJobs := Except.ok.inj hsorted
  obtain ⟨hgraphjobs, hbuilt⟩ := JobGraph.built_of_ofJobs hgraph
  rw [hpipeline] at hgraphjobs
  have hnames : (graph.jobs.map Job.name).Nodup := by
    rw [hgraphjobs]
    decide
  have hneeds : ∀ job ∈ threeGraphJobs,
      job.settings.needs.filter (· ∈ threeGraphJobs.map Job.name) = job.settings.needs := by decide
  refine ⟨workflow, graph, compiled, init, steps, outputs, h, hcompiled, hinit, hsteps, houtputs, hagrees,
    hgraphjobs, fun job hjob => ?_⟩
  have hmem : job ∈ graph.jobs := hgraphjobs ▸ hjob
  obtain ⟨_, _, _, _, before, after, clauses, _, -, -, -, -, -, -, -, hagree⟩ := hjobs job hmem
  refine ⟨?_, before ++ after, clauses, hagree⟩
  rw [hbuilt.map_pipelineNeeds hnames hmem, hgraphjobs, hneeds job hjob]

/-- Paths with a reference to an output that the initialization job does not have. -/
def danglingPaths : List Text := [Template.placeholder "needs.cixx-init.outputs.bogus", outputsFile "build"]

/-- A job that declares the first of them. -/
def danglingJobs : Object := [
  ("build", .object [("runs-on", .string "linux"), ("output-paths", Json.ofTexts (danglingPaths.take 1)),
    ("steps", .array [])])]

/-- A configuration with such a reference as the revision of the cache action. -/
def danglingConfiguration : Configuration := { cache := { version := "needs.cixx-init.outputs.bogus" } }

/-- What the author and the configuration give is copied as it is: in the step that commits the build, a
reference dangles among the paths, and another one in the action. -/
theorem exists_dangling_reference : ∃ workflow compiled step outputs,
    compile [("jobs", .object danglingJobs)] danglingConfiguration = .ok workflow ∧
      jobsOf workflow = some compiled ∧
      (Json.object compiled).at? [.member "build", .member "steps", .item 3] = some step ∧
      IsNamed step "Commit build" ∧
      stepPaths step = some (.string (pathLines danglingPaths)) ∧
      RefersTo "cixx-init" (pathLines danglingPaths) "bogus" ∧
      step.member? "uses" = some (.string (danglingConfiguration.cache.reference "save")) ∧
      RefersTo "cixx-init" (danglingConfiguration.cache.reference "save") "bogus" ∧
      (Json.object compiled).at? [.member "cixx-init", .member "outputs"] = some (.object outputs) ∧
      ("bogus" : Text) ∉ Object.keys outputs := by
  let step := commitStep danglingConfiguration "build" { outputPaths := danglingPaths }
  let outputs : Object := [("key-build", .string (keyPlaceholder {} "build")),
    ("needs-build-build", .string (Template.placeholder "steps.check-cache-build.outputs.cache-hit != 'true'"))]
  have hcomputed : ((compile [("jobs", .object danglingJobs)] danglingConfiguration).toOption.bind jobsOf).any
      (fun compiled =>
        (Json.object compiled).at? [.member "build", .member "steps", .item 3] = some step ∧
        (Json.object compiled).at? [.member "cixx-init", .member "outputs"] = some (.object outputs))
      = true := by decide +kernel
  obtain ⟨compiled, hcompiled, hall⟩ := Option.any_eq_true _ _ |>.mp hcomputed
  obtain ⟨hstep, houtputs⟩ := of_decide_eq_true hall
  obtain ⟨workflow, hworkflow, hjobs⟩ := Option.bind_eq_some_iff.mp hcompiled
  have hpaths : RefersTo "cixx-init" (pathLines danglingPaths) "bogus" :=
    ⟨"$\x7b\x7b ", " \x7d\x7d\n" ++ outputsFile "build", by decide, by decide, by decide⟩
  have haction : RefersTo "cixx-init" (danglingConfiguration.cache.reference "save") "bogus" :=
    ⟨"martijnhols/actions-cache/save@", [], by decide, by decide, by decide⟩
  exact ⟨workflow, compiled, step, outputs, toOption_eq_some.mp hworkflow, hjobs, hstep, rfl, rfl, hpaths, rfl,
    haction, houtputs, by decide⟩

end CachedWorkflow
