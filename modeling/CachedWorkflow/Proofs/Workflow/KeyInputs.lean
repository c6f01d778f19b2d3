import CachedWorkflow.Proofs.Job.KeyInputs
import CachedWorkflow.Proofs.Workflow.Declaration

/-!
# Proofs: what the key inputs of a job decide

The key inputs of a job are its paths and its extra key. The stages of the compiler do the same whatever
they are (`foldlM_classify_rekeyed`, `compiledParts_rekeyed`, `compileJob_rekeyed`), and fail for the same
reasons. So a workflow depends on them in two places only, the key of the job in the key script and the
checkout step of the job (`compile_confines_keyInputs`).
-/

namespace CachedWorkflow

/-! ## Settings -/

/-- The properties of a job that are its key inputs. -/
def keyInputProperties : List Text := ["paths", "extra-key"]

/-- The other properties of a job. -/
def withoutKeyInputs (job : Object) : Object :=
  job.filter fun entry => !keyInputProperties.contains entry.1

/-- The key inputs that a job declares, or has because it declares none. -/
structure HasKeyInputs (job : Object) (paths : List Text) (extraKey : Text) : Prop where
  paths : (job.get? "paths").getD (Json.ofTexts ["./"]) = Json.ofTexts paths
  extraKey : (job.get? "extra-key").getD (.string []) = .string extraKey

section

variable {job job' : Object} {paths paths' : List Text} {extraKey extraKey' : Text}

theorem get?_eq_of_withoutKeyInputs_eq (h : withoutKeyInputs job' = withoutKeyInputs job) {key : Text}
    (hkey : key ∉ keyInputProperties) : job'.get? key = job.get? key := by
  have hp : (!keyInputProperties.contains key) = true := by simp [hkey]
  have hfind : ∀ object : Object, Object.get? (withoutKeyInputs object) key = object.get? key :=
    fun object => Object.get?_filter (p := fun key => !keyInputProperties.contains key) hp object
  rw [← hfind job', h, hfind]

theorem HasKeyInputs.property_paths (h : HasKeyInputs job paths extraKey) (location : Text) :
    JobSettings.property job "paths" location (["./"] : List Text) Json.asStrings = .ok paths := by
  have hpaths := h.paths
  unfold JobSettings.property
  cases hget : job.get? "paths" with
  | none =>
    rw [hget, Option.getD_none] at hpaths
    have hdefault : (Json.ofTexts ["./"]).asStrings location = .ok ["./"] := asStrings_eq_ok.mpr rfl
    rw [← hdefault]
    exact asStrings_eq_ok.mpr hpaths
  | some value =>
    rw [hget, Option.getD_some] at hpaths
    exact asStrings_eq_ok.mpr hpaths

theorem HasKeyInputs.property_extraKey (h : HasKeyInputs job paths extraKey) (location : Text) :
    JobSettings.property job "extra-key" location [] Json.asString = .ok extraKey := by
  have hextraKey := h.extraKey
  unfold JobSettings.property
  cases hget : job.get? "extra-key" with
  | none =>
    rw [hget, Option.getD_none, Json.string.injEq] at hextraKey
    rw [hextraKey]
  | some value =>
    rw [hget, Option.getD_some] at hextraKey
    exact Json.asString_eq_ok.mpr hextraKey

/-- The settings of a job have its key inputs. -/
theorem HasKeyInputs.of_ofJob (h : HasKeyInputs job paths extraKey) {name : Text} {settings : JobSettings}
    (hsettings : JobSettings.ofJob name job = .ok settings) :
    settings.paths = paths.eraseDups ∧ settings.extraKey = extraKey := by
  obtain ⟨paths', _, extraKey', _, _, hpaths, -, hextraKey, -, -, rfl⟩ := ofJob_eq_ok_iff.mp hsettings
  rw [h.property_paths] at hpaths
  rw [h.property_extraKey] at hextraKey
  cases hpaths
  cases hextraKey
  exact ⟨withoutRepeats_eq_eraseDups paths, rfl⟩

/-- The settings of two jobs with the same other properties differ in the key inputs, or cannot be read
for the same reason. -/
theorem ofJob_rekeyed (hsame : withoutKeyInputs job' = withoutKeyInputs job)
    (hinputs : HasKeyInputs job paths extraKey) (hinputs' : HasKeyInputs job' paths' extraKey') (name : Text) :
    JobSettings.ofJob name job' = (JobSettings.ofJob name job).map
      fun settings => settings.withKeyInputs paths'.eraseDups extraKey' := by
  have hget : ∀ key, key ∉ keyInputProperties → job'.get? key = job.get? key :=
    fun key hkey => get?_eq_of_withoutKeyInputs_eq hsame hkey
  have houtputPaths : ∀ location, JobSettings.property job' "output-paths" location [] Json.asStrings
      = JobSettings.property job "output-paths" location [] Json.asStrings := by
    intro location
    rw [JobSettings.property, JobSettings.property, hget _ (by decide)]
  have hforce : ∀ location, JobSettings.property job' "force" location false Json.asBool
      = JobSettings.property job "force" location false Json.asBool := by
    intro location
    rw [JobSettings.property, JobSettings.property, hget _ (by decide)]
  have hneeds : ∀ location, readNeeds job' location = readNeeds job location :=
    fun location => readNeeds_of_get?_eq (hget _ (by decide))
  unfold JobSettings.ofJob
  simp only [hinputs.property_paths, hinputs'.property_paths, hinputs.property_extraKey,
    hinputs'.property_extraKey, houtputPaths, hforce, hneeds, hget "outputs" (by decide),
    withoutRepeats_eq_eraseDups, bind, Except.bind]
  -- from here on the same reads follow in both
  cases JobSettings.property job "output-paths" ("jobs." ++ name) [] Json.asStrings with
  | error e => rfl
  | ok outputPaths =>
    cases JobSettings.property job "force" ("jobs." ++ name) false Json.asBool with
    | error e => rfl
    | ok force =>
      cases readNeeds job ("jobs." ++ name) with
      | error e => rfl
      | ok needs => rfl

end

/-! ## Classification -/

/-- The jobs by kind, with other key inputs of the pipeline jobs with this name. -/
def Classified.rekeyed (name : Text) (paths : List Text) (extraKey : Text) (found : Classified) : Classified :=
  { found with pipeline := found.pipeline.map (Job.rekeyed name paths extraKey) }

section

variable {config : Configuration} {name : Text} {paths : List Text} {extraKey : Text}

theorem Classified.rekeyed_add (found : Classified) (job : Job) :
    ({ found with pipeline := found.pipeline ++ [job] } : Classified).rekeyed name paths extraKey
      = { found.rekeyed name paths extraKey with
          pipeline := (found.rekeyed name paths extraKey).pipeline ++ [job.rekeyed name paths extraKey] } := by
  simp [Classified.rekeyed]

/-- Other jobs are classified as before. -/
theorem classify_rekeyed_of_ne (found : Classified) {entry : Text × Json} (h : entry.1 ≠ name) :
    classify config (found.rekeyed name paths extraKey) entry
      = (classify config found entry).map (Classified.rekeyed name paths extraKey) := by
  obtain ⟨other, value⟩ := entry
  unfold classify
  simp only [bind, Except.bind]
  cases validateJobId other with
  | error e => rfl
  | ok valid =>
    by_cases hinit : other = config.initJobId
    · simp only [if_pos hinit]
      rfl
    · simp only [if_neg hinit]
      cases value.asObject ("jobs." ++ other) with
      | error e => rfl
      | ok fields =>
        by_cases hsteps : Object.contains fields "steps" = true
        · simp only [if_pos hsteps]
          cases JobSettings.ofJob other fields with
          | error e => rfl
          | ok settings =>
            have hjob : (⟨other, settings⟩ : Job).rekeyed name paths extraKey = ⟨other, settings⟩ :=
              Job.rekeyed_of_ne h
            simp only [Except.map, Classified.rekeyed_add, hjob]
        · simp only [if_neg hsteps]
          rfl

variable (config) in
/-- The job with the name is classified as before, with the other key inputs. -/
theorem classify_rekeyed_self {job job' : Object} (found : Classified)
    (hsteps : Object.contains job "steps" = true) (hsteps' : Object.contains job' "steps" = true)
    (hsettings : JobSettings.ofJob name job' = (JobSettings.ofJob name job).map
      fun settings => settings.withKeyInputs paths extraKey) :
    classify config (found.rekeyed name paths extraKey) (name, .object job')
      = (classify config found (name, .object job)).map (Classified.rekeyed name paths extraKey) := by
  unfold classify
  simp only [bind, Except.bind]
  cases validateJobId name with
  | error e => rfl
  | ok valid =>
    by_cases hinit : name = config.initJobId
    · simp only [if_pos hinit]
      rfl
    · simp only [if_neg hinit, Json.asObject, if_pos hsteps, if_pos hsteps', hsettings]
      cases JobSettings.ofJob name job with
      | error e => rfl
      | ok settings =>
        have hjob : (⟨name, settings⟩ : Job).rekeyed name paths extraKey
          = ⟨name, settings.withKeyInputs paths extraKey⟩ := Job.rekeyed_self rfl
        simp only [Except.map, Classified.rekeyed_add, hjob]

theorem foldlM_classify_rekeyed_of_not_mem {jobs : Object} (h : name ∉ jobs.keys) (found : Classified) :
    jobs.foldlM (classify config) (found.rekeyed name paths extraKey)
      = (jobs.foldlM (classify config) found).map (Classified.rekeyed name paths extraKey) := by
  induction jobs generalizing found with
  | nil => rfl
  | cons entry rest ih =>
    rw [Object.keys_cons, List.mem_cons, not_or] at h
    rw [List.foldlM_cons, List.foldlM_cons, classify_rekeyed_of_ne found (Ne.symm h.1)]
    cases classify config found entry with
    | error e => rfl
    | ok found' => exact ih h.2 found'

variable (config) in
/-- With other key inputs of a job the jobs are classified as before, or cannot be for the same reason. -/
theorem foldlM_classify_rekeyed {before after job job' : Object}
    (hd : Object.Distinct (before ++ (name, Json.object job) :: after))
    (hsteps : Object.contains job "steps" = true) (hsteps' : Object.contains job' "steps" = true)
    (hsettings : JobSettings.ofJob name job' = (JobSettings.ofJob name job).map
      fun settings => settings.withKeyInputs paths extraKey) :
    (before ++ (name, Json.object job') :: after).foldlM (classify config) {}
      = ((before ++ (name, Json.object job) :: after).foldlM (classify config) {}).map
        (Classified.rekeyed name paths extraKey) := by
  obtain ⟨hbefore, hafter⟩ := Object.not_mem_of_distinct hd
  have hstart : before.foldlM (classify config) {}
      = (before.foldlM (classify config) {}).map (Classified.rekeyed name paths extraKey) :=
    foldlM_classify_rekeyed_of_not_mem hbefore {}
  rw [List.foldlM_append, List.foldlM_append]
  cases hfound : before.foldlM (classify config) {} with
  | error e => rfl
  | ok found =>
    -- nothing before the job has its name, so the jobs found so far are the same in both
    have hsame : found = found.rekeyed name paths extraKey := by
      rw [hfound] at hstart
      exact Except.ok.inj hstart
    show List.foldlM (classify config) found ((name, .object job') :: after)
      = (List.foldlM (classify config) found ((name, .object job) :: after)).map _
    have hclassify := classify_rekeyed_self config found hsteps hsteps' hsettings
    rw [← hsame] at hclassify
    rw [List.foldlM_cons, List.foldlM_cons, hclassify]
    cases classify config found (name, .object job) with
    | error e => rfl
    | ok found' => exact foldlM_classify_rekeyed_of_not_mem hafter found'

end

/-! ## Compiled jobs -/

/-- What the author gives to a compiled job: steps with the outputs of dependencies renamed, the steps that
save the outputs, and the condition. -/
def authoredParts (name : Text) (job : Object) (graph : JobGraph) (config : Configuration)
    (outputs : Option Json) : Except Error (List Json × List Json × Option Text) := do
  let names := outputsRenaming config (graph.pipelineNeeds name)
  let steps ← authoredSteps name job
  let steps ← steps.mapM names.applyToValue
  let saving ← outputsSteps name outputs names
  let condition ← authoredCondition? name job
  .ok (steps, saving, condition)

/-- The properties of a compiled job besides its steps. -/
def assembledProperties (graph : JobGraph) (config : Configuration) (name : Text) (needs : List Text)
    (job : Object) (condition : Option Text) : Object :=
  Object.insertAll
    [("if", .string (gateText (gateClauses config name needs (graph.isForced name) condition))),
      ("needs", Json.ofTexts (config.initJobId :: needs))]
    (keptProperties job)

/-- The steps of a compiled job after its checkout. -/
def stepsAfterCheckout (graph : JobGraph) (config : Configuration) (name : Text) (settings : JobSettings)
    (authored saving : List Json) : List Json :=
  compressionSteps
    ++ ((graph.pipelineNeeds name).filter fun d => !d.settings.outputPaths.isEmpty).map (restoreStep config)
    ++ (readOutputsStep config (graph.pipelineNeeds name)).toList ++ authored
    ++ (saving ++ commitSteps graph config name settings)

section

variable {config : Configuration} {name : Text} {paths : List Text} {extraKey : Text} {graph : JobGraph}

theorem assembled_eq (settings : JobSettings) (job : Object) (authored saving : List Json)
    (condition : Option Text) :
    assembled graph config name settings job authored saving condition
      = (assembledProperties graph config name settings.needs job condition).insert "steps"
        (.array ((checkoutStep settings.paths).toList
          ++ stepsAfterCheckout graph config name settings authored saving)) := by
  simp only [assembled, assembledProperties, stepsBefore, stepsAfterCheckout, List.append_assoc]

theorem assemble_eq {job : Object} {settings : JobSettings} (hsettings : graph.get? name = some settings) :
    assemble name job graph config
      = (authoredParts name job graph config settings.outputs).map fun parts =>
        assembled graph config name settings job parts.1 parts.2.1 parts.2.2 := by
  have hsteps : ∀ authored saving, (checkoutStep settings.paths).toList ++ compressionSteps
      ++ ((graph.pipelineNeeds name).filter fun d => !d.settings.outputPaths.isEmpty).map (restoreStep config)
      ++ (readOutputsStep config (graph.pipelineNeeds name)).toList ++ authored ++ saving
      ++ (if !settings.outputPaths.isEmpty || !graph.isForced name then [commitStep config name settings]
        else [])
      = stepsBefore graph config name settings ++ authored
        ++ (saving ++ commitSteps graph config name settings) := by
    intro authored saving
    simp only [stepsBefore, commitSteps, List.append_assoc]
  rw [assemble, hsettings]
  unfold authoredParts
  simp only [bind, Except.bind, hsteps]
  cases authoredSteps name job with
  | error e => rfl
  | ok own =>
    dsimp only
    cases own.mapM (outputsRenaming config (graph.pipelineNeeds name)).applyToValue with
    | error e => rfl
    | ok authored =>
      dsimp only
      cases outputsSteps name settings.outputs (outputsRenaming config (graph.pipelineNeeds name)) with
      | error e => rfl
      | ok saving =>
        dsimp only
        cases authoredCondition? name job with
        | error e => rfl
        | ok condition => rfl

theorem outputsRenaming_rekeyed (jobs : List Job) :
    outputsRenaming config (jobs.map (Job.rekeyed name paths extraKey)) = outputsRenaming config jobs := by
  rw [outputsRenaming, outputsRenaming, List.map_map]
  refine List.map_congr_left fun job _ => ?_
  simp only [Function.comp_apply, Job.name_rekeyed, Job.outputs_rekeyed]

theorem readOutputsStep_rekeyed (jobs : List Job) :
    readOutputsStep config (jobs.map (Job.rekeyed name paths extraKey)) = readOutputsStep config jobs := by
  have hwith : (jobs.map (Job.rekeyed name paths extraKey)).filter (·.settings.outputs.isSome)
      = (jobs.filter (·.settings.outputs.isSome)).map (Job.rekeyed name paths extraKey) := by
    rw [List.filter_map]
    simp only [Function.comp_def, Job.outputs_rekeyed]
  unfold readOutputsStep
  simp only [hwith, List.isEmpty_map, List.flatMap_map, Job.name_rekeyed]

theorem restoreSteps_rekeyed (jobs : List Job) :
    ((jobs.map (Job.rekeyed name paths extraKey)).filter fun d => !d.settings.outputPaths.isEmpty).map
        (restoreStep config)
      = (jobs.filter fun d => !d.settings.outputPaths.isEmpty).map (restoreStep config) := by
  rw [List.filter_map, List.map_map]
  simp only [Function.comp_def, Job.outputPaths_rekeyed]
  refine List.map_congr_left fun job _ => ?_
  simp only [restoreStep, Job.name_rekeyed, Job.outputPaths_rekeyed]

/-- What the author gives to a job does not depend on key inputs, neither on those of its dependencies nor
on its own. -/
theorem authoredParts_rekeyed {other : Text} {job job' : Object}
    (hsame : withoutKeyInputs job' = withoutKeyInputs job) (outputs : Option Json) :
    authoredParts other job' (graph.rekeyed name paths extraKey) config outputs
      = authoredParts other job graph config outputs := by
  have hget : ∀ key, key ∉ keyInputProperties → job'.get? key = job.get? key :=
    fun key hkey => get?_eq_of_withoutKeyInputs_eq hsame hkey
  have hsteps : authoredSteps other job' = authoredSteps other job := by
    unfold authoredSteps Object.require
    rw [hget "runs-on" (by decide), hget "steps" (by decide)]
  have hcondition : authoredCondition? other job' = authoredCondition? other job := by
    unfold authoredCondition?
    rw [hget "if" (by decide)]
  unfold authoredParts
  rw [hsteps, hcondition, JobGraph.pipelineNeeds_rekeyed, outputsRenaming_rekeyed]

theorem keptProperties_withoutKeyInputs (job : Object) :
    keptProperties (withoutKeyInputs job) = keptProperties job := by
  rw [keptProperties, keptProperties, withoutKeyInputs, List.filter_filter]
  refine List.filter_congr fun entry _ => ?_
  rw [Bool.and_eq_left_iff_imp]
  intro hkept
  simp [settingsProperties, keyInputProperties] at hkept ⊢
  tauto

theorem assembledProperties_rekeyed {other : Text} {job job' : Object}
    (hsame : withoutKeyInputs job' = withoutKeyInputs job) (needs : List Text) (condition : Option Text) :
    assembledProperties (graph.rekeyed name paths extraKey) config other needs job' condition
      = assembledProperties graph config other needs job condition := by
  have hkept : keptProperties job' = keptProperties job := by
    rw [← keptProperties_withoutKeyInputs, hsame, keptProperties_withoutKeyInputs]
  rw [assembledProperties, assembledProperties, JobGraph.isForced_rekeyed, hkept]

theorem stepsAfterCheckout_rekeyed (other : Text) (settings : JobSettings) (authored saving : List Json) :
    stepsAfterCheckout (graph.rekeyed name paths extraKey) config other settings authored saving
      = stepsAfterCheckout graph config other settings authored saving := by
  unfold stepsAfterCheckout commitSteps
  rw [JobGraph.pipelineNeeds_rekeyed, JobGraph.isForced_rekeyed, restoreSteps_rekeyed,
    readOutputsStep_rekeyed]

/-- Other jobs are compiled as before. -/
theorem compileJob_rekeyed_of_ne {entry : Text × Json} (h : entry.1 ≠ name) :
    compileJob (graph.rekeyed name paths extraKey) config entry = compileJob graph config entry := by
  obtain ⟨other, value⟩ := entry
  have hget : (graph.rekeyed name paths extraKey).get? other = graph.get? other := by
    rw [JobGraph.get?_rekeyed]
    simp [show other ≠ name from h]
  have hassemble : ∀ job, assemble other job (graph.rekeyed name paths extraKey) config
      = assemble other job graph config := by
    intro job
    cases hsettings : graph.get? other with
    | none => rw [assemble, assemble, hget, hsettings]
    | some settings =>
      rw [assemble_eq (hget.trans hsettings), assemble_eq hsettings, authoredParts_rekeyed rfl]
      simp only [assembled_eq, assembledProperties_rekeyed rfl, stepsAfterCheckout_rekeyed]
  unfold compileJob
  simp only [JobGraph.contains_rekeyed, hassemble]

theorem compileJob_object (hcontains : graph.contains name = true) (job : Object) :
    compileJob graph config (name, .object job)
      = (assemble name job graph config).map fun compiled => (name, .object compiled) := by
  unfold compileJob
  simp only [hcontains, if_true, Json.asObject, bind, Except.bind]
  cases assemble name job graph config with
  | error e => rfl
  | ok compiled => rfl

/-- The compiled job with its checkout in front of its other steps. -/
def compiledJob (name : Text) (properties : Object) (checkout : Option Json) (steps : List Json) :
    Text × Json :=
  (name, .object (properties.insert "steps" (.array (checkout.toList ++ steps))))

/-- With other key inputs a job is compiled into one with another checkout, or cannot be compiled for the
same reason. -/
theorem compileJob_rekeyed_self {job job' : Object} {settings : JobSettings}
    (hcontains : graph.contains name = true) (hsettings : graph.get? name = some settings)
    (hsame : withoutKeyInputs job' = withoutKeyInputs job) :
    Agrees (fun entry entry' => ∃ properties steps,
        entry = compiledJob name properties (checkoutStep settings.paths) steps ∧
        entry' = compiledJob name properties (checkoutStep paths) steps)
      (compileJob graph config (name, .object job))
      (compileJob (graph.rekeyed name paths extraKey) config (name, .object job')) := by
  have hsettings' : (graph.rekeyed name paths extraKey).get? name
      = some (settings.withKeyInputs paths extraKey) := by
    rw [JobGraph.get?_rekeyed, hsettings, Option.map_some, if_pos rfl]
  have hparts : authoredParts name job' (graph.rekeyed name paths extraKey) config
        (settings.withKeyInputs paths extraKey).outputs
      = authoredParts name job graph config settings.outputs := authoredParts_rekeyed hsame _
  rw [compileJob_object hcontains, compileJob_object ((JobGraph.contains_rekeyed graph name).trans hcontains),
    assemble_eq hsettings, assemble_eq hsettings', hparts]
  cases authoredParts name job graph config settings.outputs with
  | error e => exact .error e
  | ok parts =>
    obtain ⟨authored, saving, condition⟩ := parts
    refine .ok ⟨assembledProperties graph config name settings.needs job condition,
      stepsAfterCheckout graph config name settings authored saving, ?_, ?_⟩
    · dsimp only
      rw [assembled_eq]
      rfl
    · dsimp only
      rw [assembled_eq, assembledProperties_rekeyed hsame, stepsAfterCheckout_rekeyed]
      rfl

end

/-! ## The initialization job -/

section

variable {config : Configuration} {graph : JobGraph} {passthrough : List Text}

theorem checkSteps_rekeyed (name : Text) (paths : List Text) (extraKey : Text) :
    (checkedJobs (graph.rekeyed name paths extraKey)).map (checkStep config)
      = (checkedJobs graph).map (checkStep config) := by
  unfold checkedJobs
  simp only [JobGraph.isForced_rekeyed]
  rw [JobGraph.rekeyed, List.filter_map, List.map_map]
  simp only [Function.comp_def, Job.name_rekeyed]
  refine List.map_congr_left fun job _ => ?_
  simp only [checkStep, Job.name_rekeyed, Job.outputPaths_rekeyed]

theorem initOutputs_rekeyed (name : Text) (paths : List Text) (extraKey : Text) :
    initOutputs (graph.rekeyed name paths extraKey) config = initOutputs graph config := by
  have hchecked : checkedJobs (graph.rekeyed name paths extraKey)
      = (checkedJobs graph).map (Job.rekeyed name paths extraKey) := by
    unfold checkedJobs
    simp only [JobGraph.isForced_rekeyed]
    rw [JobGraph.rekeyed, List.filter_map]
    simp only [Function.comp_def, Job.name_rekeyed]
  unfold initOutputs
  rw [hchecked, JobGraph.rekeyed]
  simp only [List.map_map, Function.comp_def, Job.name_rekeyed]

variable (config) in
/-- With other key inputs of a job the initialization job differs in the suffix of one key. -/
theorem exists_initEntries_rekeyed (hbuilt : graph.Built passthrough)
    (hnames : (graph.jobs.map Job.name).Nodup) {job : Job} (hjob : job ∈ graph.jobs) :
    ∃ before after checks outputs,
      initEntries graph config = [(config.initJobId, initJobOf config
        (before ++ ⟨job.name, KeySuffix.ofJob graph job.name⟩ :: after) checks outputs)] ∧
      ∀ paths extraKey, initEntries (graph.rekeyed job.name paths extraKey) config
        = [(config.initJobId, initJobOf config (before
            ++ ⟨job.name, KeySuffix.ofJob (graph.rekeyed job.name paths extraKey) job.name⟩ :: after)
          checks outputs)] := by
  have hne : graph.isEmpty = false := by
    cases hempty : graph.isEmpty with
    | false => rfl
    | true =>
      rw [List.isEmpty_iff.mp hempty] at hjob
      cases hjob
  obtain ⟨before, after, hkeys, hrekeyed⟩ :=
    exists_keyAssignments_rekeyed (hbuilt.nodup_topological hnames) (hbuilt.mem_topological.mpr hjob)
  refine ⟨before, after, (checkedJobs graph).map (checkStep config), initOutputs graph config, ?_, ?_⟩
  · rw [initEntries, hne, if_neg Bool.false_ne_true, initJob_eq, hkeys]
  · intro paths extraKey
    rw [initEntries, JobGraph.isEmpty_rekeyed, hne, if_neg Bool.false_ne_true, initJob_eq, hrekeyed,
      checkSteps_rekeyed, initOutputs_rekeyed]

end

/-! ## Documents -/

/-- The stages in which a document with these jobs is compiled. -/
theorem compile_eq {document jobs : Object} {config : Configuration}
    (hjobs : document.get? "jobs" = some (.object jobs)) :
    compile document config = (do
      validateJobId config.initJobId
      let found ← jobs.foldlM (classify config) {}
      let graph ← JobGraph.ofJobs found.pipeline found.passthrough
      let compiled ← jobs.mapM (compileJob graph config)
      .ok ((stripCallTrigger document).insert "jobs"
        (.object (initEntries graph config ++ compiled)))) := by
  have hstripped : (stripCallTrigger document).require "jobs" "top level" = .ok (.object jobs) := by
    rw [Object.require_eq_ok, get?_jobs_stripCallTrigger, hjobs]
  rw [compile, hstripped]
  rfl

/-- With other key inputs of a job the jobs are compiled into the same ones, apart from the checkout of this
job, or cannot be compiled for the same reason. -/
theorem compileJobs_rekeyed {before after job job' : Object} {name : Text} {config : Configuration}
    {graph : JobGraph} {settings : JobSettings} {paths : List Text} {extraKey : Text}
    (hd : Object.Distinct (before ++ (name, .object job) :: after)) (hcontains : graph.contains name = true)
    (hsettings : graph.get? name = some settings) (hsame : withoutKeyInputs job' = withoutKeyInputs job) :
    Agrees (fun compiled compiled' => ∃ front back properties steps,
        compiled = front ++ compiledJob name properties (checkoutStep settings.paths) steps :: back ∧
        compiled' = front ++ compiledJob name properties (checkoutStep paths) steps :: back)
      ((before ++ (name, .object job) :: after).mapM (compileJob graph config))
      ((before ++ (name, .object job') :: after).mapM
        (compileJob (graph.rekeyed name paths extraKey) config)) := by
  obtain ⟨hbefore, hafter⟩ := Object.not_mem_of_distinct hd
  have hother : ∀ jobs : Object, name ∉ jobs.keys → ∀ entry ∈ jobs,
      compileJob (graph.rekeyed name paths extraKey) config entry = compileJob graph config entry := by
    intro jobs hjobs entry hentry
    exact compileJob_rekeyed_of_ne fun heq => hjobs (heq ▸ Object.mem_keys_of_mem hentry)
  refine (Agrees.mapM_split (hother before hbefore) (hother after hafter)
    (compileJob_rekeyed_self hcontains hsettings hsame)).mono ?_
  rintro _ _ ⟨front, back, _, _, ⟨properties, steps, rfl, rfl⟩, rfl, rfl⟩
  exact ⟨front, back, properties, steps, rfl, rfl⟩

/-- What a workflow consists of besides the key suffix and the checkout of one job. -/
structure Remainder where
  /-- The document that the jobs are put into. -/
  document : Object
  /-- The assignments of the key script before the one of the job. -/
  assignmentsBefore : List KeyAssignment
  assignmentsAfter : List KeyAssignment
  /-- The steps of the initialization job that check the cache. -/
  checks : List Json
  /-- The outputs of the initialization job. -/
  outputs : Object
  /-- The compiled jobs before the job. -/
  jobsBefore : Object
  jobsAfter : Object
  /-- The properties of the compiled job besides its steps. -/
  properties : Object
  /-- The steps of the compiled job after its checkout. -/
  steps : List Json

/-- The workflow in which the job has this key suffix and this checkout. -/
def Remainder.workflow (rest : Remainder) (config : Configuration) (name : Text) (suffix : KeySuffix)
    (checkout : Option Json) : Object :=
  rest.document.insert "jobs" (.object
    ((config.initJobId, initJobOf config (rest.assignmentsBefore ++ ⟨name, suffix⟩ :: rest.assignmentsAfter)
        rest.checks rest.outputs)
      :: (rest.jobsBefore ++ compiledJob name rest.properties checkout rest.steps :: rest.jobsAfter)))

/-- The key inputs of a job decide the suffix of its key and its checkout, and nothing else. With other key
inputs of a job a document fails to compile for the same reason, or is compiled into a workflow that differs
in these two places. The suffix of a forced job is a random number anyway. -/
theorem compile_confines_keyInputs {document before after job job' : Object} {name : Text}
    {config : Configuration} {paths paths' : List Text} {extraKey extraKey' : Text}
    (hjobs : document.get? "jobs" = some (.object (before ++ (name, .object job) :: after)))
    (hd : Object.Distinct (before ++ (name, .object job) :: after))
    (hsteps : Object.contains job "steps" = true) (hsame : withoutKeyInputs job' = withoutKeyInputs job)
    (hinputs : HasKeyInputs job paths extraKey) (hinputs' : HasKeyInputs job' paths' extraKey') :
    Agrees (fun workflow workflow' => ∃ found graph rest suffix suffix',
        (before ++ (name, .object job) :: after).foldlM (classify config) {} = .ok found ∧
        JobGraph.ofJobs found.pipeline found.passthrough = .ok graph ∧
        workflow = Remainder.workflow rest config name suffix (checkoutStep paths.eraseDups) ∧
        workflow' = Remainder.workflow rest config name suffix' (checkoutStep paths'.eraseDups) ∧
        (graph.isForced name = true → suffix = .nonce ∧ suffix' = .nonce) ∧
        (graph.isForced name = false → ∃ needs,
          suffix = .hash (paths.eraseDups.map PathPiece.ofPath) needs extraKey ∧
          suffix' = .hash (paths'.eraseDups.map PathPiece.ofPath) needs extraKey'))
      (compile document config)
      (compile (document.insert "jobs" (.object (before ++ (name, .object job') :: after))) config) := by
  have hsteps' : Object.contains job' "steps" = true := by
    rw [Object.contains, get?_eq_of_withoutKeyInputs_eq hsame (by decide)]
    exact hsteps
  have hclassify := foldlM_classify_rekeyed config hd hsteps hsteps'
    (ofJob_rekeyed hsame hinputs hinputs' name)
  rw [compile_eq hjobs, compile_eq (Object.get?_insert_self _ _ _), hclassify,
    stripCallTrigger_insert_jobs (Object.mem_keys_of_get? hjobs)]
  refine (agrees_self _).bind fun _ _ _ _ => ?_
  refine (agrees_map _ _).bind fun found _ hfound hfound' => ?_
  cases hfound'
  have hgraphs : JobGraph.ofJobs (found.rekeyed name paths'.eraseDups extraKey').pipeline found.passthrough
      = (JobGraph.ofJobs found.pipeline found.passthrough).map
        (JobGraph.rekeyed name paths'.eraseDups extraKey') :=
    JobGraph.ofJobs_rekeyed found.pipeline found.passthrough
  have hpassthrough : (found.rekeyed name paths'.eraseDups extraKey').passthrough = found.passthrough := rfl
  rw [hpassthrough, hgraphs]
  refine (agrees_map _ _).bind fun graph _ hgraph hgraph' => ?_
  cases hgraph'
  -- the job is one of the graph, with its key inputs as settings
  have hsorts := sorts_of_foldlM hfound
  obtain ⟨hgraphjobs, hbuilt⟩ := JobGraph.built_of_ofJobs hgraph
  have hnames : (graph.jobs.map Job.name).Nodup := hgraphjobs ▸ hsorts.nodup hd
  have hmem : (name, Json.object job) ∈ before ++ (name, .object job) :: after :=
    List.mem_append_right _ List.mem_cons_self
  obtain ⟨settings, hsettings, hjob⟩ := hsorts.exists_mem_graph hgraphjobs hmem hsteps
  obtain ⟨hpaths, hextraKey⟩ := hinputs.of_ofJob hsettings
  have hget : graph.get? name = some settings := JobGraph.Built.get?_eq hnames hjob
  have hcontains : graph.contains name = true := JobGraph.contains_iff.mpr ⟨_, hjob, rfl⟩
  have hsuffixes := KeySuffix.ofJob_keyInputs hget paths'.eraseDups extraKey'
  rw [hpaths, hextraKey] at hsuffixes
  refine (compileJobs_rekeyed hd hcontains hget hsame).bind fun compiled compiled' _ hcompiled => ?_
  obtain ⟨front, back, properties, steps, rfl, rfl⟩ := hcompiled
  obtain ⟨assignmentsBefore, assignmentsAfter, checks, outputs, hinit, hinit'⟩ :=
    exists_initEntries_rekeyed config hbuilt hnames hjob
  refine .ok ⟨found, graph, ⟨stripCallTrigger document, assignmentsBefore, assignmentsAfter, checks, outputs,
    front, back, properties, steps⟩, KeySuffix.ofJob graph name,
    KeySuffix.ofJob (graph.rekeyed name paths'.eraseDups extraKey') name, hfound, hgraph, ?_, ?_,
    hsuffixes⟩
  · rw [hinit, hpaths]
    rfl
  · rw [hinit', Object.insert_insert]
    rfl

/-- The build of the delivery. -/
def deliveryBuild : Object := [
  ("runs-on", .string "linux"), ("paths", Json.ofTexts ["src/"]),
  ("outputs", .object [("file", .string "app")]), ("name", .string "Build"),
  ("steps", .array [.object [("run", .string "make")]])]

/-- The build of the delivery with another path and an extra key. -/
def extendedBuild : Object := [
  ("extra-key", .string "v2"), ("runs-on", .string "linux"), ("outputs", .object [("file", .string "app")]),
  ("name", .string "Build"), ("steps", .array [.object [("run", .string "make")]]),
  ("paths", Json.ofTexts ["src/", "lib/", "src/"])]

/-- Its key and its checkout are all that changes in the workflow. -/
theorem compile_confines_keyInputs_deliveryDocument : ∃ workflow workflow' rest needs,
    compile deliveryDocument {} = .ok workflow ∧
    compile (deliveryDocument.insert "jobs" (.object (deliveryJobs.insert "build" (.object extendedBuild)))) {}
      = .ok workflow' ∧
    workflow = Remainder.workflow rest {} "build" (.hash [[.fixed "src"]] needs [])
      (checkoutStep ["src/"]) ∧
    workflow' = Remainder.workflow rest {} "build" (.hash [[.fixed "src"], [.fixed "lib"]] needs "v2")
      (checkoutStep ["src/", "lib/"]) := by
  have hok : (compile deliveryDocument {}).toBool = true := by decide +kernel
  obtain ⟨workflow, h⟩ := toBool_eq_true.mp hok
  have hsame : withoutKeyInputs extendedBuild = withoutKeyInputs deliveryBuild := rfl
  have hinputs : HasKeyInputs deliveryBuild ["src/"] [] := ⟨rfl, rfl⟩
  have hinputs' : HasKeyInputs extendedBuild ["src/", "lib/", "src/"] "v2" := ⟨rfl, rfl⟩
  have hjobs : deliveryDocument.get? "jobs"
      = some (.object (deliveryJobs.take 1 ++ (("build" : Text), Json.object deliveryBuild)
        :: deliveryJobs.drop 2)) := rfl
  have hagrees : Agrees _ (compile deliveryDocument {}) _ :=
    compile_confines_keyInputs hjobs (by decide) (by decide) hsame hinputs hinputs'
  have hunforced : ((deliveryJobs.foldlM (classify {}) {}).bind fun found =>
      JobGraph.ofJobs found.pipeline found.passthrough).toOption.map (·.isForced "build") = some false := by
    decide +kernel
  rw [h] at hagrees
  obtain ⟨workflow', h', found, graph, rest, suffix, suffix', hfound, hgraph, hworkflow, hworkflow', -,
    hsuffixes⟩ := hagrees.exists_of_ok
  have hforced : graph.isForced "build" = false := by
    have hfound' : deliveryJobs.foldlM (classify {}) {} = .ok found := hfound
    rw [hfound'] at hunforced
    simpa [Except.bind, hgraph, Except.toOption] using hunforced
  obtain ⟨needs, rfl, rfl⟩ := hsuffixes hforced
  exact ⟨workflow, workflow', rest, needs, h, h', hworkflow, hworkflow'⟩

end CachedWorkflow
