import CachedWorkflow.Proofs.Workflow.Gate
import CachedWorkflow.Proofs.Workflow.InitJob
import CachedWorkflow.Workflow.PipelineJob

/-!
# Proofs: compiled pipeline jobs

A compiled job has the steps of the author between two lists of generated ones (`assemble_eq_ok`).
Among these the steps that restore and save caches are known by their names (`eq_restoreStep`,
`eq_commitStep`), and all that they refer to is the key of a job (`refersTo_cacheStep`).
-/

namespace CachedWorkflow

/-- The step has the name. -/
def IsNamed (step : Json) (name : Text) : Prop := step.member? "name" = some (.string name)

/-- The paths that a step of the cache action works on. -/
def stepPaths (step : Json) : Option Json := step.at? [.member "with", .member "path"]

/-- The key that a step of the cache action works with. -/
def stepKey (step : Json) : Option Json := step.at? [.member "with", .member "key"]

/-! ## Generated steps -/

/-- The steps before those of the author. -/
def stepsBefore (graph : JobGraph) (config : Configuration) (name : Text) (settings : JobSettings) :
    List Json :=
  (checkoutStep settings.paths).toList ++ compressionSteps
    ++ ((graph.pipelineNeeds name).filter fun d => !d.settings.outputPaths.isEmpty).map
      (restoreStep config)
    ++ (readOutputsStep config (graph.pipelineNeeds name)).toList

/-- The step after all others, unless there is nothing to save. -/
def commitSteps (graph : JobGraph) (config : Configuration) (name : Text) (settings : JobSettings) :
    List Json :=
  if !settings.outputPaths.isEmpty || !graph.isForced name then [commitStep config name settings]
  else []

theorem isNamed_outputsSteps {job : Text} {outputs : Option Json} {names : Renaming}
    {saving : List Json} (h : outputsSteps job outputs names = .ok saving) :
    ∀ step ∈ saving, IsNamed step "Save outputs" := by
  cases outputs with
  | none => cases h; simp
  | some outputs =>
    obtain ⟨renamed, -, h⟩ := bind_eq_ok.mp h
    obtain ⟨step, hstep, h⟩ := bind_eq_ok.mp h
    obtain ⟨template, -, hstep⟩ := bind_eq_ok.mp hstep
    cases h
    cases hstep
    intro step hmem
    rw [List.mem_singleton.mp hmem]
    rfl

/-- The gate and the needs of a compiled job are not those of the author. -/
theorem not_mem_keptProperties {job : Object} {key : Text} (h : key = "if" ∨ key = "needs") :
    key ∉ Object.keys (keptProperties job) := by
  intro hmem
  obtain ⟨entry, hentry, rfl⟩ := List.mem_map.mp hmem
  rw [keptProperties, List.mem_filter] at hentry
  rcases h with h | h <;> simp [h] at hentry

section

variable {name : Text} {job compiled : Object} {graph : JobGraph} {config : Configuration}
  {settings : JobSettings}

/-- The compiled job around the steps of the author, the steps that save its outputs, and the condition
of the author. -/
def assembled (graph : JobGraph) (config : Configuration) (name : Text) (settings : JobSettings)
    (job : Object) (authored saving : List Json) (condition : Option Text) : Object :=
  Object.insert
    (Object.insertAll
      [("if", .string (gateText (gateClauses config name settings.needs (graph.isForced name) condition))),
        ("needs", Json.ofTexts (config.initJobId :: settings.needs))]
      (keptProperties job))
    "steps" (.array (stepsBefore graph config name settings ++ authored
      ++ (saving ++ commitSteps graph config name settings)))

/-- The stages in which a pipeline job is compiled. -/
theorem assemble_stages (hsettings : graph.get? name = some settings) :
    assemble name job graph config = .ok compiled ↔
      ∃ own authored saving condition, authoredSteps name job = .ok own ∧
        own.mapM (outputsRenaming config (graph.pipelineNeeds name)).applyToValue = .ok authored ∧
        outputsSteps name settings.outputs (outputsRenaming config (graph.pipelineNeeds name))
          = .ok saving ∧
        authoredCondition? name job = .ok condition ∧
        compiled = assembled graph config name settings job authored saving condition := by
  have hresult : ∀ authored saving condition,
      Object.insert (Object.insertAll
        [("if", Json.string (gateText
            (gateClauses config name settings.needs (graph.isForced name) condition))),
          ("needs", Json.ofTexts (config.initJobId :: settings.needs))] (keptProperties job))
        "steps" (.array ((checkoutStep settings.paths).toList ++ compressionSteps
          ++ ((graph.pipelineNeeds name).filter fun d => !d.settings.outputPaths.isEmpty).map
            (restoreStep config)
          ++ (readOutputsStep config (graph.pipelineNeeds name)).toList ++ authored ++ saving
          ++ (if !settings.outputPaths.isEmpty || !graph.isForced name
            then [commitStep config name settings] else [])))
      = assembled graph config name settings job authored saving condition := by
    intro authored saving condition
    simp only [assembled, stepsBefore, commitSteps, List.append_assoc]
  rw [assemble, hsettings]
  constructor
  · intro h
    obtain ⟨own, hown, h⟩ := bind_eq_ok.mp h
    obtain ⟨authored, hauthored, h⟩ := bind_eq_ok.mp h
    obtain ⟨saving, hsaving, h⟩ := bind_eq_ok.mp h
    obtain ⟨condition, hcondition, h⟩ := bind_eq_ok.mp h
    cases h
    exact ⟨own, authored, saving, condition, hown, hauthored, hsaving, hcondition, hresult _ _ _⟩
  · rintro ⟨own, authored, saving, condition, hown, hauthored, hsaving, hcondition, rfl⟩
    refine bind_eq_ok.mpr ⟨own, hown, bind_eq_ok.mpr ⟨authored, hauthored, ?_⟩⟩
    refine bind_eq_ok.mpr ⟨saving, hsaving, bind_eq_ok.mpr ⟨condition, hcondition, ?_⟩⟩
    exact congrArg Except.ok (hresult _ _ _)

theorem checkSteps_eq_ok {location : Text} {index : Nat} {steps : List Json} :
    checkSteps location index steps = .ok () ↔ ∀ step ∈ steps, ∃ fields, step = .object fields := by
  induction steps generalizing index with
  | nil => exact iff_of_true rfl (by simp)
  | cons step rest ih =>
    rw [checkSteps, bind_eq_ok, List.forall_mem_cons]
    constructor
    · rintro ⟨fields, hfields, hrest⟩
      exact ⟨⟨fields, Json.asObject_eq_ok.mp hfields⟩, ih.mp hrest⟩
    · rintro ⟨⟨fields, hfields⟩, hrest⟩
      exact ⟨fields, Json.asObject_eq_ok.mpr hfields, ih.mpr hrest⟩

/-- The author has to give a job a runner and an array of objects as its steps. -/
theorem authoredSteps_eq_ok {own : List Json} :
    authoredSteps name job = .ok own ↔ (∃ runner, job.get? "runs-on" = some runner) ∧
      job.get? "steps" = some (.array own) ∧ ∀ step ∈ own, ∃ fields, step = .object fields := by
  constructor
  · intro h
    obtain ⟨runner, hrunner, h⟩ := bind_eq_ok.mp h
    obtain ⟨value, hvalue, h⟩ := bind_eq_ok.mp h
    obtain ⟨items, hitems, h⟩ := bind_eq_ok.mp h
    obtain ⟨⟨⟩, hsteps, h⟩ := bind_eq_ok.mp h
    cases h
    rw [Json.asArray_eq_ok.mp hitems] at hvalue
    exact ⟨⟨runner, Object.require_eq_ok.mp hrunner⟩, Object.require_eq_ok.mp hvalue,
      checkSteps_eq_ok.mp hsteps⟩
  · rintro ⟨⟨runner, hrunner⟩, hvalue, hsteps⟩
    refine bind_eq_ok.mpr ⟨runner, Object.require_eq_ok.mpr hrunner, ?_⟩
    refine bind_eq_ok.mpr ⟨.array own, Object.require_eq_ok.mpr hvalue, ?_⟩
    exact bind_eq_ok.mpr ⟨own, rfl, bind_eq_ok.mpr ⟨(), checkSteps_eq_ok.mpr hsteps, rfl⟩⟩

/-- What a compiled job consists of. -/
theorem assemble_eq_ok (hsettings : graph.get? name = some settings)
    (h : assemble name job graph config = .ok compiled) :
    ∃ own authored saving condition, job.get? "steps" = some (.array own) ∧
      own.mapM (outputsRenaming config (graph.pipelineNeeds name)).applyToValue = .ok authored ∧
      authoredCondition? name job = .ok condition ∧
      outputsSteps name settings.outputs (outputsRenaming config (graph.pipelineNeeds name))
        = .ok saving ∧
      compiled.get? "steps" = some (.array (stepsBefore graph config name settings ++ authored
        ++ (saving ++ commitSteps graph config name settings))) ∧
      compiled.get? "if" = some (.string (gateText
        (gateClauses config name settings.needs (graph.isForced name) condition))) := by
  obtain ⟨own, authored, saving, condition, hown, hauthored, hsaving, hcondition, rfl⟩ :=
    (assemble_stages hsettings).mp h
  refine ⟨own, authored, saving, condition, (authoredSteps_eq_ok.mp hown).2.1, hauthored, hcondition, hsaving,
    Object.get?_insert_self _ _ _, ?_⟩
  rw [assembled, Object.get?_insert_of_ne _ _ (by decide),
    Object.get?_insertAll_of_not_mem (not_mem_keptProperties (.inl rfl))]
  rfl

/-- A compiled job has the defaults of the job. -/
theorem get?_defaults_assemble (hsettings : graph.get? name = some settings) (hd : job.Distinct)
    (h : assemble name job graph config = .ok compiled) : compiled.get? "defaults" = job.get? "defaults" := by
  obtain ⟨own, authored, saving, condition, -, -, -, -, rfl⟩ := (assemble_stages hsettings).mp h
  have hdkept : Object.Distinct (keptProperties job) := hd.filter _
  have hkept : Object.get? (keptProperties job) "defaults" = job.get? "defaults" :=
    Object.get?_filter (p := fun key => key ≠ "if" && key ≠ "needs" && !settingsProperties.contains key)
      (by decide) job
  rw [assembled, Object.get?_insert_of_ne _ _ (by decide)]
  by_cases hmem : ("defaults" : Text) ∈ Object.keys (keptProperties job)
  · rw [Object.get?_insertAll_of_mem hdkept hmem, hkept]
  · rw [Object.get?_insertAll_of_not_mem hmem, ← hkept, Object.get?_eq_none_iff.mpr hmem]
    rfl

/-- A compiled job needs the initialization job, and then what it needs by its settings. -/
theorem needs_of_assemble (hsettings : graph.get? name = some settings)
    (h : assemble name job graph config = .ok compiled) :
    compiled.get? "needs" = some (Json.ofTexts (config.initJobId :: settings.needs)) := by
  obtain ⟨own, authored, saving, condition, -, -, -, -, rfl⟩ := (assemble_stages hsettings).mp h
  rw [assembled, Object.get?_insert_of_ne _ _ (by decide),
    Object.get?_insertAll_of_not_mem (not_mem_keptProperties (.inr rfl))]
  rfl

end

/-! ## Steps that restore and save -/

/-- The names of the generated steps that have nothing to do with the cache. -/
def otherStepNames : List Text :=
  ["Git clone", "Use GNU tar instead BSD tar", "Check zstd on PATH", "Read outputs", "Save outputs"]

theorem IsNamed.inj {step : Json} {name other : Text} (h : IsNamed step name)
    (h' : IsNamed step other) : name = other :=
  Json.string.inj (Option.some.inj (h.symm.trans h'))

theorem isNamed_checkoutStep {paths : List Text} {step : Json}
    (h : step ∈ (checkoutStep paths).toList) : IsNamed step "Git clone" := by
  by_cases hempty : paths.isEmpty = true
  · simp [checkoutStep, hempty] at h
  · simp only [checkoutStep, hempty, Bool.false_eq_true, if_false, Option.toList_some,
      List.mem_singleton] at h
    rw [h]
    rfl

theorem isNamed_readOutputsStep {config : Configuration} {dependencies : List Job} {step : Json}
    (h : step ∈ (readOutputsStep config dependencies).toList) : IsNamed step "Read outputs" := by
  by_cases hempty : (dependencies.filter (·.settings.outputs.isSome)).isEmpty = true
  · simp [readOutputsStep, hempty] at h
  · simp only [readOutputsStep, hempty, Bool.false_eq_true, if_false, Option.toList_some,
      List.mem_singleton] at h
    rw [h]
    rfl

/-- The generated steps of a compiled job. -/
theorem mem_generatedSteps {graph : JobGraph} {config : Configuration} {name : Text}
    {settings : JobSettings} {saving : List Json}
    (hsaving : ∀ step ∈ saving, IsNamed step "Save outputs") {step : Json}
    (hstep : step ∈ stepsBefore graph config name settings
      ++ (saving ++ commitSteps graph config name settings)) :
    (∃ other ∈ otherStepNames, IsNamed step other) ∨
      (∃ dependency ∈ graph.pipelineNeeds name, step = restoreStep config dependency) ∨
      step = commitStep config name settings := by
  unfold stepsBefore at hstep
  simp only [List.mem_append] at hstep
  rcases hstep with (((hclone | hcompression) | hrestore) | hread) | hsave | hcommit
  · exact .inl ⟨"Git clone", by simp [otherStepNames], isNamed_checkoutStep hclone⟩
  · rcases List.mem_cons.mp hcompression with rfl | hzstd
    · exact .inl ⟨"Use GNU tar instead BSD tar", by simp [otherStepNames], rfl⟩
    · obtain rfl := List.mem_singleton.mp hzstd
      exact .inl ⟨"Check zstd on PATH", by simp [otherStepNames], rfl⟩
  · obtain ⟨dependency, hmem, rfl⟩ := List.mem_map.mp hrestore
    exact .inr (.inl ⟨dependency, (List.mem_filter.mp hmem).1, rfl⟩)
  · exact .inl ⟨"Read outputs", by simp [otherStepNames], isNamed_readOutputsStep hread⟩
  · exact .inl ⟨"Save outputs", by simp [otherStepNames], hsaving step hsave⟩
  · unfold commitSteps at hcommit
    split at hcommit
    · exact .inr (.inr (List.mem_singleton.mp hcommit))
    · cases hcommit

theorem isNamed_restoreStep (config : Configuration) (dependency : Job) :
    IsNamed (restoreStep config dependency) ("Restore " ++ dependency.name) := rfl

theorem isNamed_commitStep (config : Configuration) (name : Text) (settings : JobSettings) :
    IsNamed (commitStep config name settings) "Commit build" := rfl

theorem restore_ne_commit (name : Text) : ("Restore " : Text) ++ name ≠ "Commit build" := by
  intro h
  cases h

theorem other_ne_restore {other : Text} (h : other ∈ otherStepNames) (name : Text) :
    other ≠ "Restore " ++ name := by
  have hother : ∀ n ∈ otherStepNames, n.take 8 ≠ "Restore " := by decide
  rintro rfl
  exact hother _ h rfl

theorem other_ne_commit {other : Text} (h : other ∈ otherStepNames) : other ≠ "Commit build" := by
  revert other
  decide

section

variable {graph : JobGraph} {config : Configuration} {name : Text} {settings : JobSettings}
  {saving : List Json} {step : Json}

/-- A generated step that is named after the cache of a job restores it for a dependency. -/
theorem eq_restoreStep (hsaving : ∀ step ∈ saving, IsNamed step "Save outputs")
    (hstep : step ∈ stepsBefore graph config name settings
      ++ (saving ++ commitSteps graph config name settings))
    {d : Text} (hname : IsNamed step ("Restore " ++ d)) :
    ∃ dependency ∈ graph.pipelineNeeds name, dependency.name = d ∧
      step = restoreStep config dependency := by
  rcases mem_generatedSteps hsaving hstep with ⟨other, hother, hnamed⟩ | ⟨dependency, hmem, rfl⟩ | rfl
  · exact absurd (hnamed.inj hname) (other_ne_restore hother d)
  · have heq := (isNamed_restoreStep config dependency).inj hname
    exact ⟨dependency, hmem, List.append_cancel_left heq, rfl⟩
  · exact absurd (hname.inj (isNamed_commitStep config name settings)) (restore_ne_commit d)

/-- A generated step that is named a commit saves the cache of the job. -/
theorem eq_commitStep (hsaving : ∀ step ∈ saving, IsNamed step "Save outputs")
    (hstep : step ∈ stepsBefore graph config name settings
      ++ (saving ++ commitSteps graph config name settings))
    (hname : IsNamed step "Commit build") : step = commitStep config name settings := by
  rcases mem_generatedSteps hsaving hstep with ⟨other, hother, hnamed⟩ | ⟨dependency, -, rfl⟩ | rfl
  · exact absurd (hnamed.inj hname) (other_ne_commit hother)
  · exact absurd ((isNamed_restoreStep config dependency).inj hname)
      (restore_ne_commit dependency.name)
  · rfl

/-- Every dependency with something to restore has its step. -/
theorem restoreStep_mem {dependency : Job} (hmem : dependency ∈ graph.pipelineNeeds name)
    (hpaths : dependency.settings.outputPaths ≠ []) :
    restoreStep config dependency ∈ stepsBefore graph config name settings := by
  unfold stepsBefore
  simp only [List.mem_append]
  refine .inl (.inr (List.mem_map.mpr ⟨dependency, List.mem_filter.mpr ⟨hmem, ?_⟩, rfl⟩))
  simpa using hpaths

theorem commitStep_mem (hpaths : settings.outputPaths ≠ []) :
    commitStep config name settings ∈ commitSteps graph config name settings := by
  unfold commitSteps
  have hcond : (!settings.outputPaths.isEmpty || !graph.isForced name) = true := by simp [hpaths]
  rw [if_pos hcond]
  exact List.mem_singleton_self _

end

/-! ## What these steps refer to -/

/-- A step of the cache action. -/
def cacheStep (name reference paths key : Text) : Json :=
  .object [
    ("name", .string name),
    ("uses", .string reference),
    ("with", .object [("path", .string paths), ("key", .string key)])]

theorem restoreStep_eq (config : Configuration) (dependency : Job) :
    restoreStep config dependency = cacheStep ("Restore " ++ dependency.name)
      (config.cache.reference "restore") (pathLines dependency.settings.outputPaths)
      (initKeyPlaceholder config dependency.name) := rfl

theorem commitStep_eq (config : Configuration) (name : Text) (settings : JobSettings) :
    commitStep config name settings = cacheStep "Commit build" (config.cache.reference "save")
      (pathLines settings.outputPaths) (initKeyPlaceholder config name) := rfl

/-- The texts of a step of the cache action: its name and the key, the action at its place and the
paths at theirs. -/
theorem at?_cacheStep {name reference paths key text : Text} {position : List Json.Step}
    (h : (cacheStep name reference paths key).at? position = some (.string text)) :
    (text = name ∨ text = key) ∨ position = [.member "uses"] ∧ text = reference ∨
      position = [.member "with", .member "path"] ∧ text = paths := by
  obtain ⟨field, value, rest, rfl, hfield, hvalue⟩ := Json.at?_object_eq_string h
  simp only [List.mem_cons, Prod.mk.injEq, List.not_mem_nil, or_false] at hfield
  rcases hfield with ⟨rfl, rfl⟩ | ⟨rfl, rfl⟩ | ⟨rfl, rfl⟩
  · exact .inl (.inl (Json.at?_string_eq_string hvalue).2)
  · obtain ⟨rfl, htext⟩ := Json.at?_string_eq_string hvalue
    exact .inr (.inl ⟨rfl, htext⟩)
  · obtain ⟨field, value, rest, rfl, hfield, hvalue⟩ := Json.at?_object_eq_string hvalue
    simp only [List.mem_cons, Prod.mk.injEq, List.not_mem_nil, or_false] at hfield
    rcases hfield with ⟨rfl, rfl⟩ | ⟨rfl, rfl⟩
    · obtain ⟨rfl, htext⟩ := Json.at?_string_eq_string hvalue
      exact .inr (.inr ⟨rfl, htext⟩)
    · exact .inl (.inr (Json.at?_string_eq_string hvalue).2)

theorem keyOutput_name {job : Text} (hjob : IsName job) :
    ∀ c ∈ keyOutput job, isJobIdChar c = true := by
  have hlead : ∀ c ∈ ("key-" : Text), isJobIdChar c = true := by decide
  exact fun c hc => (List.mem_append.mp hc).elim (hlead c) (hjob.chars c)

/-- The placeholder for a key refers to the key only. -/
theorem refersTo_initKeyPlaceholder {config : Configuration} (hinit : IsName config.initJobId)
    {job output : Text} (hjob : IsName job)
    (h : RefersTo config.initJobId (initKeyPlaceholder config job) output) :
    output = keyOutput job := by
  have hsplit : initKeyPlaceholder config job
      = (Template.opening ++ " ") ++ initOutput config.initJobId (keyOutput job)
        ++ (" " ++ Template.closing) := by
    simp only [initKeyPlaceholder, Template.placeholder, List.append_assoc]
  rw [hsplit] at h
  exact h.eq hinit (keyOutput_name hjob) (by decide) (by decide) (by decide)

/-- A step that restores or saves a cache refers to nothing but the key, apart from what the
configuration and the author put into it. -/
theorem refersTo_cacheStep {config : Configuration} (hinit : IsName config.initJobId)
    {name reference paths job text output : Text} (hjob : IsName job) (hname : name.count '.' < 3)
    {position : List Json.Step}
    (hat : (cacheStep name reference paths (initKeyPlaceholder config job)).at? position
      = some (.string text)) (h : RefersTo config.initJobId text output) :
    output = keyOutput job ∨ position = [.member "uses"] ∧ text = reference ∨
      position = [.member "with", .member "path"] ∧ text = paths := by
  rcases at?_cacheStep hat with (rfl | rfl) | hgiven
  · exact absurd h (not_refersTo hinit hname)
  · exact .inl (refersTo_initKeyPlaceholder hinit hjob h)
  · exact .inr hgiven

end CachedWorkflow
