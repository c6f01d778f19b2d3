import CachedWorkflow.Proofs.Job.KeyOutputs
import CachedWorkflow.Proofs.Json.Leaves
import CachedWorkflow.Workflow.InitJob

/-!
# Proofs: the initialization job

The steps of the initialization job have distinct identifiers, and each of its outputs refers to one of
its steps that sets what the output reads (`initOutputs_refer`): the key step sets the key of every job
when its script is run, and a check step tells whether there was a hit.
-/

namespace CachedWorkflow

/-! ## What steps set -/

/-- The identifiers of steps, as far as they have one. -/
def stepIds (steps : List Json) : List Text :=
  steps.filterMap fun step => (step.member? "id").bind Json.string?

/-- The step has the identifier. -/
def HasId (step : Json) (id : Text) : Prop := step.member? "id" = some (.string id)

/-- The step runs the script in the shell that scripts are read for, under no condition of its own. -/
structure HasScript (step : Json) (script : Text) : Prop where
  shell : step.member? "shell" = some (.string "bash")
  run : step.member? "run" = some (.string script)
  always : step.member? "if" = none

/-- The step sets an output of its own. It does so by a script that runs to its end on every machine and prints
the line that sets the output, whatever the runner puts in the place of the placeholders of the script that has
no meaning in double quotes; or because it checks the cache, which sets `cache-hit`. -/
inductive SetsOutput (config : Configuration) (step : Json) : Text → Prop where
  | script {tokens : List Token} {output : Text} (script : HasScript step (Template.embed tokens))
    (sets : ∀ value : Text → Text, (∀ source, ∀ c ∈ value source, Shell.IsInert c) →
      ∀ m : Shell.Machine, ∃ s text,
        Shell.runKeyScript m (Template.filledWith value tokens) = some s ∧
          Shell.setOutputText output text ∈ s.printed) : SetsOutput config step output
  | check (uses : step.member? "uses" = some (.string (config.cache.reference "check")))
    (always : step.member? "if" = none) : SetsOutput config step "cache-hit"

/-- The text is a placeholder that reads the output of the step with the identifier. -/
def ReadsOutput (text id output : Text) : Prop :=
  ∃ rest, text = Template.placeholder ("steps." ++ id ++ ".outputs." ++ output ++ rest) ∧
    ∀ c ∈ rest.head?, isJobIdChar c = false

/-! ## Steps -/

theorem stepIds_append (a b : List Json) : stepIds (a ++ b) = stepIds a ++ stepIds b :=
  List.filterMap_append

theorem stepIds_keySteps (graph : JobGraph) (config : Configuration) :
    stepIds (keySteps graph config) = [("git-fetch" : Text), config.keyStepId] := rfl

theorem stepIds_checkSteps (config : Configuration) (jobs : List Job) :
    stepIds (jobs.map (checkStep config)) = jobs.map fun job => checkStepId job.name := by
  rw [stepIds, List.filterMap_map, ← List.filterMap_eq_map]
  rfl

/-- The steps of the initialization job. -/
def initSteps (graph : JobGraph) (config : Configuration) : List Json :=
  keySteps graph config ++ (checkedJobs graph).map (checkStep config)

theorem mem_checkedJobs {graph : JobGraph} {job : Job} :
    job ∈ checkedJobs graph ↔ job ∈ graph.jobs ∧ graph.isForced job.name = false := by
  rw [checkedJobs, List.mem_filter]
  simp

theorem checkStepId_injective : Function.Injective checkStepId := fun _ _ h =>
  List.append_cancel_left h

theorem nodup_map_name {f : Text → Text} (hf : Function.Injective f) {jobs : List Job}
    (h : (jobs.map Job.name).Nodup) : (jobs.map fun job => f job.name).Nodup := by
  have hmap := h.map hf
  rwa [List.map_map] at hmap

/-- No two steps of the initialization job have one identifier. -/
theorem nodup_stepIds_initSteps {graph : JobGraph} {config : Configuration}
    (hnames : (graph.jobs.map Job.name).Nodup) (hfetch : config.keyStepId ≠ "git-fetch")
    (hcheck : ∀ job, config.keyStepId ≠ checkStepId job) :
    (stepIds (initSteps graph config)).Nodup := by
  have hchecks : ((checkedJobs graph).map fun job => checkStepId job.name).Nodup := by
    have hsub : ((checkedJobs graph).map Job.name).Nodup :=
      hnames.sublist (List.filter_sublist.map Job.name)
    exact nodup_map_name checkStepId_injective hsub
  rw [initSteps, stepIds_append, stepIds_keySteps, stepIds_checkSteps]
  refine List.nodup_append.mpr ⟨?_, hchecks, ?_⟩
  · rw [List.nodup_cons, List.mem_singleton]
    exact ⟨Ne.symm hfetch, List.nodup_singleton _⟩
  · intro id hid id' hid'
    obtain ⟨job, -, rfl⟩ := List.mem_map.mp hid'
    rcases List.mem_cons.mp hid with rfl | hid
    · intro h
      cases h
    · rw [List.mem_singleton.mp hid]
      exact hcheck job.name

/-- There is a check step for a job exactly if it is a pipeline job that is not forced. -/
theorem exists_checkStep_iff {graph : JobGraph} {config : Configuration} {name : Text}
    (hcheck : ∀ job, config.keyStepId ≠ checkStepId job) :
    (∃ step ∈ initSteps graph config, HasId step (checkStepId name)) ↔
      ∃ job ∈ graph.jobs, job.name = name ∧ graph.isForced name = false := by
  constructor
  · rintro ⟨step, hstep, hid⟩
    rcases List.mem_append.mp hstep with hstep | hstep
    · rcases List.mem_cons.mp hstep with rfl | hstep
      · cases hid
      · rw [List.mem_singleton.mp hstep] at hid
        exact absurd (Json.string.inj (Option.some.inj hid)) (hcheck name)
    · obtain ⟨job, hjob, rfl⟩ := List.mem_map.mp hstep
      obtain ⟨hmem, hforced⟩ := mem_checkedJobs.mp hjob
      obtain rfl := checkStepId_injective (Json.string.inj (Option.some.inj hid))
      exact ⟨job, hmem, rfl, hforced⟩
  · rintro ⟨job, hjob, rfl, hforced⟩
    refine ⟨checkStep config job, List.mem_append_right _ ?_, rfl⟩
    exact List.mem_map.mpr ⟨job, mem_checkedJobs.mpr ⟨hjob, hforced⟩, rfl⟩

/-! ## Outputs -/

/-- The key outputs. -/
def keyEntries (graph : JobGraph) (config : Configuration) : Object :=
  graph.jobs.map fun job => (keyOutput job.name, Json.string (keyPlaceholder config job.name))

/-- The outputs that tell which jobs need to be built. -/
def buildEntries (graph : JobGraph) : Object :=
  (checkedJobs graph).map fun job => (needsBuildOutput job.name, Json.string <|
    Template.placeholder ("steps." ++ checkStepId job.name ++ ".outputs.cache-hit != 'true'"))

theorem keyOutput_ne_needsBuildOutput (a b : Text) : keyOutput a ≠ needsBuildOutput b := by
  intro h
  cases h

theorem distinct_outputs {graph : JobGraph} (hnames : (graph.jobs.map Job.name).Nodup)
    (config : Configuration) : Object.Distinct (keyEntries graph config ++ buildEntries graph) := by
  have hkeys : (graph.jobs.map fun job => keyOutput job.name).Nodup := by
    exact nodup_map_name (fun _ _ h => List.append_cancel_left h) hnames
  have hchecks : ((checkedJobs graph).map fun job => needsBuildOutput job.name).Nodup := by
    have hsub : ((checkedJobs graph).map Job.name).Nodup :=
      hnames.sublist (List.filter_sublist.map Job.name)
    exact nodup_map_name (fun _ _ h => List.append_cancel_left h) hsub
  rw [Object.Distinct, Object.keys_append, Object.keys, Object.keys, keyEntries, buildEntries,
    List.map_map, List.map_map]
  refine List.nodup_append.mpr ⟨hkeys, hchecks, ?_⟩
  intro a ha b hb
  obtain ⟨job, -, rfl⟩ := List.mem_map.mp ha
  obtain ⟨job', -, rfl⟩ := List.mem_map.mp hb
  exact keyOutput_ne_needsBuildOutput job.name job'.name

/-- The outputs are those for the keys and then those for the checks, none of which replaces another. -/
theorem initOutputs_eq {graph : JobGraph} (hnames : (graph.jobs.map Job.name).Nodup)
    (config : Configuration) :
    initOutputs graph config = keyEntries graph config ++ buildEntries graph := by
  have hd := distinct_outputs hnames config
  rw [Object.Distinct, Object.keys_append] at hd
  obtain ⟨hkeys, hchecks, hdisjoint⟩ := List.nodup_append.mp hd
  have hfirst : Object.insertAll [] (keyEntries graph config) = keyEntries graph config :=
    Object.insertAll_eq_append hkeys (by simp [Object.keys])
  show Object.insertAll (Object.insertAll [] (keyEntries graph config)) (buildEntries graph) = _
  rw [hfirst]
  exact Object.insertAll_eq_append hchecks fun key hkey hmem => hdisjoint key hmem key hkey rfl

/-- The outputs are the key of every job, and for every job that is not forced whether it needs to be
built. -/
theorem mem_keys_initOutputs {graph : JobGraph} (hnames : (graph.jobs.map Job.name).Nodup)
    (config : Configuration) {output : Text} :
    output ∈ (initOutputs graph config).keys ↔ ∃ job ∈ graph.jobs, output = keyOutput job.name ∨
      graph.isForced job.name = false ∧ output = needsBuildOutput job.name := by
  rw [initOutputs_eq hnames config, Object.keys_append, List.mem_append, Object.keys, Object.keys,
    keyEntries, buildEntries, List.map_map, List.map_map, List.mem_map, List.mem_map]
  constructor
  · rintro (⟨job, hjob, rfl⟩ | ⟨job, hjob, rfl⟩)
    · exact ⟨job, hjob, .inl rfl⟩
    · obtain ⟨hmem, hforced⟩ := mem_checkedJobs.mp hjob
      exact ⟨job, hmem, .inr ⟨hforced, rfl⟩⟩
  · rintro ⟨job, hjob, rfl | ⟨hforced, rfl⟩⟩
    · exact .inl ⟨job, hjob, rfl⟩
    · exact .inr ⟨job, mem_checkedJobs.mpr ⟨hjob, hforced⟩, rfl⟩

theorem get?_keyOutput {graph : JobGraph} (hnames : (graph.jobs.map Job.name).Nodup)
    (config : Configuration) {job : Job} (hjob : job ∈ graph.jobs) :
    (initOutputs graph config).get? (keyOutput job.name)
      = some (.string (keyPlaceholder config job.name)) := by
  rw [initOutputs_eq hnames config]
  exact Object.get?_of_mem (distinct_outputs hnames config)
    (List.mem_append_left _ (List.mem_map.mpr ⟨job, hjob, rfl⟩))

theorem append_parts (a b c d e : Text) : a ++ b ++ (c ++ d ++ e) = a ++ b ++ c ++ d ++ e := by simp

/-- Every output reads what one of the steps sets. -/
theorem initOutputs_refer {graph : JobGraph} {passthrough : List Text}
    (h : graph.Built passthrough) (hnames : (graph.jobs.map Job.name).Nodup)
    (hjobs : ∀ job ∈ graph.jobs, IsName job.name) (config : Configuration) {output : Text} {value : Json}
    (hvalue : (initOutputs graph config).get? output = some value) :
    ∃ text id set step, value = .string text ∧ ReadsOutput text id set ∧
      step ∈ initSteps graph config ∧ HasId step id ∧ SetsOutput config step set := by
  rw [initOutputs_eq hnames config] at hvalue
  rcases List.mem_append.mp (Object.mem_of_get? hvalue) with hmem | hmem
  · obtain ⟨job, hjob, heq⟩ := List.mem_map.mp hmem
    cases heq
    let step : Json := .object [("id", .string config.keyStepId), ("name", .string "Generate keys"),
      ("shell", .string "bash"), ("run", .string (keyScript graph))]
    have hscript : HasScript step (Template.embed (scriptTokens graph)) := by
      rw [embed_scriptTokens]
      exact ⟨rfl, rfl, rfl⟩
    refine ⟨_, config.keyStepId, keyStepOutput job.name, step, rfl, ⟨[], ?_, by simp⟩,
      List.mem_append_left _ (List.mem_cons_of_mem _ (List.mem_singleton_self _)), rfl,
      .script hscript fun values hvalues m => ?_⟩
    · rw [keyPlaceholder, List.append_nil]
    · obtain ⟨s, hrun, hall⟩ := exists_run_scriptTokens h hnames hjobs hvalues m
      obtain ⟨key, hprinted⟩ := hall job hjob
      exact ⟨s, key, hrun, hprinted⟩
  · obtain ⟨job, hjob, heq⟩ := List.mem_map.mp hmem
    cases heq
    refine ⟨_, checkStepId job.name, "cache-hit", checkStep config job, rfl,
      ⟨" != 'true'", ?_, by decide⟩, List.mem_append_right _ (List.mem_map.mpr ⟨job, hjob, rfl⟩),
      rfl, .check rfl rfl⟩
    exact congrArg Template.placeholder
      (append_parts "steps." (checkStepId job.name) ".outputs." "cache-hit" " != 'true'")

end CachedWorkflow
