import CachedWorkflow.Proofs.Job.Reordering
import CachedWorkflow.Proofs.Workflow.Classification
import CachedWorkflow.Proofs.Workflow.Frame

/-!
# Proofs: declaring the jobs in another order

The order in which a document declares its jobs does not matter (`compile_reorders`): in every order it
compiles or not, each job is compiled into the same job, and the initialization job computes the same keys,
checks the same caches and has the same outputs.
-/

namespace CachedWorkflow

/-! ## The initialization job -/

/-- The key script with these assignments. -/
def keyScriptOf (assignments : List KeyAssignment) : Text :=
  hashFunction ++ "declare -A keys\n" ++ assignments.flatMap KeyAssignment.toText

/-- The initialization job with these assignments in its key script, these checks and these outputs. -/
def initJobOf (config : Configuration) (assignments : List KeyAssignment) (checks : List Json)
    (outputs : Object) : Json :=
  .object [
    ("runs-on", .string config.initRunsOn),
    ("steps", .array ([
      .object [
        ("id", .string "git-fetch"),
        ("name", .string "Git fetch"),
        ("shell", .string "bash"),
        ("run", .string fetchScript)],
      .object [
        ("id", .string config.keyStepId),
        ("name", .string "Generate keys"),
        ("shell", .string "bash"),
        ("run", .string (keyScriptOf assignments))]] ++ checks)),
    ("outputs", .object outputs)]

theorem initJob_eq (graph : JobGraph) (config : Configuration) : initJob graph config
    = initJobOf config (keyAssignments graph) ((checkedJobs graph).map (checkStep config))
      (initOutputs graph config) := rfl

/-- The initialization jobs of two workflows are the same, apart from the order of what each of them lists. -/
inductive SameInit (config : Configuration) (jobs : Object) : Object → Object → Prop where
  /-- Without jobs that have steps there is no initialization job. -/
  | none : (∀ name, ¬ HasSteps jobs name) → SameInit config jobs [] []
  /-- Each job with steps has one assignment, whose two commands set the key and make it an output. -/
  | some {assignments assignments' : List KeyAssignment} {checks checks' : List Json}
      {outputs outputs' : Object} :
      (assignments.map KeyAssignment.job).Nodup →
      (∀ name, name ∈ assignments.map KeyAssignment.job ↔ HasSteps jobs name) →
      assignments.Perm assignments' → checks.Perm checks' →
      (∀ output, outputs.get? output = outputs'.get? output) →
      SameInit config jobs [(config.initJobId, initJobOf config assignments checks outputs)]
        [(config.initJobId, initJobOf config assignments' checks' outputs')]

/-! ## Graphs of the same jobs -/

section

variable {graph graph' : JobGraph} {passthrough passthrough' : List Text} {config : Configuration}

theorem JobGraph.Reordered.suffix_eq (h : Reordered graph graph') (name : Text) :
    KeySuffix.ofJob graph name = KeySuffix.ofJob graph' name := by
  rw [KeySuffix.ofJob, KeySuffix.ofJob, h.isForced, h.get?, h.pipelineNeeds]

theorem JobGraph.Reordered.assignments_perm (h : Reordered graph graph') (hbuilt : graph.Built passthrough)
    (hbuilt' : graph'.Built passthrough') (hnames : (graph.jobs.map Job.name).Nodup) :
    (keyAssignments graph).Perm (keyAssignments graph') := by
  have hnames' : (graph'.jobs.map Job.name).Nodup := (h.perm.map Job.name).nodup_iff.mp hnames
  have htopological : graph.topological.Perm graph'.topological :=
    ((hbuilt.perm_topological hnames).trans h.perm).trans (hbuilt'.perm_topological hnames').symm
  have hassignment : ∀ job ∈ graph'.topological,
      (⟨job.name, KeySuffix.ofJob graph job.name⟩ : KeyAssignment)
        = ⟨job.name, KeySuffix.ofJob graph' job.name⟩ := by
    intro job _
    rw [h.suffix_eq]
  rw [keyAssignments, keyAssignments, ← List.map_congr_left hassignment]
  exact htopological.map _

theorem JobGraph.Reordered.checkedJobs_perm (h : Reordered graph graph') :
    (checkedJobs graph).Perm (checkedJobs graph') := by
  have hforced : ∀ job ∈ graph'.jobs, (!graph.isForced job.name) = !graph'.isForced job.name := by
    intro job _
    rw [h.isForced]
  rw [checkedJobs, checkedJobs, ← List.filter_congr hforced]
  exact h.perm.filter _

theorem JobGraph.Reordered.get?_initOutputs (h : Reordered graph graph')
    (hnames : (graph.jobs.map Job.name).Nodup) (config : Configuration) (output : Text) :
    (initOutputs graph config).get? output = (initOutputs graph' config).get? output := by
  have hnames' : (graph'.jobs.map Job.name).Nodup := (h.perm.map Job.name).nodup_iff.mp hnames
  have hkeys : (keyEntries graph config).Perm (keyEntries graph' config) := h.perm.map _
  have hbuilds : (buildEntries graph).Perm (buildEntries graph') := h.checkedJobs_perm.map _
  rw [initOutputs_eq hnames, initOutputs_eq hnames']
  exact Object.get?_perm (distinct_outputs hnames config) (hkeys.append hbuilds) output

theorem JobGraph.Reordered.compileJob_eq (h : Reordered graph graph') (entry : Text × Json) :
    compileJob graph config entry = compileJob graph' config entry := by
  have hassemble : ∀ name job, assemble name job graph config = assemble name job graph' config := by
    intro name job
    rw [assemble, assemble, h.get?, h.isForced, h.pipelineNeeds]
  unfold compileJob
  simp only [h.contains, hassemble]

/-- The jobs with an assignment are those of the graph. -/
theorem map_job_keyAssignments : (keyAssignments graph).map KeyAssignment.job
    = graph.topological.map Job.name := by
  rw [keyAssignments, List.map_map]
  rfl

theorem JobGraph.Reordered.sameInit (h : Reordered graph graph') (hbuilt : graph.Built passthrough)
    (hbuilt' : graph'.Built passthrough') (hnames : (graph.jobs.map Job.name).Nodup) {jobs : Object}
    (hjobs : ∀ name, HasSteps jobs name ↔ ∃ job ∈ graph.jobs, job.name = name) :
    SameInit config jobs (initEntries graph config) (initEntries graph' config) := by
  have hempty : graph.isEmpty = graph'.isEmpty := by
    rw [isEmpty, isEmpty, Bool.eq_iff_iff, List.isEmpty_iff, List.isEmpty_iff]
    exact ⟨fun hnil => (hnil ▸ h.perm).symm.eq_nil, fun hnil => (hnil ▸ h.perm).eq_nil⟩
  rw [initEntries, initEntries, ← hempty]
  cases hnone : graph.isEmpty with
  | true =>
    refine .none fun name hsteps => ?_
    obtain ⟨job, hjob, -⟩ := (hjobs name).mp hsteps
    rw [List.isEmpty_iff.mp hnone] at hjob
    cases hjob
  | false =>
    simp only [Bool.false_eq_true, if_false, initJob_eq]
    refine .some ?_ (fun name => ?_) (h.assignments_perm hbuilt hbuilt' hnames)
      (h.checkedJobs_perm.map _) (h.get?_initOutputs hnames config)
    · rw [map_job_keyAssignments]
      exact hbuilt.nodup_topological hnames
    · rw [map_job_keyAssignments, hjobs, List.mem_map]
      simp only [hbuilt.mem_topological]

end

/-! ## Documents -/

section

variable {document jobs jobs' workflow workflow' : Object} {config : Configuration}

theorem stripCallTrigger_insert_jobs (hjobs : ("jobs" : Text) ∈ document.keys) (value : Json) :
    stripCallTrigger (document.insert "jobs" value) = (stripCallTrigger document).insert "jobs" value := by
  have hon : (document.insert "jobs" value).get? "on" = document.get? "on" :=
    Object.get?_insert_of_ne _ _ (by decide)
  unfold stripCallTrigger
  rw [hon]
  split
  · split
    · exact Object.insert_comm (by decide) hjobs _ _
    · rfl
  · rfl

/-- If a document compiles, it does so with its jobs in any other order. -/
theorem exists_compile_of_perm (hjobs : document.get? "jobs" = some (.object jobs)) (hd : jobs.Distinct)
    (hperm : jobs.Perm jobs') (h : compile document config = .ok workflow) :
    ∃ workflow', compile (document.insert "jobs" (.object jobs')) config = .ok workflow' := by
  obtain ⟨found, graph, compiled, hvalid, hfound, hgraph, hcompiled, -⟩ := (compile_eq_ok_iff hjobs).mp h
  have hd' : Object.Distinct jobs' := (hperm.map Prod.fst).nodup_iff.mp hd
  have hsorts := sorts_of_foldlM hfound
  obtain ⟨found', hfound'⟩ : ∃ found', jobs'.foldlM (classify config) {} = .ok found' := by
    have hall := exists_classified_iff.mp ⟨found, hfound⟩
    exact exists_classified_iff.mpr fun entry hentry => hall entry (hperm.mem_iff.mpr hentry)
  have hpipeline := pipeline_perm hd hperm hfound hfound'
  obtain ⟨graph', hgraph'⟩ : ∃ graph', JobGraph.ofJobs found'.pipeline found'.passthrough = .ok graph' := by
    obtain ⟨hneeds, hacyclic⟩ := (exists_graph_iff hfound hd).mp ⟨graph, hgraph⟩
    refine (exists_graph_iff hfound' hd').mpr ⟨fun job hjob need hneed => ?_, ?_⟩
    · exact (hperm.map Prod.fst).mem_iff.mp (hneeds job (hpipeline.mem_iff.mpr hjob) need hneed)
    · rwa [← hasCycle_perm hpipeline]
  have hsame := JobGraph.reordered_of_ofJobs (hsorts.nodup hd) hpipeline hgraph hgraph'
  obtain ⟨compiled', hcompiled'⟩ : ∃ compiled', jobs'.mapM (compileJob graph' config) = .ok compiled' := by
    refine exists_mapM_eq_ok_iff.mpr fun entry hentry => ?_
    rw [← hsame.compileJob_eq]
    exact exists_mapM_eq_ok_iff.mp ⟨compiled, hcompiled⟩ entry (hperm.mem_iff.mpr hentry)
  exact ⟨_, (compile_eq_ok_iff (Object.get?_insert_self _ _ _)).mpr
    ⟨found', graph', compiled', hvalid, hfound', hgraph', hcompiled', rfl⟩⟩

end

/-- The order of the jobs in a document does not matter. With its jobs in another order a document compiles
if it does so as it is. Then each job becomes the same, and the initialization job has the same assignments
and checks in another order, and the same outputs. -/
theorem compile_reorders {document jobs jobs' : Object} {config : Configuration}
    (hjobs : document.get? "jobs" = some (.object jobs)) (hd : jobs.Distinct) (hperm : jobs.Perm jobs') :
    ((∃ workflow, compile document config = .ok workflow) ↔
      ∃ workflow', compile (document.insert "jobs" (.object jobs')) config = .ok workflow') ∧
    ∀ workflow workflow', compile document config = .ok workflow →
      compile (document.insert "jobs" (.object jobs')) config = .ok workflow' →
      ∃ init init' compiled compiled' : Object, workflow.get? "jobs" = some (.object (init ++ compiled)) ∧
        workflow' = workflow.insert "jobs" (.object (init' ++ compiled')) ∧
        compiled.keys = jobs.keys ∧ compiled'.keys = jobs'.keys ∧ compiled.Perm compiled' ∧
        SameInit config jobs init init' := by
  have hd' : Object.Distinct jobs' := (hperm.map Prod.fst).nodup_iff.mp hd
  have hjobs' : (document.insert "jobs" (.object jobs')).get? "jobs" = some (.object jobs') :=
    Object.get?_insert_self _ _ _
  refine ⟨⟨fun ⟨_, h⟩ => exists_compile_of_perm hjobs hd hperm h, fun ⟨_, h⟩ => ?_⟩, ?_⟩
  · have hback := exists_compile_of_perm hjobs' hd' hperm.symm h
    rwa [Object.insert_insert, Object.insert_eq_self hjobs] at hback
  · intro workflow workflow' h h'
    obtain ⟨found, graph, compiled, -, hfound, hgraph, hcompiled, rfl⟩ := (compile_eq_ok_iff hjobs).mp h
    obtain ⟨found', graph', compiled', -, hfound', hgraph', hcompiled', rfl⟩ :=
      (compile_eq_ok_iff hjobs').mp h'
    have hsorts := sorts_of_foldlM hfound
    have hsame := JobGraph.reordered_of_ofJobs (hsorts.nodup hd) (pipeline_perm hd hperm hfound hfound')
      hgraph hgraph'
    obtain ⟨hgraphjobs, hbuilt⟩ := JobGraph.built_of_ofJobs hgraph
    obtain ⟨-, hbuilt'⟩ := JobGraph.built_of_ofJobs hgraph'
    have hnames : (graph.jobs.map Job.name).Nodup := hgraphjobs ▸ hsorts.nodup hd
    refine ⟨initEntries graph config, initEntries graph' config, compiled, compiled',
      Object.get?_insert_self _ _ _, ?_, keys_compiled hcompiled, keys_compiled hcompiled', ?_,
      hsame.sameInit hbuilt hbuilt' hnames fun name => ?_⟩
    · rw [stripCallTrigger_insert_jobs (Object.mem_keys_of_get? hjobs), Object.insert_insert,
        Object.insert_insert]
    · have heq : compileJob graph config = compileJob graph' config := funext hsame.compileJob_eq
      exact perm_of_mapM hperm hcompiled (heq ▸ hcompiled')
    · rw [hgraphjobs, hsorts.exists_pipeline_iff_hasSteps hd]

/-- A delivery can be declared before the build that it needs. -/
theorem compile_reorders_deliveryDocument : ∃ workflow workflow' init init' compiled compiled' : Object,
    compile deliveryDocument {} = .ok workflow ∧
    compile (deliveryDocument.insert "jobs" (.object deliveryJobs.reverse)) {} = .ok workflow' ∧
    workflow.get? "jobs" = some (.object (init ++ compiled)) ∧
    workflow' = workflow.insert "jobs" (.object (init' ++ compiled')) ∧ compiled.Perm compiled' ∧
    compiled'.keys = ["deliver", "build", "approve"] ∧ SameInit {} deliveryJobs init init' := by
  have hok : (compile deliveryDocument {}).toBool = true := by decide +kernel
  obtain ⟨workflow, h⟩ := toBool_eq_true.mp hok
  have hperm : List.Perm deliveryJobs deliveryJobs.reverse := (List.reverse_perm deliveryJobs).symm
  have hget : deliveryDocument.get? "jobs" = some (.object deliveryJobs) := rfl
  have hd : Object.Distinct deliveryJobs := by decide
  obtain ⟨hiff, hall⟩ := compile_reorders hget hd hperm
  obtain ⟨workflow', h'⟩ := hiff.mp ⟨workflow, h⟩
  obtain ⟨init, init', compiled, compiled', hjobs, hworkflow, -, hkeys, hcompiled, hinit⟩ :=
    hall workflow workflow' h h'
  exact ⟨workflow, workflow', init, init', compiled, compiled', h, h', hjobs, hworkflow, hcompiled, hkeys,
    hinit⟩

end CachedWorkflow
