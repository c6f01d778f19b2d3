import CachedWorkflow.Proofs.Job.Decision
import CachedWorkflow.Proofs.Pipeline.Needs
import CachedWorkflow.Proofs.Workflow.Compile

/-!
# Proofs: the needs of a compiled workflow

Every job of a workflow is the initialization job, a compiled pipeline job, or a job that is passed
through (`Emitted`). What the first two need has been checked: it is there, and there is no cycle of
needs that keeps to them (`compile_checks_needs`). The needs of a job that is passed through are those
of the author. Nobody checks them, so they can dangle, and close a cycle.
-/

namespace CachedWorkflow

open Relation

/-! ## Needs of the jobs of an object -/

/-- What a job needs. There is no answer if there is no such job or its needs cannot be read. -/
def needsOf? (jobs : Object) (name : Text) : Option (List Text) :=
  ((jobs.get? name).bind Json.object?).bind fun fields =>
    (readNeeds fields ("jobs." ++ name)).toOption

/-- The job `a` has `b` among its needs. -/
def NeedsIn (jobs : Object) (a b : Text) : Prop := ∃ needs, needsOf? jobs a = some needs ∧ b ∈ needs

/-- The job has no steps, so that the compiler passes it through. -/
def IsPassedThrough (jobs : Object) (name : Text) : Prop :=
  ∃ fields, jobs.get? name = some (.object fields) ∧ Object.contains fields "steps" = false

/-- The job has steps, so that the compiler takes it apart. -/
def HasSteps (jobs : Object) (name : Text) : Prop :=
  ∃ fields, jobs.get? name = some (.object fields) ∧ Object.contains fields "steps" = true

theorem hasSteps_iff {jobs : Object} (hd : jobs.Distinct) {name : Text} : HasSteps jobs name ↔
    ∃ fields, (name, Json.object fields) ∈ jobs ∧ Object.contains fields "steps" = true :=
  ⟨fun ⟨fields, hget, hsteps⟩ => ⟨fields, Object.mem_of_get? hget, hsteps⟩,
    fun ⟨fields, hmem, hsteps⟩ => ⟨fields, Object.get?_of_mem hd hmem, hsteps⟩⟩

theorem needsOf?_eq_some {jobs : Object} {name : Text} {fields : Object} {needs : List Text}
    (hget : jobs.get? name = some (.object fields)) (hneeds : readNeeds fields [] = .ok needs) :
    needsOf? jobs name = some needs := by
  rw [needsOf?, hget]
  show (readNeeds fields ("jobs." ++ name)).toOption = some needs
  rw [readNeeds_congr hneeds]
  rfl

/-! ## The jobs of a workflow -/

section

variable {graph : JobGraph} {config : Configuration} {jobs compiled : Object} {found : Classified}
  {name : Text} {job : Json}

/-- Where a job of the workflow comes from. -/
inductive Emitted (graph : JobGraph) (config : Configuration) (jobs : Object) : Text → Json → Prop where
  | init : graph.isEmpty = false → Emitted graph config jobs config.initJobId (initJob graph config)
  | pipeline {job : Job} {fields assembled : Object} : job ∈ graph.jobs →
      assemble job.name fields graph config = .ok assembled →
      Emitted graph config jobs job.name (.object assembled)
  | passthrough {name : Text} {fields : Object} : (name, Json.object fields) ∈ jobs →
      Object.contains fields "steps" = false → Emitted graph config jobs name (.object fields)

/-- Whatever is sorted by kind is an object. -/
theorem eq_object_of_classify (h : jobs.foldlM (classify config) {} = .ok found) :
    ∀ entry ∈ jobs, ∃ fields, entry.2 = .object fields := by
  refine foldlM_induction (motive := fun seen _ => ∀ entry ∈ seen, ∃ fields, entry.2 = .object fields)
    h (by simp) fun seen entry rest before after _ hseen hstep => ?_
  rw [List.forall_mem_append, List.forall_mem_singleton]
  refine ⟨hseen, ?_⟩
  cases classify_eq_ok_iff.mp hstep with
  | pipeline | passthrough => exact ⟨_, rfl⟩

theorem Sorts.exists_pipeline_iff_hasSteps (hsorts : Sorts config jobs found) (hd : jobs.Distinct) :
    (∃ job ∈ found.pipeline, job.name = name) ↔ HasSteps jobs name :=
  hsorts.exists_pipeline_iff.trans (hasSteps_iff hd).symm

/-- The jobs of the graph are those with steps. -/
theorem Sorts.contains_iff (hsorts : Sorts config jobs found) (hgraph : graph.jobs = found.pipeline)
    (hd : jobs.Distinct) {fields : Object} (hmem : (name, Json.object fields) ∈ jobs) :
    graph.contains name = Object.contains fields "steps" := by
  rw [Bool.eq_iff_iff, JobGraph.contains_iff, hgraph, hsorts.exists_pipeline_iff]
  constructor
  · rintro ⟨fields', hmem', hsteps⟩
    have heq := (Object.get?_of_mem hd hmem').symm.trans (Object.get?_of_mem hd hmem)
    exact Json.object.inj (Option.some.inj heq) ▸ hsteps
  · exact fun hsteps => ⟨fields, hmem, hsteps⟩

theorem compileJob_of_not_contains {entry : Text × Json} (h : graph.contains entry.1 = false) :
    compileJob graph config entry = .ok entry := by
  obtain ⟨name, job⟩ := entry
  unfold compileJob
  simp only [h, Bool.false_eq_true, if_false]

theorem emitted_of_get? (hfound : jobs.foldlM (classify config) {} = .ok found)
    (hgraph : graph.jobs = found.pipeline) (hd : jobs.Distinct)
    (hcompiled : jobs.mapM (compileJob graph config) = .ok compiled)
    (hget : Object.get? (initEntries graph config ++ compiled) name = some job) :
    Emitted graph config jobs name job := by
  rcases List.mem_append.mp (Object.mem_of_get? hget) with hinit | hmem
  · rw [initEntries] at hinit
    cases hempty : graph.isEmpty with
    | true => simp [hempty] at hinit
    | false =>
      simp only [hempty, Bool.false_eq_true, if_false, List.mem_singleton, Prod.mk.injEq] at hinit
      obtain ⟨rfl, rfl⟩ := hinit
      exact .init hempty
  · obtain ⟨⟨source, value⟩, hsource, hcompile⟩ := exists_of_mem_right (mapM_eq_ok.mp hcompiled) hmem
    obtain ⟨fields, rfl⟩ := eq_object_of_classify hfound _ hsource
    obtain rfl : name = source := compileJob_fst hcompile
    cases hcontains : graph.contains name with
    | true =>
      obtain ⟨assembled, hassemble, heq⟩ := compileJob_eq_ok hcontains hcompile
      obtain ⟨owner, howner, rfl⟩ := JobGraph.contains_iff.mp hcontains
      obtain ⟨-, rfl⟩ := Prod.mk.inj heq
      exact .pipeline howner hassemble
    | false =>
      rw [compileJob_of_not_contains hcontains] at hcompile
      cases hcompile
      exact .passthrough hsource
        ((sorts_of_foldlM hfound).contains_iff hgraph hd hsource ▸ hcontains)

theorem keys_compiled (hcompiled : jobs.mapM (compileJob graph config) = .ok compiled) :
    compiled.keys = jobs.keys := by
  have hkeys := Object.keys_forall₂ (mapM_eq_ok.mp hcompiled) (k := id) fun _ _ => compileJob_fst
  rwa [List.map_id] at hkeys

/-- What a compiled pipeline job needs: the initialization job, and what it needs by its settings. -/
theorem needsOf?_pipeline {job : Job} {fields assembled : Object}
    (hnames : (graph.jobs.map Job.name).Nodup) (hjob : job ∈ graph.jobs)
    (hassemble : assemble job.name fields graph config = .ok assembled)
    (hget : compiled.get? job.name = some (.object assembled)) :
    needsOf? compiled job.name = some (config.initJobId :: job.settings.needs) := by
  have hneeds := needs_of_assemble (JobGraph.Built.get?_eq hnames hjob) hassemble
  exact needsOf?_eq_some hget (readNeeds_eq_ok.mpr (.inr (.inr hneeds)))

theorem contains_steps_of_assemble {job : Job} {fields assembled : Object}
    (hnames : (graph.jobs.map Job.name).Nodup) (hjob : job ∈ graph.jobs)
    (hassemble : assemble job.name fields graph config = .ok assembled) :
    Object.contains assembled "steps" = true := by
  obtain ⟨own, authored, saving, condition, -, -, -, -, hsteps, -⟩ :=
    assemble_eq_ok (JobGraph.Built.get?_eq hnames hjob) hassemble
  rw [Object.contains, hsteps]
  rfl

end

/-! ## What has been checked -/

/-- What is known of the jobs of a workflow: each has its origin, by which it can be found, and the
pipeline jobs are named apart. -/
structure Emission (graph : JobGraph) (config : Configuration) (jobs compiled : Object) : Prop where
  emitted : ∀ name job, compiled.get? name = some job → Emitted graph config jobs name job
  keys : compiled.keys = (initEntries graph config).keys ++ jobs.keys
  names : (graph.jobs.map Job.name).Nodup
  needs : ∀ job ∈ graph.jobs, ∀ need ∈ job.settings.needs, need ∈ jobs.keys

section

variable {graph : JobGraph} {config : Configuration} {jobs compiled : Object} {a b c : Text}

theorem Emission.init_mem_keys (h : Emission graph config jobs compiled) {job : Job}
    (hjob : job ∈ graph.jobs) : config.initJobId ∈ compiled.keys := by
  have hempty : graph.isEmpty = false := by
    rw [JobGraph.isEmpty, List.isEmpty_eq_false_iff]
    exact List.ne_nil_of_mem hjob
  rw [h.keys, initEntries, hempty]
  exact List.mem_append_left _ List.mem_cons_self

/-- What is not passed through needs jobs of the workflow. -/
theorem Emission.closed (h : Emission graph config jobs compiled) (ha : a ∈ compiled.keys) :
    IsPassedThrough compiled a ∨
      ∃ needs, needsOf? compiled a = some needs ∧ ∀ need ∈ needs, need ∈ compiled.keys := by
  obtain ⟨job, hget⟩ := Option.ne_none_iff_exists'.mp
    (fun hnone => Object.get?_eq_none_iff.mp hnone ha)
  cases h.emitted a job hget with
  | init hempty => exact .inr ⟨[], needsOf?_eq_some hget rfl, by simp⟩
  | pipeline hjob hassemble =>
    refine .inr ⟨_, needsOf?_pipeline h.names hjob hassemble hget, ?_⟩
    rw [List.forall_mem_cons]
    refine ⟨h.init_mem_keys hjob, fun need hneed => ?_⟩
    rw [h.keys]
    exact List.mem_append_right _ (h.needs _ hjob need hneed)
  | passthrough _ hsteps => exact .inl ⟨_, hget, hsteps⟩

/-- Apart from jobs that are passed through, only pipeline jobs need others: the initialization job,
and what they need by their settings. -/
theorem Emission.of_needsIn (h : Emission graph config jobs compiled) (hab : NeedsIn compiled a b)
    (ha : ¬ IsPassedThrough compiled a) :
    ∃ job ∈ graph.jobs, job.name = a ∧ (b = config.initJobId ∨ b ∈ job.settings.needs) := by
  obtain ⟨needs, hneeds, hb⟩ := hab
  obtain ⟨job, hget⟩ : ∃ job, compiled.get? a = some job := by
    cases hget : compiled.get? a with
    | none => simp [needsOf?, hget] at hneeds
    | some job => exact ⟨job, rfl⟩
  cases h.emitted a job hget with
  | init hempty =>
    have hnone : needsOf? compiled config.initJobId = some [] := needsOf?_eq_some hget rfl
    rw [hnone] at hneeds
    cases hneeds
    cases hb
  | @pipeline owner _ _ hjob hassemble =>
    rw [needsOf?_pipeline h.names hjob hassemble hget] at hneeds
    cases hneeds
    exact ⟨owner, hjob, rfl, List.mem_cons.mp hb⟩
  | passthrough _ hsteps => exact absurd ⟨_, hget, hsteps⟩ ha

/-- A need that is not passed through, of which a job is the target that needs something and is not
passed through either, is a need of the graph. -/
theorem Emission.needs_of_needsIn (h : Emission graph config jobs compiled)
    (hinit : config.initJobId ∉ graph.jobs.map Job.name)
    (hab : NeedsIn compiled a b ∧ ¬ IsPassedThrough compiled a)
    (hbc : NeedsIn compiled b c ∧ ¬ IsPassedThrough compiled b) : Needs graph.jobs a b := by
  obtain ⟨job, hjob, rfl, hb⟩ := h.of_needsIn hab.1 hab.2
  obtain ⟨next, hnext, rfl, -⟩ := h.of_needsIn hbc.1 hbc.2
  have hlisted : next.name ∈ graph.jobs.map Job.name := List.mem_map_of_mem hnext
  refine ⟨job, hjob, rfl, hb.resolve_left fun heq => hinit (heq ▸ hlisted), hlisted⟩

/-- A path meets an element with the property before its end, or keeps to the others. -/
theorem exists_through_or_transGen {α : Type} {r : α → α → Prop} {p : α → Prop} {a b : α}
    (h : TransGen r a b) : (∃ m, p m ∧ ReflTransGen r a m ∧ TransGen r m b) ∨
      TransGen (fun x y => r x y ∧ ¬ p x) a b := by
  induction h using TransGen.head_induction_on with
  | single hab =>
    rename_i a
    by_cases ha : p a
    · exact .inl ⟨a, ha, .refl, .single hab⟩
    · exact .inr (.single ⟨hab, ha⟩)
  | head hac hcb ih =>
    rename_i a c
    by_cases ha : p a
    · exact .inl ⟨a, ha, .refl, .head hac hcb⟩
    · rcases ih with ⟨m, hm, hcm, hmb⟩ | hothers
      · exact .inl ⟨m, hm, .head hac hcm, hmb⟩
      · exact .inr (.head ⟨hac, ha⟩ hothers)

/-- A path that keeps to jobs that are not passed through, up to a job from which it could go on, is a
path of the graph. -/
theorem Emission.transGen_needs (h : Emission graph config jobs compiled)
    (hinit : config.initJobId ∉ graph.jobs.map Job.name)
    (hab : TransGen (fun x y => NeedsIn compiled x y ∧ ¬ IsPassedThrough compiled x) a b)
    (hbc : NeedsIn compiled b c ∧ ¬ IsPassedThrough compiled b) :
    TransGen (Needs graph.jobs) a b := by
  induction hab generalizing c with
  | single hstep => exact .single (h.needs_of_needsIn hinit hstep hbc)
  | tail _ hstep ih => exact (ih hstep).tail (h.needs_of_needsIn hinit hstep hbc)

/-- A cycle of needs leads through a job that is passed through. -/
theorem Emission.exists_passedThrough (h : Emission graph config jobs compiled)
    (hinit : config.initJobId ∉ graph.jobs.map Job.name) (hacyclic : ¬ HasCycle graph.jobs)
    (hcycle : TransGen (NeedsIn compiled) a a) : ∃ p, IsPassedThrough compiled p ∧
      ReflTransGen (NeedsIn compiled) a p ∧ TransGen (NeedsIn compiled) p a := by
  rcases exists_through_or_transGen (p := IsPassedThrough compiled) hcycle with hfound | hothers
  · exact hfound
  · obtain ⟨b, hab, -⟩ := TransGen.head'_iff.mp hothers
    exact absurd ⟨a, h.transGen_needs hinit hothers hab⟩ hacyclic

end

/-! ## Compilation -/

section

variable {graph : JobGraph} {config : Configuration} {jobs compiled : Object} {found : Classified}

theorem emission_of_compiled (hfound : jobs.foldlM (classify config) {} = .ok found)
    (hgraph : JobGraph.ofJobs found.pipeline found.passthrough = .ok graph) (hd : jobs.Distinct)
    (hcompiled : jobs.mapM (compileJob graph config) = .ok compiled) :
    Emission graph config jobs (initEntries graph config ++ compiled) := by
  have hsorts := sorts_of_foldlM hfound
  obtain ⟨hgraphjobs, hbuilt⟩ := JobGraph.built_of_ofJobs hgraph
  refine ⟨fun name job hget => emitted_of_get? hfound hgraphjobs hd hcompiled hget, ?_,
    hgraphjobs ▸ hsorts.nodup hd, fun job hjob => hsorts.needs_subset hgraphjobs hbuilt hjob⟩
  rw [Object.keys_append, keys_compiled hcompiled]

/-- The jobs of the document that are passed through are those of the workflow, as they are. -/
theorem isPassedThrough_compiled_iff (hfound : jobs.foldlM (classify config) {} = .ok found)
    (hgraph : graph.jobs = found.pipeline) (hd : jobs.Distinct)
    (hcompiled : jobs.mapM (compileJob graph config) = .ok compiled)
    (h : Emission graph config jobs (initEntries graph config ++ compiled)) (name : Text) :
    (IsPassedThrough (initEntries graph config ++ compiled) name ↔ IsPassedThrough jobs name) ∧
      (IsPassedThrough jobs name →
        Object.get? (initEntries graph config ++ compiled) name = jobs.get? name) := by
  have hsorts := sorts_of_foldlM hfound
  have hsame : IsPassedThrough jobs name →
      Object.get? (initEntries graph config ++ compiled) name = jobs.get? name := by
    rintro ⟨fields, hget, hsteps⟩
    have hmem := Object.mem_of_get? hget
    have hcontains : graph.contains name = false := by
      rw [hsorts.contains_iff hgraph hd hmem, hsteps]
    obtain ⟨value, hvalue, hcompile⟩ :=
      Object.get?_forall₂ (mapM_eq_ok.mp hcompiled) (fun _ _ => compileJob_fst) hget
    rw [compileJob_of_not_contains hcontains] at hcompile
    cases hcompile
    rw [get?_initEntries_append (hsorts.names name (Object.mem_keys_of_mem hmem)).2, hvalue, hget]
  refine ⟨⟨?_, fun hpassed => ?_⟩, hsame⟩
  · rintro ⟨fields, hget, hsteps⟩
    cases h.emitted name _ hget with
    | init _ => cases hsteps
    | pipeline hjob hassemble =>
      rw [contains_steps_of_assemble h.names hjob hassemble] at hsteps
      cases hsteps
    | passthrough hmem _ => exact ⟨fields, Object.get?_of_mem hd hmem, hsteps⟩
  · obtain ⟨fields, hget, hsteps⟩ := hpassed
    exact ⟨fields, (hsame ⟨fields, hget, hsteps⟩).trans hget, hsteps⟩

end

/-- Of a workflow that is emitted, the initialization job and the pipeline jobs need jobs of the
workflow only, and every cycle of needs leads through a job that is passed through. Those jobs are
emitted as they stand in the document. -/
theorem compile_checks_needs {document workflow jobs : Object} {config : Configuration}
    (hjobs : document.get? "jobs" = some (.object jobs)) (hd : jobs.Distinct)
    (h : compile document config = .ok workflow) :
    ∃ compiled, jobsOf workflow = some compiled ∧
      (∀ name ∈ compiled.keys, IsPassedThrough compiled name ∨
        ∃ needs, needsOf? compiled name = some needs ∧ ∀ need ∈ needs, need ∈ compiled.keys) ∧
      (∀ a, TransGen (NeedsIn compiled) a a → ∃ p, IsPassedThrough compiled p ∧
        ReflTransGen (NeedsIn compiled) a p ∧ TransGen (NeedsIn compiled) p a) ∧
      ∀ name, (IsPassedThrough compiled name ↔ IsPassedThrough jobs name) ∧
        (IsPassedThrough jobs name → compiled.get? name = jobs.get? name) := by
  obtain ⟨found, graph, results, -, hfound, hgraph, hresults, hworkflow⟩ := compile_stages hjobs h
  have hsorts := sorts_of_foldlM hfound
  have hgraphjobs : graph.jobs = found.pipeline := (JobGraph.built_of_ofJobs hgraph).1
  have hemission := emission_of_compiled hfound hgraph hd hresults
  have hinit : config.initJobId ∉ graph.jobs.map Job.name := by
    intro hmem
    rw [hgraphjobs] at hmem
    exact (hsorts.names _ (hsorts.sublist.subset hmem)).2 rfl
  have hacyclic : ¬ HasCycle graph.jobs := by
    rw [hgraphjobs, ← exists_topological_iff (hsorts.nodup hd)]
    exact (JobGraph.exists_ofJobs_eq_ok_iff.mp ⟨graph, hgraph⟩).2
  exact ⟨_, hworkflow, fun name hname => hemission.closed hname,
    fun a ha => hemission.exists_passedThrough hinit hacyclic ha,
    isPassedThrough_compiled_iff hfound hgraphjobs hd hresults hemission⟩

/-- A job that is passed through and needs a pipeline job that needs it, and a job that is not
there. -/
def gatedJobs : Object := [
  ("gate", .object [("uses", .string "gate.yml"), ("needs", Json.ofTexts ["build", "report"])]),
  ("build", .object [("runs-on", .string "linux"), ("needs", Json.ofTexts ["gate"]),
    ("steps", .array [])])]

theorem compile_checks_needs_gatedJobs :
    ∃ workflow compiled, compile [("jobs", .object gatedJobs)] {} = .ok workflow ∧
      jobsOf workflow = some compiled ∧ compiled.get? "gate" = gatedJobs.get? "gate" ∧
      ∀ a, TransGen (NeedsIn compiled) a a → ∃ p, IsPassedThrough compiled p ∧
        ReflTransGen (NeedsIn compiled) a p ∧ TransGen (NeedsIn compiled) p a := by
  have hok : (compile [("jobs", .object gatedJobs)] {}).toBool = true := by decide +kernel
  obtain ⟨workflow, h⟩ := toBool_eq_true.mp hok
  have hgate : IsPassedThrough gatedJobs "gate" := ⟨_, rfl, rfl⟩
  obtain ⟨compiled, hcompiled, -, hcycles, hpassed⟩ :=
    compile_checks_needs rfl (by decide +kernel) h
  exact ⟨workflow, compiled, h, hcompiled, (hpassed "gate").2 hgate, hcycles⟩

/-- In this workflow a need dangles, and a cycle is closed. -/
theorem exists_dangling_and_circular :
    ∃ workflow compiled, compile [("jobs", .object gatedJobs)] {} = .ok workflow ∧
      jobsOf workflow = some compiled ∧
      NeedsIn compiled "gate" "report" ∧ ("report" : Text) ∉ compiled.keys ∧
      TransGen (NeedsIn compiled) "gate" "gate" := by
  let gateNeeds : List Text := ["build", "report"]
  let buildNeeds : List Text := ["cixx-init", "gate"]
  have hneeds : ((compile [("jobs", .object gatedJobs)] {}).toOption.bind jobsOf).any
      (fun compiled => ("report" : Text) ∉ compiled.keys ∧ needsOf? compiled "gate" = some gateNeeds ∧
        needsOf? compiled "build" = some buildNeeds) = true := by decide +kernel
  obtain ⟨compiled, hcompiled, hall⟩ := Option.any_eq_true _ _ |>.mp hneeds
  obtain ⟨hreport, hgate, hbuild⟩ := of_decide_eq_true hall
  obtain ⟨workflow, hworkflow, hjobs⟩ := Option.bind_eq_some_iff.mp hcompiled
  have hforth : NeedsIn compiled "gate" "build" := ⟨gateNeeds, hgate, by decide⟩
  have hback : NeedsIn compiled "build" "gate" := ⟨buildNeeds, hbuild, by decide⟩
  exact ⟨workflow, compiled, toOption_eq_some.mp hworkflow, hjobs, ⟨gateNeeds, hgate, by decide⟩,
    hreport, .head hforth (.single hback)⟩

end CachedWorkflow
