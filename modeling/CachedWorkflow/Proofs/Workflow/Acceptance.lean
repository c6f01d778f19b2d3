import CachedWorkflow.Proofs.Checkout.Ancestors
import CachedWorkflow.Proofs.Json.Shape
import CachedWorkflow.Proofs.Pipeline.Normal
import CachedWorkflow.Proofs.Workflow.WellFormed

/-!
# Proofs: which documents compile

Of the documents in normal form the compiler accepts exactly the well formed ones (`compile_accepts`). All
templates of such a document have been looked at before (`AreTemplated`), and what the compiler puts into them
leaves them templates. So no step of the compiler finds a malformed one, and what it refuses is a value of the
wrong shape, a name or a need (`IsRefusal`).
-/

namespace CachedWorkflow

open Renaming Template

/-! ## Templates that have been looked at -/

/-- What is known of a job in normal form: its needs can be read, and everything else in it is made of
templates. -/
structure IsTemplated (job : Object) : Prop where
  needs : ∃ needs, readNeeds job [] = .ok needs
  scans : ∀ key value, (key, value) ∈ job → key ≠ "needs" → value.IsScannable

/-- What is known of the jobs of a document in normal form. -/
structure AreTemplated (jobs : Object) : Prop where
  distinct : jobs.Distinct
  templated : ∀ entry ∈ jobs, ∃ job, entry.2 = .object job ∧ IsTemplated job

theorem areTemplated_of_preprocess {library : Library} {path : Text} {document : Object}
    (h : preprocess library path = .ok document) :
    ∃ jobs, document.get? "jobs" = some (.object jobs) ∧ AreTemplated jobs := by
  obtain ⟨expanded, hexpand, hnormalize⟩ := bind_eq_ok.mp h
  obtain ⟨-, _, jobs, -, hjobs, hd, -, hnormal⟩ :=
    normalizes_jobs (isExpanded_of_expandFrom hexpand) hnormalize
  refine ⟨jobs, hjobs, hd, fun entry hentry => ?_⟩
  obtain ⟨name, before, job, -, rfl, hjob⟩ := hnormal entry hentry
  obtain ⟨-, needs, -, -, hneeds⟩ := hjob.needs
  refine ⟨job, rfl, ⟨needs, hneeds.reads⟩, fun key value hmem hkey text htext => ?_⟩
  obtain ⟨tokens, hscan, -⟩ := hjob.isNormalJob.references key value hmem hkey text htext
  exact ⟨tokens, hscan⟩

theorem AreTemplated.of_mem {jobs : Object} (h : AreTemplated jobs) {name : Text} {fields : Object}
    (hmem : (name, Json.object fields) ∈ jobs) : IsTemplated fields := by
  obtain ⟨job, heq, hjob⟩ := h.templated _ hmem
  exact Json.object.inj heq ▸ hjob

theorem outputs_of_ofJob {name : Text} {job : Object} {settings : JobSettings}
    (h : JobSettings.ofJob name job = .ok settings) :
    settings.outputs = (job.get? "outputs").filter (· ≠ .null) := by
  obtain ⟨paths, outputPaths, extraKey, force, needs, -, -, -, -, -, rfl⟩ := ofJob_eq_ok_iff.mp h
  rfl

/-! ## Jobs -/

section

variable {graph : JobGraph} {config : Configuration} {name : Text} {fields : Object}
  {settings : JobSettings} {names : Renaming}

/-- What stands for the outputs of dependencies can be put into every template. -/
theorem isSafe_outputsRenaming (hid : ∀ c ∈ config.outputsStepId, c ≠ '\'' ∧ c ≠ '}') {dependencies : List Job}
    (hnames : ∀ d ∈ dependencies, IsName d.name) :
    ∀ pair ∈ outputsRenaming config dependencies, IsSafe pair := by
  intro pair hpair
  obtain ⟨d, hd, rfl⟩ := mem_outputsRenaming.mp hpair
  have hreference := isReference_outputsReference isName_needs (hnames d hd).chars
  refine ⟨endsQuoted_eq_false fun hquote => ?_, isPlaceable_outputsText hid (hnames d hd)⟩
  exact ne_quote_of_joinsNext (hreference.joins _ hquote) rfl

/-- The steps of the author are made of templates, and so is what a pass makes of them. -/
theorem exists_mapM_applyToValue (htemplated : IsTemplated fields) {own : List Json}
    (hown : authoredSteps name fields = .ok own) (names : Renaming) :
    ∃ authored, own.mapM names.applyToValue = .ok authored := by
  have hsteps := (authoredSteps_eq_ok.mp hown).2.1
  have hscannable := htemplated.scans _ _ (Object.mem_of_get? hsteps) (by decide)
  exact exists_mapM_eq_ok_iff.mpr fun step hstep =>
    exists_applyToValue names (isScannable_array_iff.mp hscannable step hstep)

/-- The outputs of a job that is made of templates can be saved. -/
theorem exists_outputsSteps (htemplated : IsTemplated fields)
    (hsettings : JobSettings.ofJob name fields = .ok settings) (hsafe : ∀ pair ∈ names, IsSafe pair) :
    ∃ saving, outputsSteps name settings.outputs names = .ok saving := by
  rw [outputs_of_ofJob hsettings]
  cases houtputs : (fields.get? "outputs").filter (· ≠ .null) with
  | none => exact ⟨[], rfl⟩
  | some outputs =>
    obtain ⟨hget, -⟩ := Option.filter_eq_some_iff.mp houtputs
    have hscannable := htemplated.scans _ _ (Object.mem_of_get? hget) (by decide)
    -- the pass leaves templates, which can be rendered
    obtain ⟨renamed, hrenamed⟩ := exists_applyToValue names hscannable
    obtain ⟨template, htemplate⟩ :=
      Json.exists_toJsonTemplate (isScannable_of_applyToValue hsafe hscannable hrenamed)
    refine exists_bind_eq_ok_iff.mpr ⟨renamed, hrenamed, exists_bind_eq_ok_iff.mpr ?_⟩
    exact ⟨_, bind_eq_ok.mpr ⟨template, htemplate, rfl⟩, _, rfl⟩

/-- A condition that is a template is refused only for its kind. -/
theorem authoredCondition_of_isScannable (name : Text) {value : Json} (h : value.IsScannable) :
    ((∃ condition, authoredCondition name value = .ok condition) ↔
      (∃ text, value = .string text) ∨ ∃ flag, value = .bool flag) ∧
    FailsByShape (authoredCondition name value) := by
  cases value with
  | string text =>
    obtain ⟨expression?, hfull⟩ := exists_fullExpression? (h text (List.mem_singleton_self text))
    have hok : ∃ condition, authoredCondition name (.string text) = .ok condition := by
      refine exists_bind_eq_ok_iff.mpr ⟨expression?, hfull, ?_⟩
      cases expression? with
      | some expression => exact ⟨expression, rfl⟩
      | none => exact ⟨_, rfl⟩
    exact ⟨iff_of_true hok (.inl ⟨text, rfl⟩), failsWith_of_exists hok⟩
  | bool flag => exact ⟨iff_of_true ⟨_, rfl⟩ (.inr ⟨flag, rfl⟩), failsWith_ok⟩
  | null => exact ⟨by simp [authoredCondition], failsWith_error.mpr (.wrongKind _ _ _)⟩
  | number _ => exact ⟨by simp [authoredCondition], failsWith_error.mpr (.wrongKind _ _ _)⟩
  | array _ => exact ⟨by simp [authoredCondition], failsWith_error.mpr (.wrongKind _ _ _)⟩
  | object _ => exact ⟨by simp [authoredCondition], failsWith_error.mpr (.wrongKind _ _ _)⟩

theorem authoredCondition?_of_isTemplated (name : Text) (htemplated : IsTemplated fields) :
    ((∃ condition, authoredCondition? name fields = .ok condition) ↔ FitsIfPresent fields "if" fun value =>
      (∃ text, value = .string text) ∨ ∃ flag, value = .bool flag) ∧
    FailsByShape (authoredCondition? name fields) := by
  rw [authoredCondition?, FitsIfPresent]
  cases hvalue : fields.get? "if" with
  | none => simp
  | some value =>
    obtain ⟨hiff, hfails⟩ :=
      authoredCondition_of_isScannable name (htemplated.scans _ _ (Object.mem_of_get? hvalue) (by decide))
    refine ⟨?_, hfails.map⟩
    simp only [Option.some.injEq, forall_eq', ← hiff, map_eq_ok]
    constructor
    · rintro ⟨_, condition, hok, -⟩
      exact ⟨condition, hok⟩
    · rintro ⟨condition, hok⟩
      exact ⟨_, condition, hok, rfl⟩

theorem failsByShape_authoredSteps : FailsByShape (authoredSteps name fields) := by
  have hcheck : ∀ (location : Text) (index : Nat) (steps : List Json),
      FailsByShape (checkSteps location index steps) := by
    intro location index steps
    induction steps generalizing index with
    | nil => exact failsWith_ok
    | cons step rest ih => exact (failsByShape_asObject _ step).bind fun _ => ih _
  refine (failsByShape_require _ _ _).bind fun _ => (failsByShape_require _ _ _).bind fun value => ?_
  exact (failsByShape_asArray _ value).bind fun steps => (hcheck _ _ steps).bind fun _ => failsWith_ok

/-- A job that is made of templates is assembled if it is runnable, and is refused for its shape only. -/
theorem assemble_of_isTemplated (hget : graph.get? name = some settings)
    (hsettings : JobSettings.ofJob name fields = .ok settings) (htemplated : IsTemplated fields)
    (hsafe : ∀ pair ∈ outputsRenaming config (graph.pipelineNeeds name), IsSafe pair) :
    ((∃ compiled, assemble name fields graph config = .ok compiled) ↔ IsRunnable fields) ∧
      FailsByShape (assemble name fields graph config) := by
  obtain ⟨hcondition, hconditionFails⟩ := authoredCondition?_of_isTemplated name htemplated
  obtain ⟨saving, hsaving⟩ := exists_outputsSteps htemplated hsettings hsafe
  refine ⟨⟨?_, fun h => ?_⟩, ?_⟩
  · rintro ⟨compiled, h⟩
    obtain ⟨own, authored, saving, condition, hown, -, -, hok, -⟩ := (assemble_stages hget).mp h
    obtain ⟨hrunner, hsteps⟩ := exists_authoredSteps_iff.mp ⟨own, hown⟩
    exact ⟨hrunner, hsteps, hcondition.mp ⟨condition, hok⟩⟩
  · obtain ⟨own, hown⟩ := exists_authoredSteps_iff.mpr ⟨h.runner, h.steps⟩
    obtain ⟨authored, hauthored⟩ := exists_mapM_applyToValue htemplated hown
      (outputsRenaming config (graph.pipelineNeeds name))
    obtain ⟨condition, hok⟩ := hcondition.mpr h.condition
    exact ⟨_, (assemble_stages hget).mpr ⟨own, authored, saving, condition, hown, hauthored, hsaving, hok, rfl⟩⟩
  · rw [assemble, hget]
    refine failsByShape_authoredSteps.bind_of_eq_ok fun own hown => ?_
    refine (failsWith_of_exists (exists_mapM_applyToValue htemplated hown _)).bind fun authored => ?_
    refine (failsWith_of_exists ⟨saving, hsaving⟩).bind fun saving => ?_
    exact hconditionFails.bind fun condition => failsWith_ok

theorem compileJob_of_contains (h : graph.contains name = true) :
    compileJob graph config (name, .object fields)
      = assemble name fields graph config >>= fun assembled => .ok (name, .object assembled) := by
  unfold compileJob
  simp only [h, if_true]
  rfl

end

section

variable {config : Configuration} {jobs : Object} {found : Classified} {graph : JobGraph}

/-- A job with templates that have been looked at is compiled if it is runnable or has no steps, and is
refused for its shape only. -/
theorem compileJob_of_areTemplated (hfound : jobs.foldlM (classify config) {} = .ok found)
    (hgraph : JobGraph.ofJobs found.pipeline found.passthrough = .ok graph) (htemplated : AreTemplated jobs)
    (hid : ∀ c ∈ config.outputsStepId, c ≠ '\'' ∧ c ≠ '}') {name : Text} {fields : Object}
    (hmem : (name, Json.object fields) ∈ jobs) :
    ((∃ compiled, compileJob graph config (name, .object fields) = .ok compiled) ↔
      (Object.contains fields "steps" = true → IsRunnable fields)) ∧
    FailsByShape (compileJob graph config (name, .object fields)) := by
  have hsorts := sorts_of_foldlM hfound
  obtain ⟨hgraphjobs, hbuilt⟩ := JobGraph.built_of_ofJobs hgraph
  have hcontains := hsorts.contains_iff hgraphjobs htemplated.distinct hmem
  cases hsteps : Object.contains fields "steps" with
  | false =>
    rw [compileJob_of_not_contains (hcontains.trans hsteps)]
    exact ⟨iff_of_true ⟨_, rfl⟩ fun h => (nomatch h), failsWith_ok⟩
  | true =>
    obtain ⟨settings, hsettings⟩ := hsorts.readable name fields hmem hsteps
    have hjob : (⟨name, settings⟩ : Job) ∈ graph.jobs :=
      hgraphjobs ▸ (hsorts.mem_pipeline _).mpr ⟨fields, hmem, hsteps, hsettings⟩
    have hnames : (graph.jobs.map Job.name).Nodup := hgraphjobs ▸ hsorts.nodup htemplated.distinct
    have hdependencies : ∀ d ∈ graph.pipelineNeeds name, IsName d.name := fun d hd =>
      hsorts.needs_names hgraphjobs hbuilt hjob _ ((hbuilt.mem_pipelineNeeds hnames hjob).mp hd).2
    obtain ⟨hiff, hfails⟩ := assemble_of_isTemplated (JobGraph.Built.get?_eq hnames hjob) hsettings
      (htemplated.of_mem hmem) (isSafe_outputsRenaming hid hdependencies)
    rw [compileJob_of_contains (hcontains.trans hsteps)]
    refine ⟨?_, hfails.bind fun _ => failsWith_ok⟩
    simp only [exists_bind_eq_ok_iff, Except.ok.injEq, exists_eq', and_true, hiff, forall_const]

end

/-! ## Refusals -/

/-- What the compiler finds wrong with a document whose templates have been looked at. -/
inductive IsRefusal : Error → Prop where
  | misshapen {e : Error} : IsMisshapen e → IsRefusal e
  | invalidJobId (id : Text) (fault : JobIdFault) : IsRefusal (.invalidJobId id fault)
  | unknownDependency (job dependency : Text) : IsRefusal (.unknownDependency job dependency)
  | cycle (chain : List Text) : IsRefusal (.cycle chain)

/-- The computation fails by refusals only. -/
abbrev Refuses {α : Type} (x : Except Error α) : Prop := FailsWith IsRefusal x

theorem refuses_of_failsByShape {α : Type} {x : Except Error α} (h : FailsByShape x) : Refuses x :=
  h.mono fun _ => .misshapen

theorem refuses_validateJobId (id : Text) : Refuses (validateJobId id) := by
  unfold validateJobId
  split
  · exact failsWith_error.mpr (.invalidJobId _ _)
  · split
    · exact failsWith_ok
    · exact failsWith_error.mpr (.invalidJobId _ _)

theorem failsByShape_ofJob (name : Text) (job : Object) : FailsByShape (JobSettings.ofJob name job) := by
  have hproperty : ∀ {α : Type} (property location : Text) (default : α) (read : Text → Json → Except Error α),
      (∀ location value, FailsByShape (read location value)) →
      FailsByShape (JobSettings.property job property location default read) := by
    intro α property location default read hread
    rw [JobSettings.property]
    cases job.get? property with
    | none => exact failsWith_ok
    | some value => exact hread _ value
  refine (hproperty _ _ _ _ failsByShape_asStrings).bind fun _ => ?_
  refine (hproperty _ _ _ _ failsByShape_asStrings).bind fun _ => ?_
  refine (hproperty _ _ _ _ failsByShape_asString).bind fun _ => ?_
  refine (hproperty _ _ _ _ failsByShape_asBool).bind fun _ => ?_
  exact (failsByShape_readNeeds job _).bind fun _ => failsWith_ok

theorem refuses_classify (config : Configuration) (found : Classified) (entry : Text × Json) :
    Refuses (classify config found entry) := by
  obtain ⟨name, job⟩ := entry
  refine (refuses_validateJobId name).bind fun _ => ?_
  by_cases hinit : name = config.initJobId
  · rw [if_pos hinit]
    exact failsWith_error.mpr (.invalidJobId _ _)
  · rw [if_neg hinit]
    refine (refuses_of_failsByShape (failsByShape_asObject _ job)).bind fun fields => ?_
    split
    · exact (refuses_of_failsByShape (failsByShape_ofJob name fields)).bind fun _ => failsWith_ok
    · exact failsWith_ok

theorem refuses_ofJobs (jobs : List Job) (passthrough : List Text) :
    Refuses (JobGraph.ofJobs jobs passthrough) := by
  rw [JobGraph.ofJobs]
  refine FailsWith.bind (fun e h => ?_) fun dependencies => ?_
  · obtain ⟨job, need, -, rfl⟩ := mapM_resolveNeeds_eq_error.mp h
    exact .unknownDependency job need
  · split
    · exact failsWith_error.mpr (.cycle _)
    · exact failsWith_ok

section

variable {document jobs : Object} {config : Configuration}

/-- No template of a document in normal form is refused. -/
theorem refuses_compile (hjobs : document.get? "jobs" = some (.object jobs)) (htemplated : AreTemplated jobs)
    (hid : ∀ c ∈ config.outputsStepId, c ≠ '\'' ∧ c ≠ '}') : Refuses (compile document config) := by
  have hread : (stripCallTrigger document).require "jobs" "top level" = .ok (.object jobs) := by
    rw [Object.require, get?_jobs_stripCallTrigger, hjobs]
  unfold compile
  simp only [hread]
  refine failsWith_ok.bind_of_eq_ok fun value hvalue => ?_
  cases hvalue
  refine (refuses_of_failsByShape (failsByShape_asObject _ _)).bind_of_eq_ok fun fields hfields => ?_
  cases hfields
  refine (refuses_validateJobId _).bind fun _ => ?_
  refine (FailsWith.foldlM (refuses_classify config)).bind_of_eq_ok fun found hfound => ?_
  refine (refuses_ofJobs _ _).bind_of_eq_ok fun graph hgraph => ?_
  -- templates are read when the jobs are compiled, and not before
  refine (FailsWith.mapM_of_mem fun entry hentry => ?_).bind fun _ => failsWith_ok
  obtain ⟨name, value⟩ := entry
  obtain ⟨fields, rfl⟩ := eq_object_of_classify hfound _ hentry
  exact refuses_of_failsByShape (compileJob_of_areTemplated hfound hgraph htemplated hid hentry).2

/-! ## Acceptance -/

/-- The jobs can be sorted if their names are usable and their settings can be read. -/
theorem exists_classified_of_areTemplated (htemplated : AreTemplated jobs) :
    (∃ found, jobs.foldlM (classify config) {} = .ok found) ↔
      (∀ name ∈ jobs.keys, IsJobId name ∧ name ≠ config.initJobId) ∧
      ∀ name fields, (name, Json.object fields) ∈ jobs → Object.contains fields "steps" = true →
        HasReadableSettings fields := by
  have hsettings : ∀ name fields, (name, Json.object fields) ∈ jobs →
      ((∃ settings, JobSettings.ofJob name fields = .ok settings) ↔ HasReadableSettings fields) :=
    fun _ _ hmem => exists_ofJob_iff (htemplated.of_mem hmem).needs
  rw [exists_classified_iff]
  constructor
  · intro h
    refine ⟨fun name hname => ?_, fun name fields hmem hsteps => ?_⟩
    · obtain ⟨⟨name, value⟩, hentry, rfl⟩ := List.mem_map.mp hname
      obtain ⟨hvalid, hinit, -⟩ := h _ hentry
      exact ⟨validateJobId_eq_ok_iff.mp hvalid, hinit⟩
    · obtain ⟨-, -, _, heq, hofJob⟩ := h _ hmem
      obtain rfl := Json.object.inj heq
      exact (hsettings name fields hmem).mp (hofJob hsteps)
  · rintro ⟨hnames, hreadable⟩ ⟨name, value⟩ hentry
    obtain ⟨hvalid, hinit⟩ := hnames name (Object.mem_keys_of_mem hentry)
    obtain ⟨fields, rfl, -⟩ := htemplated.templated _ hentry
    refine ⟨validateJobId_eq_ok_iff.mpr hvalid, hinit, fields, rfl, fun hsteps => ?_⟩
    exact (hsettings name fields hentry).mpr (hreadable name fields hentry hsteps)

/-- A document whose templates have been looked at compiles if it is well formed. -/
theorem exists_compile_iff (hjobs : document.get? "jobs" = some (.object jobs)) (htemplated : AreTemplated jobs)
    (hid : ∀ c ∈ config.outputsStepId, c ≠ '\'' ∧ c ≠ '}') :
    (∃ workflow, compile document config = .ok workflow) ↔ IsWellFormed config jobs := by
  constructor
  · rintro ⟨workflow, h⟩
    obtain ⟨found, graph, compiled, hvalid, hfound, hgraph, hcompiled, -⟩ := (compile_eq_ok_iff hjobs).mp h
    obtain ⟨hnames, hsettings⟩ := (exists_classified_of_areTemplated htemplated).mp ⟨found, hfound⟩
    obtain ⟨hknown, hacyclic⟩ := (exists_graph_iff_declared hfound htemplated.distinct).mp ⟨graph, hgraph⟩
    refine ⟨validateJobId_eq_ok_iff.mp hvalid, hnames, hsettings, fun name fields hmem => ?_, hknown, hacyclic⟩
    exact (compileJob_of_areTemplated hfound hgraph htemplated hid hmem).1.mp
      (exists_mapM_eq_ok_iff.mp ⟨compiled, hcompiled⟩ _ hmem)
  · intro h
    obtain ⟨found, hfound⟩ := (exists_classified_of_areTemplated htemplated).mpr ⟨h.names, h.settings⟩
    obtain ⟨graph, hgraph⟩ := (exists_graph_iff_declared hfound htemplated.distinct).mpr ⟨h.known, h.acyclic⟩
    obtain ⟨compiled, hcompiled⟩ : ∃ compiled, jobs.mapM (compileJob graph config) = .ok compiled := by
      refine exists_mapM_eq_ok_iff.mpr fun (name, value) hentry => ?_
      obtain ⟨fields, rfl, -⟩ := htemplated.templated _ hentry
      have hcompile := compileJob_of_areTemplated hfound hgraph htemplated hid hentry
      exact hcompile.1.mpr (h.runnable name fields hentry)
    exact ⟨_, (compile_eq_ok_iff hjobs).mpr
      ⟨found, graph, compiled, validateJobId_eq_ok_iff.mpr h.init, hfound, hgraph, hcompiled, rfl⟩⟩

end

/-- The paths that jobs with steps declare are relative. -/
def DeclareRelative (jobs : Object) : Prop :=
  ∀ name fields, (name, Json.object fields) ∈ jobs → Object.contains fields "steps" = true →
    ∀ texts, Object.get? fields "paths" = some (Json.ofTexts texts) →
      ∀ path ∈ texts, Path.isAbsolute path = false

/-- The paths of the settings are those that are declared, or else the whole tree. -/
theorem isAbsolute_eq_false_of_ofJob {name : Text} {fields : Object} {settings : JobSettings}
    (h : JobSettings.ofJob name fields = .ok settings)
    (hrelative : ∀ texts, fields.get? "paths" = some (Json.ofTexts texts) →
      ∀ path ∈ texts, Path.isAbsolute path = false) :
    ∀ path ∈ settings.paths, Path.isAbsolute path = false := by
  obtain ⟨paths, outputPaths, extraKey, force, needs, hpaths, -, -, -, -, rfl⟩ := ofJob_eq_ok_iff.mp h
  intro path hpath
  have hmem : path ∈ paths := mem_withoutRepeats.mp hpath
  rw [JobSettings.property] at hpaths
  cases hvalue : fields.get? "paths" with
  | none =>
    rw [hvalue] at hpaths
    cases hpaths
    rw [List.mem_singleton.mp hmem]
    decide
  | some value =>
    rw [hvalue] at hpaths
    rw [asStrings_eq_ok.mp hpaths] at hvalue
    exact hrelative paths hvalue path hmem

/-- Of the documents in normal form exactly the well formed ones compile. What is refused is never a template,
and no job is looked for that is not in the graph. As the declared paths are relative, the recursion that puts
the checkouts together ends. -/
theorem compile_accepts {library : Library} {path : Text} {document : Object} {config : Configuration}
    (h : preprocess library path = .ok document) (hid : ∀ c ∈ config.outputsStepId, c ≠ '\'' ∧ c ≠ '}')
    (hrelative : ∀ jobs, document.get? "jobs" = some (.object jobs) → DeclareRelative jobs) :
    ∃ jobs, document.get? "jobs" = some (.object jobs) ∧
      ((∃ workflow, compile document config = .ok workflow) ↔ IsWellFormed config jobs) ∧
      (∀ template, compile document config ≠ .error (.malformedTemplate template)) ∧
      (∀ job, compile document config ≠ .error (.notAPipelineJob job)) ∧
      ∀ name fields settings, (name, Json.object fields) ∈ jobs → Object.contains fields "steps" = true →
        JobSettings.ofJob name fields = .ok settings →
        ∀ patterns, sparsePatterns settings.paths = some patterns →
          ∃ cone, Cone.AddsPaths Cone.root settings.paths cone ∧ patterns = cone.patterns := by
  obtain ⟨jobs, hjobs, htemplated⟩ := areTemplated_of_preprocess h
  have hrefuses := refuses_compile hjobs htemplated hid
  refine ⟨jobs, hjobs, exists_compile_iff hjobs htemplated hid, fun template herror => ?_, fun job herror => ?_,
    fun name fields settings hmem hsteps hsettings patterns hpatterns => ?_⟩
  · obtain ⟨⟨⟩⟩ := hrefuses _ herror
  · obtain ⟨⟨⟩⟩ := hrefuses _ herror
  · exact exists_addsPaths_of_sparsePatterns
      (isAbsolute_eq_false_of_ofJob hsettings (hrelative jobs hjobs name fields hmem hsteps)) hpatterns

/-- A document that calls another one for a check, and publishes what it has built. -/
def publicationDocuments : List (Text × Json) := [
  ("main", .object [("jobs", .object [
    ("build", .object [("runs-on", .string "linux"), ("paths", Json.ofTexts ["src/"]),
      ("outputs", .object [("file", .string ("app-" ++ placeholder "github.sha"))]),
      ("steps", .array [.string "make"])]),
    ("check", .object [(callProperty, .string "check"), ("needs", .string "build")]),
    ("publish", .object [("runs-on", .string "linux"), ("needs", Json.ofTexts ["check", "build"]),
      ("if", .string (placeholder "github.ref == 'refs/heads/main'")), ("force", .bool true),
      ("steps", .array [.string ("publish " ++ placeholder "jobs.build.outputs.file")])])])]),
  ("check", .object [("jobs", .object [
    ("lint", .object [("runs-on", .string "linux"), ("steps", .array [.string "lint"])])])])]

/-- Its jobs are well formed, unless one of them has the name of the initialization job. -/
theorem compile_accepts_publication : ∃ document jobs : Object,
    preprocess (.ofDocuments publicationDocuments []) "main" = .ok document ∧
    document.get? "jobs" = some (.object jobs) ∧ jobs.keys = ["build", "check-lint", "publish"] ∧
    IsWellFormed {} jobs ∧ ¬ IsWellFormed { initJobId := "build" } jobs ∧
    ∀ template, compile document { initJobId := "build" } ≠ .error (.malformedTemplate template) := by
  have hexpand := expandWithin_eq_expand (namesAre_ofDocuments publicationDocuments)
    (fun path => .error (.unparsable path)) "main"
  have hpaths : ((preprocess (.ofDocuments publicationDocuments []) "main").toOption.bind jobsOf).map
        (fun jobs => jobs.filterMap fun entry => entry.2.member? "paths")
      = some [Json.ofTexts ["src/"]] := by
    rw [preprocess, ← hexpand]
    decide +kernel
  have hkeys : ((preprocess (.ofDocuments publicationDocuments []) "main").toOption.bind jobsOf).map Object.keys
      = some (["build", "check-lint", "publish"] : List Text) := by
    rw [preprocess, ← hexpand]
    decide +kernel
  have haccepted : (compileFile (.ofDocuments publicationDocuments []) "main" {}).toBool = true := by
    rw [compileFile, preprocess, ← hexpand]
    decide +kernel
  have hrefused : (compileFile (.ofDocuments publicationDocuments []) "main" { initJobId := "build" }).toBool
      = false := by
    rw [compileFile, preprocess, ← hexpand]
    decide +kernel
  obtain ⟨workflow, hworkflow⟩ := toBool_eq_true.mp haccepted
  obtain ⟨document, hpreprocess, hcompile⟩ := bind_eq_ok.mp hworkflow
  have hid : ∀ c ∈ ({} : Configuration).outputsStepId, c ≠ '\'' ∧ c ≠ '}' := by decide
  have hid' : ∀ c ∈ ({ initJobId := "build" } : Configuration).outputsStepId, c ≠ '\'' ∧ c ≠ '}' := by decide
  have hjobsOf : ∀ jobs, document.get? "jobs" = some (.object jobs) → jobsOf document = some jobs := by
    intro jobs hjobs
    rw [jobsOf, hjobs]
    rfl
  rw [hpreprocess, Except.toOption, Option.bind_some] at hpaths hkeys
  have hrelative : ∀ jobs, document.get? "jobs" = some (.object jobs) → DeclareRelative jobs := by
    intro jobs hjobs name fields hmem _ texts htexts path hpath
    rw [hjobsOf jobs hjobs, Option.map_some, Option.some_inj] at hpaths
    have hdeclared : Json.ofTexts texts ∈ jobs.filterMap fun entry => entry.2.member? "paths" :=
      List.mem_filterMap.mpr ⟨_, hmem, htexts⟩
    rw [hpaths, List.mem_singleton] at hdeclared
    have hsame : texts = [("src/" : Text)] :=
      List.map_injective_iff.mpr (fun _ _ => Json.string.inj) (Json.array.inj hdeclared)
    rw [hsame, List.mem_singleton] at hpath
    rw [hpath]
    decide
  obtain ⟨jobs, hjobs, hiff, -⟩ := compile_accepts hpreprocess hid hrelative
  obtain ⟨jobs', hjobs', hiff', htemplate, -⟩ := compile_accepts hpreprocess hid' hrelative
  obtain rfl : jobs' = jobs := Json.object.inj (Option.some.inj (hjobs'.symm.trans hjobs))
  rw [hjobsOf jobs' hjobs] at hkeys
  refine ⟨document, jobs', hpreprocess, hjobs, Option.some.inj hkeys, hiff.mp ⟨workflow, hcompile⟩,
    fun hwell => ?_, htemplate⟩
  obtain ⟨workflow', hcompile'⟩ := hiff'.mpr hwell
  rw [compileFile, hpreprocess] at hrefused
  exact Bool.false_ne_true (hrefused.symm.trans (toBool_eq_true.mpr ⟨workflow', hcompile'⟩))

end CachedWorkflow
