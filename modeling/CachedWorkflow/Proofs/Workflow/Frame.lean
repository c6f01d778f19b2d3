import CachedWorkflow.Proofs.Workflow.Needs
import CachedWorkflow.Proofs.Workflow.Outputs

/-!
# Proofs: what the compiler leaves alone

A workflow is its document with the jobs compiled and the interface for callers taken away
(`stripCallTrigger_eq_mapKey`). A job without steps is passed through. Of a job with steps the properties
that are not the compiler's own stay as they are (`foreignProperties_of_assemble`), and the steps of the
author stand next to each other, with nothing rewritten but placeholders that mention the outputs of a
dependency (`sameOutside_of_applyToTemplate`). The main result is `compile_keeps`.
-/

namespace CachedWorkflow

open Renaming Template

/-! ## The document -/

/-- The triggers of a document without the interface for callers. -/
def withoutInterface : Json → Json
  | .object triggers => .object (triggers.filter (·.1 ≠ callTrigger))
  | value => value

theorem stripCallTrigger_eq_mapKey {document : Object} (hd : document.Distinct) :
    stripCallTrigger document = document.mapKey "on" withoutInterface := by
  cases hon : document.get? "on" with
  | none =>
    rw [stripCallTrigger, hon, Object.mapKey_of_not_mem (Object.get?_eq_none_iff.mp hon)]
  | some value =>
    rw [← Object.insert_eq_mapKey hd hon, stripCallTrigger, hon]
    cases value with
    | object triggers =>
      show (if Object.contains triggers callTrigger then _ else document) = _
      by_cases hcontains : Object.contains triggers callTrigger = true
      · rw [if_pos hcontains]
        rfl
      · have hnot : callTrigger ∉ Object.keys triggers := fun hmem =>
          hcontains (Object.contains_iff.mpr hmem)
        have hfilter : triggers.filter (·.1 ≠ callTrigger) = triggers :=
          List.filter_eq_self.mpr fun entry hentry =>
            decide_eq_true fun heq => hnot (heq ▸ Object.mem_keys_of_mem hentry)
        rw [if_neg hcontains, withoutInterface, hfilter, Object.insert_eq_self hon]
    | _ => exact (Object.insert_eq_self hon).symm

theorem Object.Distinct.stripCallTrigger {document : Object} (hd : document.Distinct) :
    (CachedWorkflow.stripCallTrigger document).Distinct := by
  rw [stripCallTrigger_eq_mapKey hd, Object.Distinct, Object.keys_mapKey]
  exact hd

/-! ## Needs -/

theorem withoutRepeats_filter (p : Text → Bool) (texts : List Text) :
    withoutRepeats (texts.filter p) = (withoutRepeats texts).filter p := by
  induction texts with
  | nil => rfl
  | cons first rest ih =>
    rw [withoutRepeats]
    by_cases hfirst : p first = true
    · rw [List.filter_cons_of_pos hfirst, List.filter_cons_of_pos hfirst, withoutRepeats, ih,
        List.filter_comm]
    · have hdrop : ∀ text ∈ withoutRepeats rest, p text = true → decide (text ≠ first) = true := by
        intro text _ htext
        exact decide_eq_true fun heq => hfirst (heq ▸ htext)
      rw [List.filter_cons_of_neg hfirst, List.filter_cons_of_neg hfirst, ih, List.filter_filter]
      refine List.filter_congr fun text htext => ?_
      rw [Bool.eq_iff_iff, Bool.and_eq_true]
      exact ⟨fun h => ⟨h, hdrop text htext h⟩, fun h => h.1⟩

/-- Of equal texts the first one is kept. -/
theorem withoutRepeats_eq_eraseDups : ∀ texts : List Text, withoutRepeats texts = texts.eraseDups
  | [] => rfl
  | first :: rest => by
    have hdrop : ∀ text ∈ withoutRepeats rest, decide (text ≠ first) = !text == first := by
      intro text _
      rw [decide_not, beq_eq_decide]
    rw [withoutRepeats, List.eraseDups_cons, ← withoutRepeats_eq_eraseDups (rest.filter _),
      withoutRepeats_filter, List.filter_congr hdrop]
termination_by texts => texts.length
decreasing_by exact Nat.lt_succ_of_le (List.length_filter_le _ _)

/-- The settings have the declared needs without repeats. -/
theorem needs_of_ofJob {name : Text} {job : Object} {settings : JobSettings}
    (h : JobSettings.ofJob name job = .ok settings) :
    ∃ needs, readNeeds job [] = .ok needs ∧ settings.needs = needs.eraseDups := by
  obtain ⟨paths, outputPaths, extraKey, force, needs, -, -, -, -, hneeds, rfl⟩ := ofJob_eq_ok_iff.mp h
  exact ⟨needs, readNeeds_congr hneeds, withoutRepeats_eq_eraseDups needs⟩

/-! ## Properties -/

/-- The properties of a pipeline job that the compiler sets or takes away. -/
def ownedProperties : List Text :=
  ["if", "needs", "steps", "paths", "output-paths", "extra-key", "force", "outputs"]

/-- The properties of a job that the compiler does not own, in their order. -/
def foreignProperties (job : Object) : Object := job.filter fun entry => !ownedProperties.contains entry.1

theorem foreignProperties_keptProperties (job : Object) :
    foreignProperties (keptProperties job) = foreignProperties job := by
  rw [foreignProperties, foreignProperties, keptProperties, List.filter_filter]
  refine List.filter_congr fun entry _ => ?_
  rw [Bool.and_eq_left_iff_imp]
  intro hforeign
  simp [ownedProperties, settingsProperties] at hforeign ⊢
  tauto

/-- A compiled job has the foreign properties of the job, each with its value and in the order of the
job. -/
theorem foreignProperties_of_assemble {name : Text} {job compiled : Object} {graph : JobGraph}
    {config : Configuration} {settings : JobSettings} (hsettings : graph.get? name = some settings)
    (hd : job.Distinct) (h : assemble name job graph config = .ok compiled) :
    foreignProperties compiled = foreignProperties job := by
  obtain ⟨own, authored, saving, condition, -, -, -, -, rfl⟩ := (assemble_stages hsettings).mp h
  -- the gate and the needs are not kept, so they are put behind what is kept
  have hkept : Object.Distinct (keptProperties job) := hd.filter _
  have hnew : ∀ gate needs : Json, ∀ key ∈ Object.keys (keptProperties job),
      key ∉ Object.keys [("if", gate), ("needs", needs)] := by
    intro gate needs key hkey hmem
    rcases List.mem_pair.mp hmem with rfl | rfl
    · exact not_mem_keptProperties (.inl rfl) hkey
    · exact not_mem_keptProperties (.inr rfl) hkey
  have hsteps : (!ownedProperties.contains ("steps" : Text)) = false := by decide
  rw [foreignProperties, assembled,
    Object.filter_insert (p := fun key => !ownedProperties.contains key) hsteps,
    Object.insertAll_eq_append hkept (hnew _ _), List.filter_append]
  exact foreignProperties_keptProperties job

/-! ## Steps of the author -/

/-- Two fragments of templates are the same, or placeholders of which the first mentions the outputs of
one of these jobs. -/
inductive SameToken (jobs : Text → Prop) : Token → Token → Prop where
  | same (token : Token) : SameToken jobs token token
  | placeholder {source source' job : Text} (hjob : jobs job)
      (h : Mentions source (outputsReference "needs" job)) :
      SameToken jobs (.expression source) (.expression source')

/-- Two texts are the same outside of placeholders that mention the outputs of one of these jobs. -/
def SameOutside (jobs : Text → Prop) (text text' : Text) : Prop :=
  text' = text ∨ ∃ tokens tokens', scan text = .ok tokens ∧ embed tokens' = text' ∧
    List.Forall₂ (SameToken jobs) tokens tokens'

section

variable {config : Configuration} {dependencies : List Job} {jobs : Text → Prop}

theorem sameToken_rewritten (hjobs : ∀ d ∈ dependencies, jobs d.name) (token : Token) :
    SameToken jobs token ((outputsRenaming config dependencies).rewritten token) := by
  cases token with
  | literal text => exact .same _
  | expression source =>
    by_cases hmentions : ∃ d ∈ dependencies, Mentions source (outputsReference "needs" d.name)
    · obtain ⟨d, hd, hmentions⟩ := hmentions
      exact .placeholder (hjobs d hd) hmentions
    · have hself : (outputsRenaming config dependencies).apply source = source := by
        refine apply_eq_self fun pair hpair hmention => hmentions ?_
        obtain ⟨d, hd, rfl⟩ := mem_outputsRenaming.mp hpair
        exact ⟨d, hd, hmention⟩
      rw [rewritten, hself]
      exact .same _

/-- The pass over the steps of the author rewrites a text in such placeholders only. -/
theorem sameOutside_of_applyToTemplate (hjobs : ∀ d ∈ dependencies, jobs d.name) {text text' : Text}
    (h : (outputsRenaming config dependencies).applyToTemplate text = .ok text') :
    SameOutside jobs text text' := by
  by_cases hempty : outputsRenaming config dependencies = []
  · rw [hempty] at h
    exact .inl (Except.ok.inj h).symm
  · obtain ⟨tokens, hscan, rfl⟩ := (applyToTemplate_eq_ok hempty).mp h
    refine .inr ⟨tokens, _, hscan, rfl, ?_⟩
    rw [List.forall₂_map_right_iff]
    exact List.forall₂_same.mpr fun token _ => sameToken_rewritten hjobs token

theorem leafWise_of_applyToValue (hjobs : ∀ d ∈ dependencies, jobs d.name) {step step' : Json}
    (h : (outputsRenaming config dependencies).applyToValue step = .ok step') :
    Json.LeafWise (SameOutside jobs) step step' := by
  refine Json.leafWise_of_mapStrings h fun text _ new hnew => ?_
  obtain ⟨new', hmap, rfl⟩ := map_eq_ok.mp hnew
  obtain ⟨text', htext, rfl⟩ := map_eq_ok.mp hmap
  exact ⟨text', rfl, sameOutside_of_applyToTemplate hjobs htext⟩

end

/-! ## Jobs -/

/-- What becomes of a pipeline job of the document whose needs are `declared`. -/
structure KeepsJob (config : Configuration) (jobs : Object) (declared : List Text) (job job' : Object) :
    Prop where
  properties : foreignProperties job' = foreignProperties job
  /-- The job needs the initialization job, and what it has declared, each job once. -/
  needs : job'.get? "needs" = some (Json.ofTexts (config.initJobId :: declared.eraseDups))
  /-- Its own steps stand next to each other, the same outside of placeholders that mention the outputs of
  a dependency. -/
  steps : ∃ own before authored after, job.get? "steps" = some (.array own) ∧
    job'.get? "steps" = some (.array (before ++ authored ++ after)) ∧
    List.Forall₂ (Json.LeafWise (SameOutside fun d => d ∈ declared ∧ HasSteps jobs d)) own authored

/-- What becomes of a job of the document. -/
inductive Keeps (config : Configuration) (jobs : Object) : Text × Json → Text × Json → Prop where
  /-- A job without steps is passed through. -/
  | passedThrough {name : Text} {job : Object} : Object.contains job "steps" = false →
      Keeps config jobs (name, .object job) (name, .object job)
  | compiled {name : Text} {job job' : Object} {needs : List Text} :
      Object.contains job "steps" = true → readNeeds job [] = .ok needs →
      KeepsJob config jobs needs job job' → Keeps config jobs (name, .object job) (name, .object job')

section

variable {graph : JobGraph} {config : Configuration} {jobs : Object} {found : Classified}

/-- Assembling a pipeline job keeps it. -/
theorem keepsJob_of_assemble (hsorts : Sorts config jobs found) (hgraph : graph.jobs = found.pipeline)
    (hbuilt : graph.Built found.passthrough) (hd : jobs.Distinct) {job : Job} (hjob : job ∈ graph.jobs)
    {fields assembled : Object} {needs : List Text} (hfields : fields.Distinct)
    (hneeds : job.settings.needs = needs.eraseDups)
    (hassemble : assemble job.name fields graph config = .ok assembled) :
    KeepsJob config jobs needs fields assembled := by
  have hnames : (graph.jobs.map Job.name).Nodup := hgraph ▸ hsorts.nodup hd
  have hget := JobGraph.Built.get?_eq hnames hjob
  have hdependencies : ∀ d ∈ graph.pipelineNeeds job.name, d.name ∈ needs ∧ HasSteps jobs d.name := by
    intro d hmem
    obtain ⟨hd', hneed⟩ := (hbuilt.mem_pipelineNeeds hnames hjob).mp hmem
    rw [hneeds, List.mem_eraseDups] at hneed
    rw [hgraph] at hd'
    exact ⟨hneed, (hsorts.exists_pipeline_iff_hasSteps hd).mp ⟨d, hd', rfl⟩⟩
  obtain ⟨own, authored, saving, condition, hown, hauthored, -, -, hsteps, -⟩ :=
    assemble_eq_ok hget hassemble
  refine ⟨foreignProperties_of_assemble hget hfields hassemble, ?_, own, _, authored, _, hown, hsteps, ?_⟩
  · rw [needs_of_assemble hget hassemble, hneeds]
  · exact (mapM_eq_ok.mp hauthored).imp fun _ _ hstep => leafWise_of_applyToValue hdependencies hstep

theorem Sorts.isEmpty_iff (hsorts : Sorts config jobs found) (hgraph : graph.jobs = found.pipeline)
    (hd : jobs.Distinct) : graph.isEmpty = true ↔ ¬ ∃ name, HasSteps jobs name := by
  rw [JobGraph.isEmpty, List.isEmpty_iff, hgraph, List.eq_nil_iff_forall_not_mem, not_exists]
  constructor
  · intro hnone name hsteps
    obtain ⟨job, hjob, -⟩ := (hsorts.exists_pipeline_iff_hasSteps hd).mpr hsteps
    exact hnone job hjob
  · intro hnone job hjob
    exact hnone job.name ((hsorts.exists_pipeline_iff_hasSteps hd).mp ⟨job, hjob, rfl⟩)

/-- Compiling a job keeps it. -/
theorem keeps_of_compileJob (hfound : jobs.foldlM (classify config) {} = .ok found)
    (hgraph : JobGraph.ofJobs found.pipeline found.passthrough = .ok graph) (hd : jobs.Distinct)
    (hfields : ∀ name fields, (name, Json.object fields) ∈ jobs → Object.Distinct fields)
    {entry entry' : Text × Json} (hentry : entry ∈ jobs) (h : compileJob graph config entry = .ok entry') :
    Keeps config jobs entry entry' := by
  have hsorts := sorts_of_foldlM hfound
  obtain ⟨hgraphjobs, hbuilt⟩ := JobGraph.built_of_ofJobs hgraph
  obtain ⟨name, value⟩ := entry
  obtain ⟨fields, rfl⟩ := eq_object_of_classify hfound _ hentry
  have hcontains := hsorts.contains_iff hgraphjobs hd hentry
  cases hsteps : Object.contains fields "steps" with
  | false =>
    rw [compileJob_of_not_contains (hcontains.trans hsteps)] at h
    cases h
    exact .passedThrough hsteps
  | true =>
    obtain ⟨assembled, hassemble, rfl⟩ := compileJob_eq_ok (hcontains.trans hsteps) h
    obtain ⟨settings, hsettings⟩ := hsorts.readable name fields hentry hsteps
    obtain ⟨needs, hneeds, heq⟩ := needs_of_ofJob hsettings
    have hjob : (⟨name, settings⟩ : Job) ∈ graph.jobs :=
      hgraphjobs ▸ (hsorts.mem_pipeline _).mpr ⟨fields, hentry, hsteps, hsettings⟩
    exact .compiled hsteps hneeds (keepsJob_of_assemble hsorts hgraphjobs hbuilt hd hjob
      (hfields name fields hentry) heq hassemble)

end

/-- The compiler changes nothing but what it owns. A workflow is the document, no object of which has a key
twice, with other jobs and without the interface for callers. Its jobs are those of the document in their
order, after the initialization job if there is a job with steps. Jobs without steps are the same, and jobs
with steps keep their other properties, their needs and their steps. -/
theorem compile_keeps {document workflow jobs : Object} {config : Configuration}
    (hdocument : document.Distinct) (hjobs : document.get? "jobs" = some (.object jobs))
    (hd : jobs.Distinct)
    (hfields : ∀ name fields, (name, Json.object fields) ∈ jobs → Object.Distinct fields)
    (h : compile document config = .ok workflow) :
    ∃ (found : Classified) (graph : JobGraph) (init compiled : Object),
      jobs.foldlM (classify config) {} = .ok found ∧
      JobGraph.ofJobs found.pipeline found.passthrough = .ok graph ∧
      workflow = (document.mapKey "on" withoutInterface).mapKey "jobs"
        (fun _ => .object (init ++ compiled)) ∧
      ((∃ name, HasSteps jobs name) → init = [(config.initJobId, initJob graph config)]) ∧
      ((¬ ∃ name, HasSteps jobs name) → init = []) ∧
      compiled.keys = jobs.keys ∧ List.Forall₂ (Keeps config jobs) jobs compiled := by
  obtain ⟨found, graph, compiled, -, hfound, hgraph, hcompiled, rfl⟩ := (compile_eq_ok_iff hjobs).mp h
  have hsorts := sorts_of_foldlM hfound
  obtain ⟨hgraphjobs, hbuilt⟩ := JobGraph.built_of_ofJobs hgraph
  have hempty := hsorts.isEmpty_iff hgraphjobs hd
  refine ⟨found, graph, initEntries graph config, compiled, hfound, hgraph, ?_, ?_, ?_,
    keys_compiled hcompiled, ?_⟩
  · rw [← stripCallTrigger_eq_mapKey hdocument]
    exact Object.insert_eq_mapKey hdocument.stripCallTrigger
      ((get?_jobs_stripCallTrigger document).trans hjobs) fun _ => .object (initEntries graph config ++ compiled)
  · intro hsteps
    rw [initEntries, if_neg fun hnone => hempty.mp hnone hsteps]
  · intro hnone
    rw [initEntries, if_pos (hempty.mpr hnone)]
  · have hresults := List.forall₂_and_left (p := (· ∈ jobs)) _ _ |>.mpr
      ⟨fun _ hentry => hentry, mapM_eq_ok.mp hcompiled⟩
    refine hresults.imp fun entry entry' hresult => ?_
    exact keeps_of_compileJob hfound hgraph hd hfields hresult.1 hresult.2

/-- A job is passed through, one has outputs, and one needs both, the second one twice. -/
def deliveryJobs : Object := [
  ("approve", .object [("uses", .string "approve.yml")]),
  ("build", .object [("runs-on", .string "linux"), ("paths", Json.ofTexts ["src/"]),
    ("outputs", .object [("file", .string "app")]), ("name", .string "Build"),
    ("steps", .array [.object [("run", .string "make")]])]),
  ("deliver", .object [("needs", Json.ofTexts ["build", "approve", "build"]),
    ("steps", .array [.object [("run", .string ("send " ++ placeholder "needs.build.outputs.file"))]]),
    ("runs-on", .string "linux")])]

/-- A document with these jobs that others can call. -/
def deliveryDocument : Object := [
  ("on", .object [("push", .null), (callTrigger, .object [])]),
  ("jobs", .object deliveryJobs),
  ("env", .object [("LEVEL", .string "1")])]

/-- The compiler keeps what it does not own of this document. -/
theorem compile_keeps_deliveryDocument : ∃ workflow init compiled : Object,
    compile deliveryDocument {} = .ok workflow ∧
    workflow = (deliveryDocument.mapKey "on" withoutInterface).mapKey "jobs"
      (fun _ => .object (init ++ compiled)) ∧
    init.keys = [("cixx-init" : Text)] ∧ List.Forall₂ (Keeps {} deliveryJobs) deliveryJobs compiled := by
  have hok : (compile deliveryDocument {}).toBool = true := by decide +kernel
  obtain ⟨workflow, h⟩ := toBool_eq_true.mp hok
  have hall : ∀ entry ∈ deliveryJobs, entry.2.object?.all (fun fields => decide (Object.Distinct fields))
      = true := by decide
  have hfields : ∀ name fields, (name, Json.object fields) ∈ deliveryJobs → Object.Distinct fields :=
    fun name fields hmem => of_decide_eq_true (hall _ hmem)
  obtain ⟨found, graph, init, compiled, -, -, hworkflow, hinit, -, -, hkeeps⟩ :=
    compile_keeps (by decide) rfl (by decide) hfields h
  refine ⟨workflow, init, compiled, h, hworkflow, ?_, hkeeps⟩
  rw [hinit ⟨"build", _, rfl, rfl⟩]
  rfl

end CachedWorkflow
