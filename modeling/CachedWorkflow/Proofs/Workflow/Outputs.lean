import CachedWorkflow.Proofs.Workflow.OutputsFiles

/-!
# Proofs: structured outputs

The job that declares outputs and a job that uses them are compiled apart from each other. They meet in
the cache entry of the former (`compile_wires_outputs`): it writes its outputs to a file of the workspace that
it saves with its build, and the dependent restores that build, reads the file and makes it an output of one of
its own steps. This output is what stands in the place of every reference to the outputs of the
dependency. The dependent reads the file where its scripts start, so it needs them to start in the workspace
(`exists_unread_outputs`).
-/

namespace CachedWorkflow

open Renaming Template

/-- What stands for the outputs of a dependency inside of a job. -/
def outputsText (config : Configuration) (dependency : Job) : Text :=
  if dependency.settings.outputs.isSome then
    "fromJSON(steps." ++ config.outputsStepId ++ ".outputs." ++ dependency.name ++ ")"
  else "null"

theorem mem_outputsRenaming {config : Configuration} {dependencies : List Job} {pair : Text × Text} :
    pair ∈ outputsRenaming config dependencies ↔ ∃ dependency ∈ dependencies,
      pair = (outputsReference "needs" dependency.name, outputsText config dependency) := by
  unfold outputsRenaming
  rw [List.mem_map]
  exact exists_congr fun dependency => and_congr_right fun _ => eq_comm

/-! ## References to the outputs of dependencies -/

section

variable {config : Configuration} {dependencies : List Job} {dependency : Job}

theorem isName_needs : IsName "needs" := by decide

theorem dot_mem_outputsReference (context name : Text) : '.' ∈ outputsReference context name :=
  List.mem_append_right _ List.mem_cons_self

/-- The text for outputs that are read is a call with one qualified name. -/
theorem outputsText_of_isSome (h : dependency.settings.outputs.isSome = true) :
    outputsText config dependency = ("fromJSON" : Text) ++ '(' ::
      (("steps." ++ config.outputsStepId ++ ".outputs." ++ dependency.name) ++ [')']) := by
  unfold outputsText
  rw [if_pos h]
  simp

theorem isPlaceable_outputsText (hid : ∀ c ∈ config.outputsStepId, c ≠ '\'' ∧ c ≠ '}')
    (hname : IsName dependency.name) : IsPlaceable (outputsText config dependency) := by
  by_cases houtputs : dependency.settings.outputs.isSome = true
  · unfold outputsText
    rw [if_pos houtputs]
    refine ⟨encloses_of_plain ?_, 'f', rfl, by decide⟩
    simp only [List.forall_mem_append]
    exact ⟨⟨⟨⟨by decide, hid⟩, by decide⟩, hname.plain⟩, by decide⟩
  · unfold outputsText
    rw [if_neg houtputs]
    exact ⟨encloses_of_plain (by decide), 'n', rfl, by decide⟩

/-- It introduces no reference to outputs. -/
theorem not_introduces_outputsText (hid : IsName config.outputsStepId) (hname : IsName dependency.name)
    {name : Text} (hreference : IsName name) (rest : Text) :
    ¬ Introduces (outputsText config dependency) rest (outputsReference "needs" name) := by
  have href := isReference_outputsReference isName_needs hreference.chars
  intro h
  by_cases houtputs : dependency.settings.outputs.isSome = true
  · rw [outputsText_of_isSome houtputs, ← List.cons_append, ← List.append_assoc] at h
    have hmentions := mentionsFrom_of_introduces href (by decide) h
    rw [mentionsFrom_call href (dot_mem_outputsReference "needs" name) (by decide),
      mentionsFrom_iff href.ne_nil] at hmentions
    obtain ⟨before, after, hsplit, -, hbefore, -⟩ := hmentions
    -- the qualified name is one run, so the reference would begin it
    have hrun : ∀ c ∈ ("steps." ++ config.outputsStepId ++ ".outputs." ++ dependency.name : Text),
        joinsNext c = true := by
      simp only [List.forall_mem_append]
      have hjoins : ∀ c, isJobIdChar c = true → joinsNext c = true := fun c hc =>
        joinsNext_of_isIdentifierChar (isIdentifierChar_of_isJobIdChar hc)
      exact ⟨⟨⟨by decide, fun c hc => hjoins c (hid.chars c hc)⟩, by decide⟩,
        fun c hc => hjoins c (hname.chars c hc)⟩
    rw [List.append_assoc before] at hsplit
    obtain rfl := eq_nil_of_joins hrun hsplit (joinsAfter_false.mp hbefore)
    cases hsplit
  · obtain ⟨front, back, hsplit, -, -, hfront, hoccurs⟩ := h
    have hnull : outputsText config dependency = "null" := if_neg houtputs
    rw [hnull] at hsplit
    obtain rfl := eq_nil_of_joins (by decide) hsplit hfront
    obtain rfl : ("null" : Text) = back := hsplit
    cases hoccurs

/-- All pairs are final for all references to outputs. -/
theorem settles_of_mem_outputsRenaming (hid : IsName config.outputsStepId)
    (hnames : ∀ dependency ∈ dependencies, IsName dependency.name) {name : Text} (hname : IsName name) :
    ∀ pair ∈ outputsRenaming config dependencies, Settles (outputsReference "needs" name) pair := by
  intro pair hpair
  obtain ⟨other, hother, rfl⟩ := mem_outputsRenaming.mp hpair
  have hreference := isReference_outputsReference isName_needs (hnames other hother).chars
  refine ⟨endsQuoted_eq_false fun hquote => ne_quote_of_joinsNext (hreference.joins _ hquote) rfl, ?_,
    isPlaceable_outputsText hid.plain (hnames other hother),
    not_introduces_outputsText hid (hnames other hother) hname⟩
  intro c hc
  cases hc
  decide

/-- Every reference to the outputs of a dependency is replaced. -/
theorem replaces_outputs (hid : IsName config.outputsStepId)
    (hnames : ∀ dependency ∈ dependencies, IsName dependency.name)
    (hinj : ∀ other ∈ dependencies, other.name = dependency.name → other = dependency)
    (hmem : dependency ∈ dependencies) (expression : Text) :
    Replaces (outputsRenaming config dependencies) (outputsReference "needs" dependency.name)
      (outputsText config dependency) expression := by
  have hsettles := settles_of_mem_outputsRenaming hid hnames (hnames dependency hmem)
  obtain ⟨parts, hrewires⟩ := exists_rewires
    (isReference_outputsReference isName_needs (hnames dependency hmem).chars)
    ⟨_, mem_outputsRenaming.mpr ⟨dependency, hmem, rfl⟩, rfl⟩
    (fun pair hpair => (hsettles pair hpair).head)
    (fun pair hpair => (hsettles pair hpair).placeable.encloses.endsQuoted_eq) expression
  refine hrewires.replaces (fun pair hpair => ?_) fun pair hpair rest hoccurs => ?_
  · obtain ⟨other, hother, rfl⟩ := mem_outputsRenaming.mp hpair
    exact (isReference_outputsReference isName_needs (hnames other hother).chars).joins
  · obtain ⟨other, hother, rfl⟩ := mem_outputsRenaming.mp hpair
    obtain ⟨-, behind, hsplit, -⟩ := occursAt_iff.mp hoccurs
    have hcancel : dependency.name ++ (".outputs" ++ rest) = other.name ++ (".outputs" ++ behind) := by
      unfold outputsReference at hsplit
      simpa using hsplit
    have hdot : ∀ text : Text, ∀ c ∈ ((".outputs" : Text) ++ text).head?, isJobIdChar c = false := by
      intro text c hc
      cases hc
      decide
    have hname := (run_append_inj (hnames dependency hmem).chars (hnames other hother).chars
      (hdot rest) (hdot behind) hcancel).1
    rw [hinj other hother hname.symm]

/-- No placeholder of a value mentions the outputs of a dependency afterwards. -/
theorem not_mentions_outputs (hid : IsName config.outputsStepId)
    (hnames : ∀ dependency ∈ dependencies, IsName dependency.name) (hmem : dependency ∈ dependencies)
    {value value' : Json} (h : (outputsRenaming config dependencies).applyToValue value = .ok value')
    {leaf : Text} (hleaf : leaf ∈ value'.leaves) {tokens : List Token} (hscan : scan leaf = .ok tokens)
    {source : Text} (hsource : .expression source ∈ tokens) :
    ¬ Mentions source (outputsReference "needs" dependency.name) :=
  not_mentions_of_settles (isReference_outputsReference isName_needs (hnames dependency hmem).chars)
    ⟨_, mem_outputsRenaming.mpr ⟨dependency, hmem, rfl⟩, rfl⟩
    (settles_of_mem_outputsRenaming hid hnames (hnames dependency hmem)) h hleaf hscan hsource

/-- Neither does what is rendered from it. -/
theorem not_mentions_rendered (hid : IsName config.outputsStepId)
    (hnames : ∀ dependency ∈ dependencies, IsName dependency.name) (hmem : dependency ∈ dependencies)
    {value value' : Json} (h : (outputsRenaming config dependencies).applyToValue value = .ok value')
    {leaf : Text} (hleaf : leaf ∈ value'.leaves) {expression : Text}
    (hexpression : Template.toExpression leaf = .ok expression) :
    ¬ Mentions ("toJson(" ++ expression ++ ")") (outputsReference "needs" dependency.name) := by
  intro hmentions
  have hreference := isReference_outputsReference isName_needs (hnames dependency hmem).chars
  have hdot := dot_mem_outputsReference "needs" dependency.name
  have hcall : ("toJson(" ++ expression ++ ")" : Text)
      = ("toJson" : Text) ++ '(' :: (expression ++ [')']) := by simp
  rw [hcall] at hmentions
  obtain ⟨tokens, source, hscan, hsource, hmentions⟩ := exists_mentions_of_toExpression hreference hdot
    hexpression (mentions_of_call hreference hdot (by decide) hmentions)
  exact not_mentions_outputs hid hnames hmem h hleaf hscan hsource hmentions

end

/-! ## Files -/

/-- A step that does something with the cache, with a file among its paths, and under a key. -/
structure Caches (config : Configuration) (action : Text) (step : Json) (file key : Text) : Prop where
  uses : step.member? "uses" = some (.string (config.cache.reference action))
  always : step.member? "if" = none
  path : ∃ paths, file ∈ paths ∧ stepPaths step = some (.string (pathLines paths))
  key : stepKey step = some (.string key)

/-- The generated steps before and after those of the author restore the build of a dependency with a
file in it, and read the file in the only step that has the identifier of the configuration. It is one of the
files that this step makes outputs, each from its restored build. -/
structure ReadsOutputs (config : Configuration) (dependency file key : Text) (read : Json)
    (files : List (Text × Text)) (before after : List Json) : Prop where
  steps : ∃ front restore middle, before = front ++ restore :: (middle ++ [read]) ∧
    IsNamed restore ("Restore " ++ dependency) ∧ Caches config "restore" restore file key ∧
    ∀ step ∈ front ++ restore :: middle ++ after,
      ¬ IsNamed step "Read outputs" ∧ step.member? "id" = none
  named : IsNamed read "Read outputs"
  id : HasId read config.outputsStepId
  reads : ReadsFiles read files
  mem : (file, dependency) ∈ files
  nodup : (files.map Prod.snd).Nodup
  restored : ∀ pair ∈ files, ∃ restore ∈ before, ∃ key, Caches config "restore" restore pair.1 key

/-- The last two steps write a text to a file of the workspace, and save the file with the build. -/
def SavesOutputs (config : Configuration) (file key : Text) (tokens : List Token) (after : List Json) : Prop :=
  ∃ save commit, after = [save, commit] ∧ IsNamed save "Save outputs" ∧ WritesFile save file tokens ∧
    IsNamed commit "Commit build" ∧ Caches config "save" commit file key

section

variable {config : Configuration} {dependencies : List Job} {dependency : Job} {step : Json}

/-- The outputs of the dependencies that have some are read. -/
theorem exists_readOutputsStep (hmem : dependency ∈ dependencies)
    (houtputs : dependency.settings.outputs.isSome = true)
    (hnames : ∀ dependency ∈ dependencies, IsName dependency.name) :
    ∃ read, readOutputsStep config dependencies = some read ∧ IsNamed read "Read outputs" ∧
      HasId read config.outputsStepId ∧ read.member? "working-directory" = none ∧
      ReadsFiles read (outputsFiles dependencies) := by
  have hwith : dependency ∈ dependencies.filter (·.settings.outputs.isSome) :=
    List.mem_filter.mpr ⟨hmem, houtputs⟩
  have hnonempty : (dependencies.filter (·.settings.outputs.isSome)).isEmpty = false :=
    List.isEmpty_eq_false_iff.mpr (List.ne_nil_of_mem hwith)
  have hstep : ∃ read, readOutputsStep config dependencies = some read ∧ IsNamed read "Read outputs" ∧
      HasId read config.outputsStepId ∧ read.member? "working-directory" = none := by
    unfold readOutputsStep
    dsimp only
    rw [hnonempty, if_neg Bool.false_ne_true]
    exact ⟨_, rfl, rfl, rfl, rfl⟩
  obtain ⟨read, hread, hname, hid, hdirectory⟩ := hstep
  exact ⟨read, hread, hname, hid, hdirectory, readsFiles_readOutputsStep hnames hread⟩

theorem caches_restoreStep {file : Text} (h : file ∈ dependency.settings.outputPaths) :
    Caches config "restore" (restoreStep config dependency) file (initKeyPlaceholder config dependency.name) :=
  ⟨rfl, rfl, ⟨_, h, rfl⟩, rfl⟩

theorem caches_commitStep {name file : Text} {settings : JobSettings} (h : file ∈ settings.outputPaths) :
    Caches config "save" (commitStep config name settings) file (initKeyPlaceholder config name) :=
  ⟨rfl, rfl, ⟨_, h, rfl⟩, rfl⟩

/-- A step with another name is not the one that reads outputs. -/
theorem not_isNamed_read {name : Text} (h : IsNamed step name) (hne : name ≠ "Read outputs") :
    ¬ IsNamed step "Read outputs" := fun hread => hne (h.inj hread)

/-- The generated steps before it are others, and have no identifier. -/
theorem not_reads_of_mem_before {paths : List Text}
    (h : step ∈ (checkoutStep paths).toList ++ compressionSteps
      ++ dependencies.map (restoreStep config)) :
    ¬ IsNamed step "Read outputs" ∧ step.member? "id" = none := by
  simp only [List.mem_append] at h
  rcases h with (hclone | hcompression) | hrestore
  · refine ⟨not_isNamed_read (isNamed_checkoutStep hclone) (by decide), ?_⟩
    by_cases hempty : paths.isEmpty = true
    · simp [checkoutStep, hempty] at hclone
    · simp only [checkoutStep, hempty, Bool.false_eq_true, if_false, Option.toList_some,
        List.mem_singleton] at hclone
      rw [hclone]
      rfl
  · rcases List.mem_cons.mp hcompression with htar | hzstd
    · have hname : IsNamed step "Use GNU tar instead BSD tar" := by
        rw [htar]
        rfl
      refine ⟨not_isNamed_read hname (by decide), ?_⟩
      rw [htar]
      rfl
    · have hname : IsNamed step "Check zstd on PATH" := by
        rw [List.mem_singleton.mp hzstd]
        rfl
      refine ⟨not_isNamed_read hname (by decide), ?_⟩
      rw [List.mem_singleton.mp hzstd]
      rfl
  · obtain ⟨dependency, -, rfl⟩ := List.mem_map.mp hrestore
    refine ⟨not_isNamed_read (isNamed_restoreStep config dependency) fun h => ?_, rfl⟩
    cases h

/-- So are the generated steps behind those of the author. -/
theorem not_reads_of_mem_after {name : Text} {settings : JobSettings} {graph : JobGraph}
    {outputs : Option Json} {names : Renaming} {saving : List Json}
    (hsaving : outputsSteps name outputs names = .ok saving)
    (h : step ∈ saving ++ commitSteps graph config name settings) :
    ¬ IsNamed step "Read outputs" ∧ step.member? "id" = none := by
  rcases List.mem_append.mp h with hsave | hcommit
  · refine ⟨not_isNamed_read (isNamed_outputsSteps hsaving step hsave) (by decide), ?_⟩
    cases outputs with
    | none =>
      cases hsaving
      cases hsave
    | some outputs =>
      obtain ⟨renamed, -, hsaving⟩ := bind_eq_ok.mp hsaving
      obtain ⟨save, hstep, hsaving⟩ := bind_eq_ok.mp hsaving
      obtain ⟨template, -, hstep⟩ := bind_eq_ok.mp hstep
      cases hsaving
      cases hstep
      rw [List.mem_singleton.mp hsave]
      rfl
  · unfold commitSteps at hcommit
    split at hcommit
    · rw [List.mem_singleton.mp hcommit]
      exact ⟨not_isNamed_read (isNamed_commitStep config name settings) (by decide), rfl⟩
    · cases hcommit

/-- What the steps that save outputs and commit them do. -/
theorem exists_savesOutputs {name : Text} {settings : JobSettings} {graph : JobGraph} {names : Renaming}
    {saving : List Json} (hname : IsName name) (hfile : outputsFile name ∈ settings.outputPaths)
    {outputs : Json} (houtputs : settings.outputs = some outputs)
    (h : outputsSteps name settings.outputs names = .ok saving) :
    ∃ renamed, names.applyToValue outputs = .ok renamed ∧
      renamed.toJsonTemplate = .ok (embed renamed.fragments) ∧
      SavesOutputs config (outputsFile name) (initKeyPlaceholder config name) renamed.fragments
        (saving ++ commitSteps graph config name settings) := by
  rw [houtputs] at h
  obtain ⟨renamed, hrenamed, h⟩ := bind_eq_ok.mp h
  obtain ⟨step, hstep, h⟩ := bind_eq_ok.mp h
  obtain ⟨template, htemplate, -⟩ := bind_eq_ok.mp hstep
  obtain rfl := Json.embed_fragments htemplate
  have hsave := @isNamed_outputsSteps name (some outputs) names _
    (bind_eq_ok.mpr ⟨renamed, hrenamed, bind_eq_ok.mpr ⟨step, hstep, rfl⟩⟩) step List.mem_cons_self
  cases h
  have hcommit : commitSteps graph config name settings = [commitStep config name settings] := by
    unfold commitSteps
    rw [if_pos (by simp [List.ne_nil_of_mem hfile])]
  rw [hcommit]
  exact ⟨renamed, hrenamed, htemplate, _, _, rfl, hsave, writesFile_saveOutputsStep hname htemplate hstep, rfl,
    caches_commitStep hfile⟩

end

/-! ## Compiled jobs -/

/-- A document or a workflow has a job with these fields. -/
def HasJob (document : Object) (name : Text) (fields : Object) : Prop :=
  ∃ jobs, jobsOf document = some jobs ∧ jobs.get? name = some (.object fields)

/-- A job is compiled into generated steps before and after those of the author, in which the references
to the outputs of its dependencies are replaced. -/
structure IsCompiled (graph : JobGraph) (config : Configuration) (document workflow : Object) (job : Job)
    (fields assembled : Object) (before authored after : List Json) : Prop where
  declared : HasJob document job.name fields
  own : ∃ own, Object.get? fields "steps" = some (.array own) ∧
    own.mapM (outputsRenaming config (graph.pipelineNeeds job.name)).applyToValue = .ok authored
  result : HasJob workflow job.name assembled
  steps : Object.get? assembled "steps" = some (.array (before ++ authored ++ after))

/-- The outputs of a job, with the references in them replaced, are written to its outputs file; each of
their string leaves has its placeholder there. With values in the place of the placeholders the text that is
written is JSON on one line. -/
def RendersOutputs (graph : JobGraph) (config : Configuration) (job : Job) (outputs : Json)
    (after : List Json) : Prop :=
  ∃ renamed, (outputsRenaming config (graph.pipelineNeeds job.name)).applyToValue outputs = .ok renamed ∧
    renamed.toJsonTemplate = .ok (embed renamed.fragments) ∧
    SavesOutputs config (outputsFile job.name) (initKeyPlaceholder config job.name) renamed.fragments after ∧
    (∀ text ∈ renamed.leaves, Json.HasLeafPlaceholder text (embed renamed.fragments)) ∧
    ∀ values : List Json, values.length = renamed.leaves.length → ∃ content : Text,
      fill renamed.fragments (values.map Json.toText) = content ∧
      content = (renamed.fillLeaves values).toText ∧ outputsEnd ∉ content.splitOn '\n' ∧
      ∀ output, outputLineOf output (content ++ ['\n']) = Shell.setOutputText output (encoded content)

/-- The outputs of a dependency are wired to a job. -/
structure IsWiredTo (graph : JobGraph) (config : Configuration) (document workflow : Object)
    (job dependency : Job) (fields assembled : Object) (before authored after : List Json) : Prop where
  /-- References to them are replaced by the text that stands for them. -/
  replaces : ∀ expression, Replaces (outputsRenaming config (graph.pipelineNeeds job.name))
    (outputsReference "needs" dependency.name) (outputsText config dependency) expression
  /-- None is left in the steps of the author. -/
  authored_free : ∀ step ∈ authored, ∀ leaf ∈ step.leaves, ∀ tokens, scan leaf = .ok tokens →
    ∀ source, .expression source ∈ tokens →
      ¬ Mentions source (outputsReference "needs" dependency.name)
  /-- None is left in what is rendered from the outputs of the job. -/
  rendered_free : ∀ outputs renamed, job.settings.outputs = some outputs →
    (outputsRenaming config (graph.pipelineNeeds job.name)).applyToValue outputs = .ok renamed →
    ∀ text ∈ renamed.leaves, ∀ expression, Template.toExpression text = .ok expression →
      ¬ Mentions ("toJson(" ++ expression ++ ")") (outputsReference "needs" dependency.name)
  /-- The job reads, before the steps of the author, the file that the dependency has written, from the
  cache entry that it has been saved in. It finds the file if and only if its scripts start in the
  workspace. -/
  read : dependency.settings.outputs.isSome = true → ∃ read,
    ReadsOutputs config dependency.name (outputsFile dependency.name)
      (initKeyPlaceholder config dependency.name) read (outputsFiles (graph.pipelineNeeds job.name))
      before after ∧
    (∀ r, PassesOn r read (outputsFiles (graph.pipelineNeeds job.name))
      (stepDirectory r workflow assembled read) ↔ jobDirectory r document fields = r.root) ∧
    ∃ outputs fields' assembled' before' authored' after', dependency.settings.outputs = some outputs ∧
      IsCompiled graph config document workflow dependency fields' assembled' before' authored' after' ∧
      RendersOutputs graph config dependency outputs after'

section

variable {graph : JobGraph} {config : Configuration} {document workflow jobs compiled : Object}
  {job dependency : Job}

/-- What a job is assembled into. -/
theorem exists_isCompiled (hnodup : (graph.jobs.map Job.name).Nodup) (hjob : job ∈ graph.jobs)
    (hjobs : jobsOf document = some jobs) (hcompiled : jobsOf workflow = some compiled)
    {fields assembled : Object} (hfields : jobs.get? job.name = some (.object fields)) (hd : fields.Distinct)
    (hassemble : assemble job.name fields graph config = .ok assembled)
    (hresult : compiled.get? job.name = some (.object assembled)) :
    ∃ authored saving, outputsSteps job.name job.settings.outputs
        (outputsRenaming config (graph.pipelineNeeds job.name)) = .ok saving ∧
      assembled.get? "defaults" = fields.get? "defaults" ∧
      IsCompiled graph config document workflow job fields assembled
        (stepsBefore graph config job.name job.settings) authored
        (saving ++ commitSteps graph config job.name job.settings) := by
  have hsettings := JobGraph.Built.get?_eq hnodup hjob
  obtain ⟨own, authored, saving, -, hown, hauthored, -, hsaving, hsteps, -⟩ := assemble_eq_ok hsettings hassemble
  exact ⟨authored, saving, hsaving, get?_defaults_assemble hsettings hd hassemble, ⟨jobs, hjobs, hfields⟩,
    ⟨own, hown, hauthored⟩, ⟨compiled, hcompiled, hresult⟩, hsteps⟩

theorem rendersOutputs_of_outputsSteps (hname : IsName job.name)
    (hfile : outputsFile job.name ∈ job.settings.outputPaths) {outputs : Json}
    (houtputs : job.settings.outputs = some outputs) {saving : List Json}
    (hsaving : outputsSteps job.name job.settings.outputs
      (outputsRenaming config (graph.pipelineNeeds job.name)) = .ok saving) :
    RendersOutputs graph config job outputs
      (saving ++ commitSteps graph config job.name job.settings) := by
  obtain ⟨renamed, hrenamed, htemplate, hsaves⟩ := exists_savesOutputs hname hfile houtputs hsaving
  refine ⟨renamed, hrenamed, htemplate, hsaves, fun text htext =>
    Json.hasLeafPlaceholder_toJsonTemplate htemplate htext, fun values hlength => ?_⟩
  exact ⟨_, rfl, Json.fill_fragments renamed hlength.ge, by
    rw [Json.fill_fragments renamed hlength.ge]
    exact ⟨Json.outputsEnd_not_mem_splitOn_toText _, fun output => outputLineOf_toText output _⟩⟩

/-- The steps of the dependent read the outputs of the dependency. -/
theorem readsOutputs_stepsBefore (hmem : dependency ∈ graph.pipelineNeeds job.name)
    (hnames : ∀ d ∈ graph.pipelineNeeds job.name, IsName d.name)
    (hnodup : ((graph.pipelineNeeds job.name).map Job.name).Nodup)
    (hfiles : ∀ d ∈ graph.pipelineNeeds job.name, outputsFile d.name ∈ d.settings.outputPaths)
    (houtputs : dependency.settings.outputs.isSome = true) {outputs : Option Json}
    {names : Renaming} {saving : List Json} (hsaving : outputsSteps job.name outputs names = .ok saving) :
    ∃ read, read.member? "working-directory" = none ∧
      ReadsOutputs config dependency.name (outputsFile dependency.name)
        (initKeyPlaceholder config dependency.name) read (outputsFiles (graph.pipelineNeeds job.name))
        (stepsBefore graph config job.name job.settings)
        (saving ++ commitSteps graph config job.name job.settings) := by
  obtain ⟨read, hread, hname, hid, hdirectory, hreads⟩ := @exists_readOutputsStep config _ _ hmem houtputs hnames
  have hrestored : ∀ d ∈ graph.pipelineNeeds job.name, d ∈
      (graph.pipelineNeeds job.name).filter fun d => !d.settings.outputPaths.isEmpty := by
    intro d hd
    rw [List.mem_filter]
    exact ⟨hd, by simp [List.ne_nil_of_mem (hfiles d hd)]⟩
  obtain ⟨front, back, hsplit⟩ := List.append_of_mem (hrestored dependency hmem)
  refine ⟨read, hdirectory, ⟨(checkoutStep job.settings.paths).toList ++ compressionSteps
      ++ front.map (restoreStep config), restoreStep config dependency, back.map (restoreStep config), ?_,
      isNamed_restoreStep config dependency, caches_restoreStep (hfiles dependency hmem), ?_⟩,
    hname, hid, hreads, ?_, ?_, ?_⟩
  · unfold stepsBefore
    rw [hread, hsplit]
    simp
  · intro step hstep
    rcases List.mem_append.mp hstep with hbefore | hafter
    · have hall : step ∈ (checkoutStep job.settings.paths).toList ++ compressionSteps
          ++ (front ++ dependency :: back).map (restoreStep config) := by
        rw [List.map_append, List.map_cons, ← List.append_assoc]
        exact hbefore
      exact not_reads_of_mem_before hall
    · exact not_reads_of_mem_after hsaving hafter
  · exact List.mem_map_of_mem (List.mem_filter.mpr ⟨hmem, houtputs⟩)
  · rw [outputsFiles, List.map_map]
    exact hnodup.sublist (List.filter_sublist.map _)
  · intro pair hpair
    obtain ⟨d, hd, rfl⟩ := List.mem_map.mp hpair
    have hd' := (List.mem_filter.mp hd).1
    refine ⟨restoreStep config d, ?_, _, caches_restoreStep (hfiles d hd')⟩
    exact List.mem_append_left _ (List.mem_append_right _ (List.mem_map_of_mem (hrestored d hd')))

/-- A compiled job has the outputs of a dependency wired to it, if it reads what the dependency has
saved. -/
theorem IsCompiled.isWiredTo {fields assembled : Object} {before authored after : List Json}
    (h : IsCompiled graph config document workflow job fields assembled before authored after)
    (hid : IsName config.outputsStepId) (hnames : ∀ d ∈ graph.pipelineNeeds job.name, IsName d.name)
    (hinj : ∀ d ∈ graph.pipelineNeeds job.name, d.name = dependency.name → d = dependency)
    (hmem : dependency ∈ graph.pipelineNeeds job.name)
    (hdefaults : assembled.get? "defaults" = fields.get? "defaults")
    (hworkflow : workflow.get? "defaults" = document.get? "defaults")
    (hread : dependency.settings.outputs.isSome = true → ∃ read, read.member? "working-directory" = none ∧
      ReadsOutputs config dependency.name (outputsFile dependency.name)
        (initKeyPlaceholder config dependency.name) read (outputsFiles (graph.pipelineNeeds job.name))
        before after)
    (hsave : dependency.settings.outputs.isSome = true →
      ∃ outputs fields' assembled' before' authored' after', dependency.settings.outputs = some outputs ∧
        IsCompiled graph config document workflow dependency fields' assembled' before' authored' after' ∧
        RendersOutputs graph config dependency outputs after') :
    IsWiredTo graph config document workflow job dependency fields assembled before authored after where
  replaces := replaces_outputs hid hnames hinj hmem
  authored_free := by
    intro step hstep leaf hleaf tokens hscan source hsource
    obtain ⟨own, -, hown⟩ := h.own
    obtain ⟨before, -, hrenamed⟩ := exists_of_mem_right (mapM_eq_ok.mp hown) hstep
    exact not_mentions_outputs hid hnames hmem hrenamed hleaf hscan hsource
  rendered_free := by
    intro outputs renamed _ hrenamed text htext expression hexpression
    exact not_mentions_rendered hid hnames hmem hrenamed htext hexpression
  read := by
    intro houtputs
    obtain ⟨read, hdirectory, hreads⟩ := hread houtputs
    refine ⟨read, hreads, fun r => ?_, hsave houtputs⟩
    have hfiles : ∀ pair ∈ outputsFiles (graph.pipelineNeeds job.name), IsFileName pair.1 := by
      intro pair hpair
      obtain ⟨d, hd, rfl⟩ := List.mem_map.mp hpair
      exact isFileName_outputsFile (hnames d (List.mem_filter.mp hd).1)
    rw [passesOn_iff hreads.reads hfiles (List.ne_nil_of_mem hreads.mem),
      stepDirectory_eq hworkflow hdefaults hdirectory]

end

/-- Structured outputs are wired from the job that declares them to every job that needs it. -/
theorem compile_wires_outputs {document workflow jobs : Object} {config : Configuration}
    (hjobs : document.get? "jobs" = some (.object jobs)) (hd : jobs.Distinct)
    (hfields : ∀ name fields, (name, Json.object fields) ∈ jobs → Object.Distinct fields)
    (hid : validateJobId config.outputsStepId = .ok ()) (h : compile document config = .ok workflow) :
    ∃ graph : JobGraph,
      (∀ job, job ∈ graph.jobs ↔ ∃ fields, (job.name, Json.object fields) ∈ jobs ∧
        Object.contains fields "steps" = true ∧ JobSettings.ofJob job.name fields = .ok job.settings) ∧
      ∀ job ∈ graph.jobs, ∃ fields assembled before authored after,
        IsCompiled graph config document workflow job fields assembled before authored after ∧
        (∀ outputs, job.settings.outputs = some outputs →
          RendersOutputs graph config job outputs after) ∧
        ∀ dependency ∈ graph.jobs, dependency.name ∈ job.settings.needs →
          IsWiredTo graph config document workflow job dependency fields assembled before authored after := by
  obtain ⟨found, graph, compiled, hfound, hgraph, hsorts, -, hcompiled, -, hassembled⟩ :=
    compile_eq_ok hjobs hd h
  obtain ⟨hgraphjobs, hbuilt⟩ := JobGraph.built_of_ofJobs hgraph
  have hnodup : (graph.jobs.map Job.name).Nodup := hgraphjobs ▸ hsorts.nodup hd
  have hmem : ∀ job, job ∈ graph.jobs ↔ ∃ fields, (job.name, Json.object fields) ∈ jobs ∧
      Object.contains fields "steps" = true ∧ JobSettings.ofJob job.name fields = .ok job.settings :=
    hgraphjobs ▸ hsorts.mem_pipeline
  have hstepId : IsName config.outputsStepId := validateJobId_eq_ok hid
  have hname : ∀ job ∈ graph.jobs, IsName job.name := by
    intro job hjob
    obtain ⟨fields, hfields, -⟩ := (hmem job).mp hjob
    exact (hsorts.names job.name (Object.mem_keys_of_mem hfields)).1
  have hfile : ∀ job ∈ graph.jobs, outputsFile job.name ∈ job.settings.outputPaths := by
    intro job hjob
    obtain ⟨fields, -, -, hsettings⟩ := (hmem job).mp hjob
    exact outputsFile_mem_outputPaths hsettings
  have hjobsOf : jobsOf document = some jobs := by
    rw [jobsOf, hjobs]
    rfl
  have hall : ∀ job ∈ graph.jobs, ∃ fields assembled authored saving,
      outputsSteps job.name job.settings.outputs
        (outputsRenaming config (graph.pipelineNeeds job.name)) = .ok saving ∧
      assembled.get? "defaults" = fields.get? "defaults" ∧
      IsCompiled graph config document workflow job fields assembled
        (stepsBefore graph config job.name job.settings) authored
        (saving ++ commitSteps graph config job.name job.settings) := by
    intro job hjob
    obtain ⟨fields, assembled, hget, hassemble, hresult⟩ := hassembled job hjob
    exact ⟨fields, assembled, exists_isCompiled hnodup hjob hjobsOf hcompiled hget
      (hfields job.name fields (Object.mem_of_get? hget)) hassemble hresult⟩
  refine ⟨graph, hmem, fun job hjob => ?_⟩
  obtain ⟨fields, assembled, authored, saving, hsaving, hdefaults, hcompiledJob⟩ := hall job hjob
  refine ⟨fields, assembled, _, authored, _, hcompiledJob,
    fun outputs houtputs => rendersOutputs_of_outputsSteps (hname job hjob) (hfile job hjob) houtputs hsaving,
    fun dependency hdependency hneed => ?_⟩
  have hneeded : dependency ∈ graph.pipelineNeeds job.name :=
    (hbuilt.mem_pipelineNeeds hnodup hjob).mpr ⟨hdependency, hneed⟩
  have hneeds : ∀ d ∈ graph.pipelineNeeds job.name, d ∈ graph.jobs := fun d hd =>
    ((hbuilt.mem_pipelineNeeds hnodup hjob).mp hd).1
  have hinj : ∀ d ∈ graph.pipelineNeeds job.name, d.name = dependency.name → d = dependency :=
    fun d hd heq => List.inj_on_of_nodup_map hnodup (hneeds d hd) hdependency heq
  have hnames : ∀ d ∈ graph.pipelineNeeds job.name, IsName d.name := fun d hd => hname d (hneeds d hd)
  have hdistinct : ((graph.pipelineNeeds job.name).map Job.name).Nodup := by
    obtain ⟨_, -, -, hsettings⟩ := (hmem job).mp hjob
    rw [hbuilt.map_pipelineNeeds hnodup hjob]
    exact (nodup_needs hsettings).filter _
  refine hcompiledJob.isWiredTo hstepId hnames hinj hneeded hdefaults (get?_defaults_compile hjobs h)
    (fun houtputs => readsOutputs_stepsBefore hneeded hnames hdistinct
      (fun d hd => hfile d (hneeds d hd)) houtputs hsaving) fun houtputs => ?_
  obtain ⟨outputs, houtputs⟩ := Option.isSome_iff_exists.mp houtputs
  obtain ⟨fields', assembled', authored', saving', hsaving', -, hcompiledDependency⟩ := hall dependency hdependency
  exact ⟨outputs, fields', assembled', _, authored', _, houtputs, hcompiledDependency,
    rendersOutputs_of_outputsSteps (hname dependency hdependency) (hfile dependency hdependency) houtputs hsaving'⟩

/-- The jobs of a small document: one that declares an output, and one that uses it. -/
def packagedJobs : Object := [
  ("build", .object [("runs-on", .string "linux"),
    ("outputs", .object [("file", .string (placeholder "steps.pack.outputs.file"))]),
    ("steps", .array [.object []])]),
  ("test", .object [("needs", .string "build"), ("runs-on", .string "linux"),
    ("steps", .array [.object [("run", .string ("test " ++ placeholder "needs.build.outputs.file"))]])])]

/-- The job that declares the output. -/
def packagingJob : Job where
  name := "build"
  settings := {
    outputPaths := [outputsFile "build"]
    outputs := some (.object [("file", .string (placeholder "steps.pack.outputs.file"))]) }

/-- The job that uses it. -/
def testingJob : Job where
  name := "test"
  settings := { outputPaths := [outputsFile "test"], needs := ["build"] }

theorem compile_wires_outputs_packagedJobs :
    ∃ (workflow : Object) (graph : JobGraph) (fields assembled : Object) (before authored after : List Json),
    compile [("jobs", .object packagedJobs)] {} = .ok workflow ∧
    IsCompiled graph {} [("jobs", .object packagedJobs)] workflow testingJob fields assembled before authored after ∧
    IsWiredTo graph {} [("jobs", .object packagedJobs)] workflow testingJob packagingJob fields assembled before
      authored after := by
  have hok : (compile [("jobs", .object packagedJobs)] {}).toBool = true := by decide +kernel
  obtain ⟨workflow, h⟩ := toBool_eq_true.mp hok
  have hall : ∀ entry ∈ packagedJobs, entry.2.object?.all (fun fields => decide (Object.Distinct fields))
      = true := by decide
  have hfields : ∀ name fields, (name, Json.object fields) ∈ packagedJobs → Object.Distinct fields :=
    fun name fields hmem => of_decide_eq_true (hall _ hmem)
  obtain ⟨graph, hmem, hwires⟩ := compile_wires_outputs rfl (by decide +kernel) hfields (by decide +kernel) h
  have hbuild : packagingJob ∈ graph.jobs :=
    (hmem packagingJob).mpr ⟨_, List.mem_cons_self, by decide +kernel, by decide +kernel⟩
  have htest : testingJob ∈ graph.jobs :=
    (hmem testingJob).mpr ⟨_, List.mem_cons_of_mem _ List.mem_cons_self, by decide +kernel,
      by decide +kernel⟩
  obtain ⟨fields, assembled, before, authored, after, hcompiled, -, hwired⟩ := hwires testingJob htest
  exact ⟨workflow, graph, fields, assembled, before, authored, after, h, hcompiled,
    hwired packagingJob hbuild (by decide +kernel)⟩

/-- The jobs of a document where the one that uses the output has its scripts in another directory. -/
def subdirectoryJobs : Object := [
  ("build", .object [("runs-on", .string "linux"), ("outputs", .object [("file", .string "app")]),
    ("steps", .array [])]),
  ("test", .object [("needs", .string "build"), ("runs-on", .string "linux"),
    ("defaults", .object [("run", .object [("working-directory", .string "sub")])]),
    ("steps", .array [.object [("run", .string (placeholder "needs.build.outputs.file"))]])])]

/-- A machine for the jobs. -/
def subdirectoryRunner : Shell.Runner where
  workspace := "/work"
  absolute := rfl
  evaluate := fun text => text

/-- There is nothing but the outputs file that has been restored to the workspace. -/
def restoredFiles (place : Shell.Place) : Option Text :=
  if place = [("work" : Text), outputsFile "build"] then some "\x7b\"file\":\"app\"\x7d\n" else none

/-- The file of the outputs that a job uses is restored to the workspace, and the step that reads it looks for it
in the directory of the job, where it is not. -/
theorem exists_unread_outputs : ∃ workflow assembled restore read script,
    compile [("jobs", .object subdirectoryJobs)] {} = .ok workflow ∧ HasJob workflow "test" assembled ∧
      (Json.object assembled).at? [.member "steps", .item 3] = some restore ∧
      Caches {} "restore" restore (outputsFile "build") (initKeyPlaceholder {} "build") ∧
      (Json.object assembled).at? [.member "steps", .item 4] = some read ∧
      IsNamed read "Read outputs" ∧ HasScript read script ∧
      restoredFiles (Shell.follow subdirectoryRunner.root (outputsFile "build")) ≠ none ∧
      Shell.runScript subdirectoryRunner (stepDirectory subdirectoryRunner workflow assembled read)
        restoredFiles script = none := by
  let dependency : Job := ⟨"build", { outputPaths := [outputsFile "build"] }⟩
  let script := scriptOf (readOutputsLines "build")
  let read : Json := .object [("name", .string "Read outputs"), ("id", .string "cixx-outputs"),
    ("shell", .string "bash"), ("run", .string script)]
  let defaults : Json := .object [("run", .object [("working-directory", .string "sub")])]
  have hcomputed : ((compile [("jobs", .object subdirectoryJobs)] {}).toOption.bind jobsOf).any (fun compiled =>
      ((compiled.get? "test").bind Json.object?).any fun assembled =>
        (Json.object assembled).at? [.member "steps", .item 3] = some (restoreStep {} dependency) ∧
        (Json.object assembled).at? [.member "steps", .item 4] = some read ∧
        Object.get? assembled "defaults" = some defaults) = true := by decide +kernel
  obtain ⟨compiled, hcompiled, hany⟩ := Option.any_eq_true _ _ |>.mp hcomputed
  obtain ⟨assembled, hassembled, hall⟩ := Option.any_eq_true _ _ |>.mp hany
  obtain ⟨hrestore, hread, hdefaults⟩ := of_decide_eq_true hall
  obtain ⟨workflow, hworkflow, hjobs⟩ := Option.bind_eq_some_iff.mp hcompiled
  obtain ⟨value, hvalue, hobject⟩ := Option.bind_eq_some_iff.mp hassembled
  have hjob : value = .object assembled := by
    cases value <;> cases hobject
    rfl
  subst hjob
  have hdirectory : stepDirectory subdirectoryRunner workflow assembled read = [("work" : Text), "sub"] := by
    rw [stepDirectory, jobDirectory, defaultDirectory?, hdefaults]
    rfl
  have hrun : Shell.runScript subdirectoryRunner [("work" : Text), "sub"] restoredFiles script = none := by
    decide +kernel
  refine ⟨workflow, assembled, restoreStep {} dependency, read, script, toOption_eq_some.mp hworkflow,
    ⟨compiled, hjobs, hvalue⟩, hrestore, caches_restoreStep (List.mem_singleton_self _), hread, rfl, ⟨rfl, rfl, rfl⟩,
    by decide, ?_⟩
  rw [hdirectory, hrun]

end CachedWorkflow
