import CachedWorkflow.Workflow.PipelineJob

/-!
# Compiling a document

A document in normal form is compiled into a workflow: the initialization job comes first, jobs with
steps are compiled, and all other jobs are passed through.
-/

namespace CachedWorkflow

/-- The trigger under `on` that holds the interface of a pipeline that is called by others. -/
def callTrigger : Text := "cixx_call"

/-- Whether a character may begin a job identifier. -/
def isJobIdStart (c : Char) : Bool := c.isAlpha || c == '_'

/-- Whether a character may stand in a job identifier. -/
def isJobIdChar (c : Char) : Bool := c.isAlphanum || c == '_' || c == '-'

/-- Checks that a text can be used as a job identifier. -/
def validateJobId (id : Text) : Except Error Unit :=
  match id with
  | [] => .error (.invalidJobId id .empty)
  | c :: rest =>
    if isJobIdStart c && rest.all isJobIdChar then .ok ()
    else .error (.invalidJobId id .malformed)

/-- The document without the interface that it has for other pipelines. -/
def stripCallTrigger (document : Object) : Object :=
  match document.get? "on" with
  | some (.object triggers) =>
    if Object.contains triggers callTrigger then
      document.insert "on" (.object (triggers.filter (·.1 ≠ callTrigger)))
    else document
  | _ => document

/-- The jobs of a document by kind. -/
structure Classified where
  /-- The jobs with steps. -/
  pipeline : List Job := []
  /-- The names of the other jobs. -/
  passthrough : List Text := []

/-- Checks one job and adds it to those of its kind. -/
def classify (config : Configuration) (found : Classified) (entry : Text × Json) :
    Except Error Classified := do
  let (name, job) := entry
  validateJobId name
  if name = config.initJobId then .error (.invalidJobId name .reserved)
  else
    let job ← job.asObject ("jobs." ++ name)
    if job.contains "steps" then
      let settings ← JobSettings.ofJob name job
      .ok { found with pipeline := found.pipeline ++ [⟨name, settings⟩] }
    else .ok { found with passthrough := found.passthrough ++ [name] }

/-- Compiles one job of the document, if it is a pipeline job. -/
def compileJob (graph : JobGraph) (config : Configuration) (entry : Text × Json) :
    Except Error (Text × Json) :=
  let (name, job) := entry
  if graph.contains name then do
    let job ← job.asObject ("jobs." ++ name)
    let assembled ← assemble name job graph config
    .ok (name, .object assembled)
  else .ok entry

/-- Compiles a document in normal form into a workflow. -/
def compile (document : Object) (config : Configuration) : Except Error Object := do
  let document := stripCallTrigger document
  let jobs ← (← document.require "jobs" "top level").asObject "jobs"
  validateJobId config.initJobId
  let classified ← jobs.foldlM (classify config) {}
  let graph ← JobGraph.ofJobs classified.pipeline classified.passthrough
  let compiled ← jobs.mapM (compileJob graph config)
  let init := if graph.isEmpty then [] else [(config.initJobId, initJob graph config)]
  .ok (document.insert "jobs" (.object (init ++ compiled)))

end CachedWorkflow
