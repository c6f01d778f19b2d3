import CachedWorkflow.Json.Shape
import CachedWorkflow.Job.Settings
import CachedWorkflow.Template.Renaming

/-!
# The normal form of a document

A document is brought to normal form before it is compiled. Top-level properties that only hold
shared parts are gone, steps are a flat array without bare commands, and references to other jobs
all have the form that the platform understands.
-/

namespace CachedWorkflow

/-- The document without the top-level properties whose name begins with `x-`. -/
def removeShared (document : Object) : Object :=
  document.filter fun entry => !("x-".toList).isPrefixOf entry.1

/-- Rewrites the body of every job. -/
def mapJobs (f : Text → Object → Except Error Object) (document : Object) :
    Except Error Object := do
  let jobs ← (← document.require "jobs" "top level").asObject "jobs"
  let jobs ← jobs.mapM fun (name, job) => do
    let job ← job.asObject ("jobs." ++ name)
    let job ← f name job
    .ok (name, Json.object job)
  .ok (document.insert "jobs" (.object jobs))

mutual

/-- A step in flat form: arrays are replaced by their elements, and a bare command by a step that
runs it. -/
def flattenStep : Json → List Json
  | .array steps => flattenSteps steps
  | .string command => [.object [("run", .string command)]]
  | step => [step]

/-- All steps of a list in flat form. -/
def flattenSteps : List Json → List Json
  | [] => []
  | step :: rest => flattenStep step ++ flattenSteps rest

end

/-- Flattens the steps of a job. A job without steps is left alone. -/
def flattenJob (name : Text) (job : Object) : Except Error Object :=
  match job.get? "steps" with
  | none | some .null => .ok job
  | some steps => do
    let steps ← steps.asArray ("jobs." ++ name ++ ".steps")
    if steps.isEmpty then .ok job else .ok (job.insert "steps" (.array (flattenSteps steps)))

/-- Flattens the steps of every job. -/
def flattenDocument (document : Object) : Except Error Object := mapJobs flattenJob document

/-- The name in a need, which is given plainly or as a placeholder with a reference to the job. -/
def plainNeed (need : Text) : Except Error Text := do
  match ← Template.fullExpression? need with
  | some expression => .ok ((Text.after? "jobs." expression).getD need)
  | none => .ok need

/-- Gives the references of a job to other jobs the form that the platform understands. -/
def rereferenceJob (name : Text) (job : Object) : Except Error Object := do
  let needs ← readNeeds job ("jobs." ++ name)
  let needs ← needs.mapM plainNeed
  let job ← Renaming.applyToValue [("jobs", "needs")] (.object job)
  let job ← job.asObject ("jobs." ++ name)
  if needs.isEmpty then .ok job else .ok (job.insert "needs" (Json.ofTexts needs))

/-- Gives all references to jobs the form that the platform understands. -/
def rereferenceDocument (document : Object) : Except Error Object := mapJobs rereferenceJob document

/-- Brings a document to normal form. -/
def normalizeDocument (document : Object) : Except Error Object := do
  let document ← flattenDocument (removeShared document)
  rereferenceDocument document

end CachedWorkflow
