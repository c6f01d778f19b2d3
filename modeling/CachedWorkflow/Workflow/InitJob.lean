import CachedWorkflow.Checkout.Script
import CachedWorkflow.Configuration
import CachedWorkflow.Job.KeyScript

/-!
# The initialization job

One job runs before all others. It computes every cache key and checks which jobs have a build in
the cache already; the other jobs read its outputs.
-/

namespace CachedWorkflow

/-- The identifier of the step that checks the cache of a job. -/
def checkStepId (job : Text) : Text := "check-cache-" ++ job

/-- A placeholder for the key of a job, inside the initialization job. -/
def keyPlaceholder (config : Configuration) (job : Text) : Text :=
  Template.placeholder ("steps." ++ config.keyStepId ++ ".outputs." ++ keyStepOutput job)

/-- The paths of a cache entry, a line each. -/
def pathLines (paths : List Text) : Text := List.intercalate "\n" paths

/-- The step that checks whether a job has a build in the cache. -/
def checkStep (config : Configuration) (job : Job) : Json :=
  .object [
    ("name", .string ("Check " ++ job.name ++ " cache")),
    ("id", .string (checkStepId job.name)),
    ("uses", .string (config.cache.reference "check")),
    ("with", .object [
      ("path", .string (pathLines job.settings.outputPaths)),
      ("key", .string (keyPlaceholder config job.name))])]

/-- The step that fetches the history and the step that runs the key script. -/
def keySteps (graph : JobGraph) (config : Configuration) : List Json := [
  .object [
    ("id", .string "git-fetch"),
    ("name", .string "Git fetch"),
    ("shell", .string "bash"),
    ("run", .string fetchScript)],
  .object [
    ("id", .string config.keyStepId),
    ("name", .string "Generate keys"),
    ("shell", .string "bash"),
    ("run", .string (keyScript graph))]]

/-- The jobs whose cache is checked: those that are not forced. -/
def checkedJobs (graph : JobGraph) : List Job := graph.jobs.filter fun job => !graph.isForced job.name

/-- The outputs of the initialization job: the key of every job, and for every job whose cache is
checked whether nothing was found there. -/
def initOutputs (graph : JobGraph) (config : Configuration) : Object :=
  let keys := graph.jobs.map fun job => (keyOutput job.name, Json.string (keyPlaceholder config job.name))
  let checks := (checkedJobs graph).map fun job =>
    (needsBuildOutput job.name, Json.string <| Template.placeholder <|
      "steps." ++ checkStepId job.name ++ ".outputs.cache-hit != 'true'")
  Object.insertAll (Object.insertAll [] keys) checks

/-- The initialization job of a graph. -/
def initJob (graph : JobGraph) (config : Configuration) : Json :=
  .object [
    ("runs-on", .string config.initRunsOn),
    ("steps", .array (keySteps graph config ++ (checkedJobs graph).map (checkStep config))),
    ("outputs", .object (initOutputs graph config))]

end CachedWorkflow
