import CachedWorkflow.Template.Renaming
import CachedWorkflow.Template.Value
import CachedWorkflow.Workflow.Gate
import CachedWorkflow.Workflow.InitJob

/-!
# Compiled pipeline jobs

A pipeline job is compiled into one that checks out its sources, restores the builds of the jobs
that it needs, reads their outputs, runs the steps of the author, saves its own outputs, and commits
its build to the cache.
-/

namespace CachedWorkflow

/-- The steps that make the archives of the cache the same on all operating systems. -/
def compressionSteps : List Json := [
  .object [
    ("if", .string "runner.os == 'Windows'"),
    ("name", .string "Use GNU tar instead BSD tar"),
    ("shell", .string "cmd"),
    ("run", .string "echo C:\\Program Files\\Git\\usr\\bin>>\"%GITHUB_PATH%\"")],
  .object [
    ("name", .string "Check zstd on PATH"),
    ("shell", .string "bash"),
    ("run", .string "which zstd")]]

/-- A placeholder for the key of a job, from the point of view of another job. -/
def initKeyPlaceholder (config : Configuration) (job : Text) : Text :=
  Template.placeholder (initOutput config.initJobId (keyOutput job))

/-- The step that restores the build of a dependency. -/
def restoreStep (config : Configuration) (dependency : Job) : Json :=
  .object [
    ("name", .string ("Restore " ++ dependency.name)),
    ("uses", .string (config.cache.reference "restore")),
    ("with", .object [
      ("path", .string (pathLines dependency.settings.outputPaths)),
      ("key", .string (initKeyPlaceholder config dependency.name))])]

/-- The commands that make the outputs file of a dependency an output of the step, encoded the way
the runner decodes such outputs. -/
def readOutputsLines (dependency : Text) : List Text := [
  "output=\"$(cat " ++ ShellWord.quote (outputsFile dependency) ++ ")\"",
  "output=\"$\x7boutput//'%'/'%25'\x7d\"",
  "output=\"$\x7boutput//$'\\r'/'%0D'\x7d\"",
  "output=\"$\x7boutput//$'\\n'/'%0A'\x7d\"",
  "echo \"::set-output name=" ++ dependency ++ "::$output\""]

/-- The step that reads the outputs of the dependencies that have some; there is none if no
dependency has. -/
def readOutputsStep (config : Configuration) (dependencies : List Job) : Option Json :=
  let withOutputs := dependencies.filter (·.settings.outputs.isSome)
  if withOutputs.isEmpty then none
  else some <| .object [
    ("name", .string "Read outputs"),
    ("id", .string config.outputsStepId),
    ("shell", .string "bash"),
    ("run", .string (scriptOf (withOutputs.flatMap (readOutputsLines ·.name))))]

/-- The line that ends the contents of the outputs file. -/
def outputsEnd : Text := "__CIXX_OUTPUTS_EOF__"

/-- The step that writes the structured outputs of a job to its outputs file. -/
def saveOutputsStep (job : Text) (outputs : Json) : Except Error Json := do
  let template ← outputs.toJsonTemplate
  .ok <| .object [
    ("name", .string "Save outputs"),
    ("shell", .string "bash"),
    ("run", .string (scriptOf [
      "cd \"$GITHUB_WORKSPACE\"",
      "cat <<'" ++ outputsEnd ++ "' > " ++ ShellWord.quote (outputsFile job),
      template,
      outputsEnd]))]

/-- The step that saves the build of a job under its key. -/
def commitStep (config : Configuration) (job : Text) (settings : JobSettings) : Json :=
  .object [
    ("name", .string "Commit build"),
    ("uses", .string (config.cache.reference "save")),
    ("with", .object [
      ("path", .string (pathLines settings.outputPaths)),
      ("key", .string (initKeyPlaceholder config job))])]

/-- What the outputs of each dependency are called inside a job: those that the job has read itself,
or nothing. -/
def outputsRenaming (config : Configuration) (dependencies : List Job) : Renaming :=
  dependencies.map fun dependency =>
    ("needs." ++ dependency.name ++ ".outputs",
      if dependency.settings.outputs.isSome then
        "fromJSON(steps." ++ config.outputsStepId ++ ".outputs." ++ dependency.name ++ ")"
      else "null")

/-- Checks that the steps of a job are objects, and reports the first that is none. -/
def checkSteps (location : Text) : (index : Nat) → List Json → Except Error Unit
  | _, [] => .ok ()
  | index, step :: rest => do
    let _ ← step.asObject (location ++ "[" ++ Text.ofNat index ++ "]")
    checkSteps location (index + 1) rest

/-- The steps of the author: those of the job, which must be there, be an array and be objects. -/
def authoredSteps (name : Text) (job : Object) : Except Error (List Json) := do
  let location : Text := "jobs." ++ name
  let _ ← job.require "runs-on" location
  let steps ← (← job.require "steps" location).asArray (location ++ ".steps")
  checkSteps (location ++ ".steps") 0 steps
  .ok steps

/-- The step that saves the outputs of a job, if it has outputs. -/
def outputsSteps (job : Text) (outputs : Option Json) (names : Renaming) :
    Except Error (List Json) :=
  match outputs with
  | none => .ok []
  | some outputs => do
    let outputs ← names.applyToValue outputs
    let step ← saveOutputsStep job outputs
    .ok [step]

/-- The condition of the author, if the job has one. -/
def authoredCondition? (name : Text) (job : Object) : Except Error (Option Text) :=
  match job.get? "if" with
  | none => .ok none
  | some condition => (authoredCondition name condition).map some

/-- The compiled job without its gate, needs and steps: the properties of the author that the
compiler does not own. -/
def keptProperties (job : Object) : Object :=
  job.filter fun entry =>
    entry.1 ≠ "if" && entry.1 ≠ "needs" && !settingsProperties.contains entry.1

/-- Compiles a pipeline job of the graph. Its settings are those that the graph has for its name. -/
def assemble (name : Text) (job : Object) (graph : JobGraph) (config : Configuration) :
    Except Error Object := do
  let some settings := graph.get? name | .error (.notAPipelineJob name)
  let forced := graph.isForced name
  let dependencies := graph.pipelineNeeds name
  let steps ← authoredSteps name job
  let names := outputsRenaming config dependencies
  let steps ← steps.mapM names.applyToValue
  let saving ← outputsSteps name settings.outputs names
  let authored ← authoredCondition? name job
  let restoring := (dependencies.filter fun d => !d.settings.outputPaths.isEmpty).map
    (restoreStep config)
  let committing :=
    if !settings.outputPaths.isEmpty || !forced then [commitStep config name settings] else []
  let allSteps := (checkoutStep settings.paths).toList ++ compressionSteps ++ restoring
    ++ (readOutputsStep config dependencies).toList ++ steps ++ saving ++ committing
  let gate := gateText (gateClauses config name settings.needs forced authored)
  let head : Object := [
    ("if", .string gate),
    ("needs", Json.ofTexts (config.initJobId :: settings.needs))]
  .ok ((head.insertAll (keptProperties job)).insert "steps" (.array allSteps))

end CachedWorkflow
