import CachedWorkflow.Json.Shape

/-!
# Job settings

The properties of a pipeline job that decide about its cache: what its key is computed from, what is
saved under the key, and which jobs it depends on.
-/

namespace CachedWorkflow

/-- The properties of a job that only its settings need; a compiled job does not have them. -/
def settingsProperties : List Text := ["paths", "output-paths", "extra-key", "force", "outputs"]

/-- The file that the structured outputs of a job are written to. -/
def outputsFile (job : Text) : Text := "__cixx_outputs_" ++ job ++ ".json"

/-- The output of the initialization job that holds the cache key of a job. -/
def keyOutput (job : Text) : Text := "key-" ++ job

/-- The output of the initialization job that tells whether a job has to run. -/
def needsBuildOutput (job : Text) : Text := "needs-build-" ++ job

/-- The output of the key step that holds the cache key of a job. -/
def keyStepOutput (job : Text) : Text := job

/-- The cache settings of one pipeline job. -/
structure JobSettings where
  /-- The paths whose content decides the cache key. -/
  paths : List Text := ["./"]
  /-- The paths that are saved to the cache and restored from it. -/
  outputPaths : List Text := []
  /-- Any text that takes part in the key. -/
  extraKey : Text := []
  needs : List Text := []
  /-- The job is never skipped. -/
  force : Bool := false
  /-- The structured outputs for the dependents. -/
  outputs : Option Json := none
  deriving DecidableEq, Repr

/-- The elements of a list without those that stand before it already. -/
def withoutRepeats : List Text → List Text
  | [] => []
  | text :: rest => text :: (withoutRepeats rest).filter (· ≠ text)

/-- The needs of a job: none, one name, or a list of names. -/
def readNeeds (job : Object) (location : Text) : Except Error (List Text) :=
  match job.get? "needs" with
  | none | some .null => .ok []
  | some (.string need) => .ok [need]
  | some value => value.asStrings (location ++ ".needs")

namespace JobSettings

/-- Reads a property with `read`, or takes the default where the job does not have it. -/
def property {α : Type} (job : Object) (name location : Text) (default : α)
    (read : Text → Json → Except Error α) : Except Error α :=
  match job.get? name with
  | some value => read (location ++ "." ++ name) value
  | none => .ok default

/-- The settings of the job with the given name. The outputs file is always among the paths that are
saved. -/
def ofJob (name : Text) (job : Object) : Except Error JobSettings := do
  let location : Text := "jobs." ++ name
  let paths ← property job "paths" location (["./"] : List Text) Json.asStrings
  let outputPaths ← property job "output-paths" location [] Json.asStrings
  let extraKey ← property job "extra-key" location [] Json.asString
  let force ← property job "force" location false Json.asBool
  let outputs := (job.get? "outputs").filter (· ≠ .null)
  let needs ← readNeeds job location
  .ok {
    paths := withoutRepeats paths
    outputPaths := withoutRepeats (outputPaths ++ [outputsFile name])
    extraKey, force, outputs
    needs := withoutRepeats needs
  }

end JobSettings

end CachedWorkflow
