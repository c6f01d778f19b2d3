import CachedWorkflow.Json.Shape
import CachedWorkflow.Job.Settings
import CachedWorkflow.Pipeline.Binding
import CachedWorkflow.Workflow.Compile

/-!
# Call sites

A job that calls another pipeline is a call site. This module holds what happens to the called
pipeline, the child, and to the jobs around the call site when the one is put in the place of the
other: the jobs of the child get a prefix, its inputs are bound, and needs are wired anew.
-/

namespace CachedWorkflow

/-- The property of a job that names the pipeline to call. -/
def callProperty : Text := "cixx-uses"

/-- The names through which an expression refers to other jobs. -/
def contexts : List Text := ["needs", "jobs"]

/-- The path of a called pipeline, which is relative to the directory of the calling document. -/
def calledPath (file target : Text) : Text := Path.normalize (Path.resolve (Path.parent file) target)

/-- The paths of the pipelines that a document calls. -/
def calledPaths (file : Text) (document : Json) : List Text :=
  match document with
  | .object fields =>
    match Object.get? fields "jobs" with
    | some (.object jobs) => jobs.filterMap fun entry =>
      match entry.2 with
      | .object job =>
        match Object.get? job callProperty with
        | some (.string target) => some (calledPath file target)
        | _ => none
      | _ => none
    | _ => []
  | _ => []

/-- The interface of a pipeline for its callers. -/
def callInterface (document : Object) : Option Object := do
  let .object triggers ← document.get? "on" | none
  let .object interface ← Object.get? triggers callTrigger | none
  some interface

/-! ## Prefixes -/

/-- Lengthens a text by dashes, at most `steps` of them, until no taken name begins with it. -/
def lengthen (taken : List Text) : (steps : Nat) → Text → Text
  | 0, lead => lead
  | steps + 1, lead =>
    if taken.any lead.isPrefixOf then lengthen taken steps (lead ++ ['-']) else lead

/-- The prefix for the jobs of a call site: its name and as many dashes, one at least, as it takes
that no taken name begins with it. A name never begins with a text that is longer. -/
def freshPrefix (taken : List Text) (site : Text) : Text :=
  lengthen taken ((taken.map List.length).foldl max 0 + 1) (site ++ ['-'])

/-- The references to the jobs of a document, renamed to go to the prefixed jobs. -/
def prefixRenaming (lead : Text) (jobs : List Text) : Renaming :=
  jobs.flatMap fun job => contexts.map fun context =>
    (context ++ "." ++ job, context ++ "." ++ lead ++ job)

/-- A job with a prefix before its name and before the plain needs on jobs of its document. -/
def prefixJob (location lead : Text) (jobs : Object) (entry : Text × Json) :
    Except Error (Text × Json) := do
  let (name, job) := entry
  let location := location ++ "." ++ name
  let job ← job.asObject location
  let job ←
    if job.contains "needs" then do
      let needs ← readNeeds job location
      .ok <| job.insert "needs" <| Json.ofTexts <| needs.map fun need =>
        if jobs.contains need then lead ++ need else need
    else .ok job
  .ok (lead ++ name, .object job)

/-- The document at `path` with a prefix before the names of its jobs, and with all references to
them renamed. -/
def addPrefix (lead path : Text) (document : Object) : Except Error Object := do
  let location := path ++ ":jobs"
  let jobs ← (← document.require "jobs" path).asObject location
  let prefixed ← jobs.mapM (prefixJob location lead jobs)
  let document := document.insert "jobs" (.object prefixed)
  let renamed ← (prefixRenaming lead jobs.keys).applyToValue (.object document)
  renamed.asObject path

/-! ## Inputs -/

/-- Completes the inputs of a call site by one that the child declares: by its default if it has
one. An input without default that is required must be there. -/
def completeInput (site path : Text) (bound : Object) (declared : Text × Json) :
    Except Error Object := do
  let (name, declaration) := declared
  if bound.contains name then .ok bound
  else
    let declaration : Object := match declaration with
      | .object fields => fields
      | _ => []
    match declaration.get? "default" with
    | some value => .ok (bound.insert name value)
    | none =>
      let required ← match declaration.get? "required" with
        | some flag =>
          flag.asBool (path ++ ":on." ++ callTrigger ++ ".inputs." ++ name ++ ".required")
        | none => .ok false
      if required then .error (.missingInput site name path) else .ok bound

/-- The inputs of a call site, completed by the defaults of the child at `path`. -/
def boundInputs (site path : Text) (job child : Object) : Except Error Object := do
  let bound ← match job.get? "with" with
    | none | some .null => .ok []
    | some given => given.asObject ("jobs." ++ site ++ ".with")
  let declared : Object := match (callInterface child).bind (·.get? "inputs") with
    | some (.object fields) => fields
    | _ => []
  declared.foldlM (completeInput site path) bound

/-! ## Needs and outputs -/

/-- A call site that has been replaced. -/
structure CallSite where
  name : Text
  /-- The names of the jobs in its place. -/
  jobs : List Text
  /-- The outputs of the child, `null` if it has none. -/
  outputs : Json

/-- The job that a need names, plainly or as a placeholder with a reference to the job. -/
def neededJob (need : Text) : Except Error Text := do
  match ← Template.fullExpression? need with
  | none => .ok need
  | some expression =>
    .ok <| ((Text.after? "jobs." expression).or (Text.after? "needs." expression)).getD need

/-- The needs that stand for one need: all jobs of the call site if it names one. -/
def rewireNeed (sites : List CallSite) (need : Text) : Except Error (List Text) := do
  let name ← neededJob need
  match sites.find? (·.name == name) with
  | some site => .ok site.jobs
  | none => .ok [need]

/-- Whether a need names a call site. -/
def namesSite (sites : List CallSite) (need : Text) : Except Error Bool := do
  let name ← neededJob need
  .ok (sites.any (·.name == name))

/-- A job whose needs on call sites are needs on the jobs in their place. -/
def rewireJob (sites : List CallSite) (entry : Text × Json) : Except Error (Text × Json) := do
  let (name, job) := entry
  let location : Text := "jobs." ++ name
  let job ← job.asObject location
  let needs ← readNeeds job location
  let rewired ← needs.mapM (rewireNeed sites)
  let changed ← needs.anyM (namesSite sites)
  if changed then .ok (name, .object (job.insert "needs" (Json.ofTexts rewired.flatten)))
  else .ok (name, .object job)

/-- Rewires the needs of all jobs. -/
def rewireJobs (sites : List CallSite) (jobs : Object) : Except Error Object :=
  if sites.isEmpty then .ok jobs else jobs.mapM (rewireJob sites)

/-- The outputs of call sites, bound to the names that expressions know them by. -/
def outputsBinding (sites : List CallSite) : Binding :=
  sites.flatMap fun site => contexts.flatMap fun context =>
    Binding.ofValue (context ++ "." ++ site.name ++ ".outputs") site.outputs

end CachedWorkflow
