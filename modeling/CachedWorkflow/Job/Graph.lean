import CachedWorkflow.Job.Order
import CachedWorkflow.Job.Settings

/-!
# The job graph

The pipeline jobs of a document with the needs between them. A graph is only built if every need
names a pipeline job or a job that is passed through, and if no job needs itself through others. Jobs
are known by their position in the declaration; of several jobs with one name the last one owns it.
-/

namespace CachedWorkflow

/-- A pipeline job: its name and its settings. -/
structure Job where
  /-- The name, by which other jobs need it. -/
  name : Text
  settings : JobSettings
  deriving DecidableEq, Repr

/-- The position of the last element that satisfies `p`. -/
def lastIndex? {α : Type} (p : α → Bool) : List α → Option Nat
  | [] => none
  | a :: rest =>
    match lastIndex? p rest with
    | some i => some (i + 1)
    | none => if p a then some 0 else none

/-- The position of the job that owns the name. -/
def ownerOf (jobs : List Job) (name : Text) : Option Nat := lastIndex? (·.name == name) jobs

/-- The positions of the pipeline jobs among the needs of a job. The first need that is neither a
pipeline job nor passed through is reported. -/
def resolveNeeds (jobs : List Job) (passthrough : List Text) (job : Text) :
    List Text → Except Error (List Nat)
  | [] => .ok []
  | need :: rest =>
    match ownerOf jobs need with
    | some i => (resolveNeeds jobs passthrough job rest).map (i :: ·)
    | none =>
      if need ∈ passthrough then resolveNeeds jobs passthrough job rest
      else .error (.unknownDependency job need)

/-- The name of the job at a position. -/
def nameAt (jobs : List Job) (i : Nat) : Text := (jobs[i]?.map Job.name).getD []

/-- Extends the positions of the jobs that are forced by themselves or through a dependency by
position `i`, if it is one of them. -/
def spreadForce (jobs : List Job) (dependencies : List (List Nat)) (forced : List Nat) (i : Nat) :
    List Nat :=
  if (jobs[i]?.any (·.settings.force)) || (Order.dependenciesOf dependencies i).any (· ∈ forced)
  then i :: forced else forced

/-- The graph of the pipeline jobs of a document. -/
structure JobGraph where
  /-- The pipeline jobs in the order of declaration. -/
  jobs : List Job
  /-- The pipeline jobs that each job needs, in the order of its needs. -/
  dependencies : List (List Nat)
  /-- All positions, each after its dependencies. -/
  order : List Nat
  /-- The positions of the jobs that are forced or depend on a forced one. -/
  forced : List Nat
  deriving DecidableEq, Repr

namespace JobGraph

/-- Builds the graph of the pipeline jobs; `passthrough` names the other jobs that may be needed.
Unknown needs are reported before cycles. -/
def ofJobs (jobs : List Job) (passthrough : List Text) : Except Error JobGraph := do
  let dependencies ← jobs.mapM fun job =>
    resolveNeeds jobs passthrough job.name job.settings.needs
  match Order.topological dependencies with
  | .error cycle => .error (.cycle (cycle.map (nameAt jobs)))
  | .ok order =>
    .ok { jobs, dependencies, order, forced := order.foldl (spreadForce jobs dependencies) [] }

variable (graph : JobGraph)

/-- The number of pipeline jobs. -/
def size : Nat := graph.jobs.length

/-- Whether there is no pipeline job. -/
def isEmpty : Bool := graph.jobs.isEmpty

/-- Whether the name is that of a pipeline job. -/
def contains (name : Text) : Bool := (ownerOf graph.jobs name).isSome

/-- The settings of the job that owns the name. -/
def get? (name : Text) : Option JobSettings := do
  let i ← ownerOf graph.jobs name
  (graph.jobs[i]?).map Job.settings

/-- The jobs, each after its dependencies. -/
def topological : List Job := graph.order.filterMap fun i => graph.jobs[i]?

/-- The pipeline jobs that the owner of the name needs, in the order of its needs. -/
def pipelineNeeds (name : Text) : List Job :=
  match ownerOf graph.jobs name with
  | none => []
  | some i => (Order.dependenciesOf graph.dependencies i).filterMap fun j => graph.jobs[j]?

/-- Whether the owner of the name, or any job that it depends on, is forced. -/
def isForced (name : Text) : Bool := (ownerOf graph.jobs name).any (· ∈ graph.forced)

end JobGraph

end CachedWorkflow
