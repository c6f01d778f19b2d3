import CachedWorkflow.Configuration
import CachedWorkflow.Job.Settings
import CachedWorkflow.Template.Format

/-!
# The gate of a job

The condition under which a compiled job runs: a conjunction of clauses. A job only runs after a
successful initialization job, when everything that it needs has run or was skipped, and when its
build is not in the cache. The condition that the author gave takes part as one more clause.
-/

namespace CachedWorkflow

/-- One operand of the conjunction. -/
inductive Clause where
  /-- The other clauses are looked at even if a needed job was skipped. -/
  | always
  /-- The initialization job succeeded. -/
  | initialized (init : Text)
  /-- A needed job succeeded or was skipped. -/
  | finished (job : Text)
  /-- The initialization job found no build of the job in the cache. -/
  | needsBuild (init job : Text)
  /-- The condition of the author. -/
  | authored (condition : Text)
  deriving DecidableEq, Repr

/-- An output of the initialization job, from the point of view of another job. -/
def initOutput (init output : Text) : Text := "needs." ++ init ++ ".outputs." ++ output

/-- The expression of a clause. -/
def Clause.toText : Clause → Text
  | .always => "always()"
  | .initialized init => "(needs." ++ init ++ ".result == 'success')"
  | .finished job =>
    "(needs." ++ job ++ ".result == 'success' || needs." ++ job ++ ".result == 'skipped')"
  | .needsBuild init job => "(" ++ initOutput init (needsBuildOutput job) ++ " == 'true')"
  | .authored condition => "(" ++ condition ++ ")"

/-- The clauses of the gate of a job. -/
def gateClauses (config : Configuration) (job : Text) (needs : List Text) (forced : Bool)
    (authored : Option Text) : List Clause :=
  [.always, .initialized config.initJobId] ++ needs.map .finished
    ++ (if forced then [] else [.needsBuild config.initJobId job])
    ++ (authored.map Clause.authored).toList

/-- The conjunction of clauses. -/
def gateText (clauses : List Clause) : Text :=
  List.intercalate " && " (clauses.map Clause.toText)

/-- The condition that the author gave a job, as a bare expression. -/
def authoredCondition (job : Text) : Json → Except Error Text
  | .bool value => .ok (if value then "true" else "false")
  | .string text => do
    match ← Template.fullExpression? text with
    | some expression => .ok expression
    | none => .ok (text.trimmed isWhiteSpace)
  | value => .error (.wrongKind ("jobs." ++ job ++ ".if") .stringOrBool value.kind)

end CachedWorkflow
