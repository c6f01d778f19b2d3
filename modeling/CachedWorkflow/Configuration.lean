import CachedWorkflow.Text

/-!
# Configuration

The names that the compiler uses in the workflows that it makes.
-/

namespace CachedWorkflow

/-- The action that checks, restores and saves caches. -/
structure CacheAction where
  /-- The repository of the action. -/
  action : Text := "martijnhols/actions-cache"
  /-- The revision of the repository. -/
  version : Text := "204c5fc6f17f75fc56021276acb5aa4b6a051d8e"
  deriving DecidableEq, Repr

/-- The reference to one of the actions in the repository: `check`, `restore` or `save`. -/
def CacheAction.reference (cache : CacheAction) (part : Text) : Text :=
  cache.action ++ "/" ++ part ++ "@" ++ cache.version

/-- The settings of the compiler. -/
structure Configuration where
  initJobId : Text := "cixx-init"
  initRunsOn : Text := "ubuntu-latest"
  /-- The identifier of the step that computes the keys. -/
  keyStepId : Text := "generate-keys"
  /-- The identifier of the step of a job that reads the outputs of its dependencies. -/
  outputsStepId : Text := "cixx-outputs"
  cache : CacheAction := {}
  deriving DecidableEq, Repr

end CachedWorkflow
