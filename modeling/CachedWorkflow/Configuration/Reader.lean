import CachedWorkflow.Configuration
import CachedWorkflow.Error
import CachedWorkflow.Toml.Document

/-!
# Reading configurations

A configuration is written in TOML. Settings that are not given keep their standard values, and no
others may be given. The settings of the cache action form a table of their own, which may be written
as a table with a header, inline, with dotted keys, or as an array of its values in order.
-/

namespace CachedWorkflow

namespace CacheAction

/-- Takes in a setting. -/
def set (cache : CacheAction) (path : List Text) (value : Toml.Value) : Option CacheAction :=
  match path, value with
  | [key], .string text =>
    if key = "action" then some { cache with action := text }
    else if key = "version" then some { cache with version := text }
    else none
  | _, _ => none

/-- Takes in a table of settings. -/
def setAll (cache : CacheAction) (entries : List (List Text × Toml.Value)) : Option CacheAction :=
  entries.foldlM (fun cache entry => cache.set entry.1 entry.2) cache

/-- The cache action with the given settings in order. Nothing is taken from what follows them. -/
def ofArray : List Toml.Value → Option CacheAction
  | [] => some {}
  | [.string action] => some { action }
  | .string action :: .string version :: _ => some { action, version }
  | _ => none

end CacheAction

namespace Configuration

/-- Takes in a setting outside of tables with headers. -/
def set (config : Configuration) (path : List Text) (value : Toml.Value) : Option Configuration :=
  match path, value with
  | [key], .string text =>
    if key = "init-job-id" then some { config with initJobId := text }
    else if key = "init-runs-on" then some { config with initRunsOn := text }
    else if key = "key-step-id" then some { config with keyStepId := text }
    else if key = "outputs-step-id" then some { config with outputsStepId := text }
    else none
  | [key], .table entries =>
    if key = "cache" then (config.cache.setAll entries).map ({ config with cache := · }) else none
  | [key], .array items =>
    if key = "cache" then (CacheAction.ofArray items).map ({ config with cache := · }) else none
  | table :: path, value =>
    if table = "cache" then (config.cache.set path value).map ({ config with cache := · }) else none
  | _, _ => none

/-- Splits statements into the entries in front and the statements from the first header on. -/
def splitEntries : List Toml.Statement → List (List Text × Toml.Value) × List Toml.Statement
  | .entry path value :: rest =>
    let (entries, rest) := splitEntries rest
    ((path, value) :: entries, rest)
  | rest => ([], rest)

/-- The configuration that a list of statements describes. The header of the cache action may stand once,
and only if no entry before it belongs to that table. -/
def ofStatements? (statements : List Toml.Statement) : Option Configuration := do
  let (entries, rest) := splitEntries statements
  let config : Configuration ←
    entries.foldlM (fun config entry => set config entry.1 entry.2) {}
  if !Toml.areCompatible entries then none
  else
    match rest with
    | [] => some config
    | .header path :: rest =>
      let (settings, rest) := splitEntries rest
      if path ≠ ["cache".toList] || (entries.any fun entry => entry.1.head? == path.head?)
          || !rest.isEmpty || !Toml.areCompatible settings then none
      else (config.cache.setAll settings).map ({ config with cache := · })
    | _ => none

/-- The configuration of the TOML text at a path. -/
def read (path text : Text) : Except Error Configuration :=
  match (Toml.statements? text).bind ofStatements? with
  | some config => .ok config
  | none => .error (.invalidConfiguration path)

end Configuration

end CachedWorkflow
