import CachedWorkflow.Command.Options
import CachedWorkflow.Configuration.Reader
import CachedWorkflow.FileTree
import CachedWorkflow.Pipeline.Expansion
import CachedWorkflow.Yaml.Writer

/-!
# Running the command

What the command prints and writes, as a function of its arguments and of the files it finds.
-/

namespace CachedWorkflow

/-- Why a run of the compiler fails. -/
inductive Failure where
  | pipeline (error : Error)
  /-- The directory of the workflow cannot be made. -/
  | directory (path : Text) (fault : FileFault)
  /-- The workflow cannot be written. -/
  | workflow (path : Text) (fault : FileFault)
  deriving DecidableEq, Repr

/-- The report of a failure. -/
def Failure.report : Failure → Text
  | .pipeline error => "Error: " ++ error.message ++ "\n  Fix: " ++ error.fix ++ "\n"
  | .directory path fault =>
    "Error: Failed to create directory '" ++ path ++ "': " ++ fault.reason ++ "\n"
  | .workflow path fault => "Error: Failed to write '" ++ path ++ "': " ++ fault.reason ++ "\n"

/-- The text of the workflow that a run is asked for, given the texts of files and the documents. -/
def Options.workflow (options : Options) (readText : Text → Except Error Text)
    (library : Library) : Except Error Text := do
  let config : Configuration ← match options.config with
    | none => .ok {}
    | some path => do Configuration.read path (← readText path)
  let document ← preprocess library options.input
  let document ← if options.preprocessOnly then .ok document else compile document config
  .ok (Yaml.write (.object document))

/-- What a run of the command leaves behind. -/
structure Outcome where
  /-- The exit code: one for a failure, two for arguments that are not understood. -/
  code : Nat
  stdout : Text := []
  stderr : Text := []
  files : FileTree

/-- The text that names the version of the command. -/
def versionText : Text := "cixx 0.1.0\n"

/-- Writes the workflow, and makes the directory for it. -/
def FileTree.writeWorkflow (tree : FileTree) (path text : Text) : Except Failure FileTree := do
  let tree ← (tree.ensureDirectories (Path.parent path)).mapError (.directory (Path.parent path))
  (tree.write path (String.ofList text).toUTF8.toList).mapError (.workflow path)

/-- Runs the compiler on a tree of files. -/
def Options.run (options : Options) (tree : FileTree) : Except Failure Outcome := do
  let text ← (options.workflow tree.readText tree.library).mapError .pipeline
  match options.output with
  | none => .ok { code := 0, stdout := text, files := tree }
  | some path => .ok { code := 0, files := ← tree.writeWorkflow path text }

/-- Runs the command on a tree of files. Reports that are not about failures are left out. -/
def runCommand (arguments : List Text) (tree : FileTree) : Outcome :=
  match Request.ofArguments arguments with
  | .compile options =>
    match options.run tree with
    | .ok outcome => outcome
    | .error failure => { code := 1, stderr := failure.report, files := tree }
  | .version => { code := 0, stdout := versionText, files := tree }
  | .help => { code := 0, files := tree }
  | .misuse => { code := 2, files := tree }

end CachedWorkflow
