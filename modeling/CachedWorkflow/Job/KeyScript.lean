import CachedWorkflow.Job.Graph
import CachedWorkflow.Path
import CachedWorkflow.ShellWord
import CachedWorkflow.Template.Format

/-!
# The key script

Cache keys are computed by a generated script on the machine that runs the workflow, because they
depend on the revision that is built. The key of a job is its name with a suffix: a random number if
the job is forced, and otherwise a hash over the objects at its paths, the keys of the jobs that it
needs, and its extra key. As keys and not contents of other jobs are hashed, a change anywhere
reaches all keys downstream.

The script is a list of assignments, each after those that it refers to; its text is made from them
by `KeyAssignment.toText`.
-/

namespace CachedWorkflow

/-- A piece of a path inside the script. -/
inductive PathPiece where
  /-- Text that the path is known to have. -/
  | fixed (text : Text)
  /-- The value that an expression has when the workflow runs. -/
  | evaluated (expression : Text)
  deriving DecidableEq, Repr

/-- The suffix of a cache key. -/
inductive KeySuffix where
  /-- A number that is new on every run, so that nothing is ever found under the key. -/
  | nonce
  /-- A hash over the objects at the paths, the keys of the needed jobs, and the extra key. -/
  | hash (paths : List (List PathPiece)) (needs : List Text) (extraKey : Text)
  deriving DecidableEq, Repr

/-- The computation of the key of one job. -/
structure KeyAssignment where
  job : Text
  suffix : KeySuffix
  deriving DecidableEq, Repr

namespace PathPiece

/-- The pieces of the normal form of a declared path. A path that is no template has one piece. -/
def ofPath (declared : Text) : List PathPiece :=
  let path := Path.normalize declared
  match Template.scan path with
  | .error _ => [.fixed path]
  | .ok tokens => tokens.filterMap fun
    | .literal [] => none
    | .literal text => some (.fixed text)
    | .expression source => some (.evaluated (source.trimmed isWhiteSpace))

/-- The piece as a part of a word: fixed text is quoted, and the value of an expression is put
between double quotes. -/
def toText : PathPiece → Text
  | .fixed text => ShellWord.quote text
  | .evaluated expression => "\"" ++ Template.placeholder expression ++ "\""

end PathPiece

/-- The variable that holds the key of a job. -/
def keyVariable (job : Text) : Text := "keys[" ++ job ++ "]"

/-- A reference to the key of a job. -/
def keyReference (job : Text) : Text := "$\x7b" ++ keyVariable job ++ "\x7d"

namespace KeySuffix

/-- The words that the hash function gets: the paths, two dashes, the keys, and the extra key unless
it is empty. -/
def hashWords (paths : List (List PathPiece)) (needs : List Text) (extraKey : Text) : List Text :=
  paths.map (·.flatMap PathPiece.toText) ++ ["--".toList]
    ++ needs.map (fun need => "\"" ++ keyReference need ++ "\"")
    ++ (if extraKey.isEmpty then [] else [ShellWord.quote extraKey])

/-- The suffix as text between double quotes. -/
def toText : KeySuffix → Text
  | .nonce => "$RANDOM$RANDOM"
  | .hash paths needs extraKey =>
    "$(git_hash_files " ++ List.intercalate " " (hashWords paths needs extraKey) ++ ")"

/-- The suffix of the key of a job of the graph. -/
def ofJob (graph : JobGraph) (name : Text) : KeySuffix :=
  if graph.isForced name then .nonce
  else
    match graph.get? name with
    | none => .nonce
    | some settings =>
      .hash (settings.paths.map PathPiece.ofPath) ((graph.pipelineNeeds name).map Job.name)
        settings.extraKey

end KeySuffix

/-- The two commands of an assignment: one sets the key, one makes it an output of the step. -/
def KeyAssignment.toText (a : KeyAssignment) : Text :=
  keyVariable a.job ++ "=\"" ++ a.job ++ "-" ++ a.suffix.toText ++ "\"\n"
    ++ "echo \"::set-output name=" ++ keyStepOutput a.job ++ "::" ++ keyReference a.job ++ "\"\n"

/-- The assignments of all pipeline jobs, each after those of the jobs that it needs. -/
def keyAssignments (graph : JobGraph) : List KeyAssignment :=
  graph.topological.map fun job => ⟨job.name, KeySuffix.ofJob graph job.name⟩

/-- The function of the script that hashes the objects at the paths before two dashes and the words
after them. -/
def hashFunction : Text :=
  "function git_hash_files \x7b
    local files=\"true\"

    for file in \"$@\"
    do
        if [ $files = \"true\" ]
        then
            if [ \"$file\" = \"--\" ]
            then
                files=\"false\"
            elif [ -n \"$file\" ]
            then
                sha=$(git rev-parse \"$\x7bGITHUB_SHA\x7d:$file\")
                echo \"$file: $sha\" 1>&2
                echo -n $sha
            fi
        else
            echo \"string: $file\" 1>&2
            echo -n \"$file\"
        fi
    done | git hash-object --stdin
\x7d
"

/-- The whole key script. -/
def keyScript (graph : JobGraph) : Text :=
  hashFunction ++ "declare -A keys\n" ++ (keyAssignments graph).flatMap KeyAssignment.toText

end CachedWorkflow
