import CachedWorkflow.Proofs.Job.Graph
import CachedWorkflow.Proofs.Path
import CachedWorkflow.Proofs.Shell.Reading
import CachedWorkflow.Proofs.Template.Scan
import CachedWorkflow.Proofs.Text.Names

/-!
# Proofs: what the key script says

The shell reads the key script as one assignment and one command for each job, in the order of the
graph (`readKeyScript_keyScript`). What stands in quotes comes out as it was put in, and the hash
function gets its words as they were meant.
-/

namespace CachedWorkflow

open Shell

theorem isBraced_keyVariable {job : Text} (hjob : IsName job) :
    ∀ c ∈ keyVariable job, isBraced c = true := by
  have hopen : ∀ c ∈ ("keys[" : Text), isBraced c = true := by decide
  have hclose : ∀ c ∈ ("]" : Text), isBraced c = true := by decide
  intro c hc
  rcases List.mem_append.mp hc with hc | hc
  · rcases List.mem_append.mp hc with hc | hc
    · exact hopen c hc
    · simp [isBraced, hjob.chars c hc]
  · exact hclose c hc

/-- A reference to a key in double quotes is a parameter. -/
theorem reads_keyReference {job : Text} (hjob : IsName job) :
    Reads .double (keyReference job) [.parameter (keyVariable job)] .double :=
  reads_parameter (isBraced_keyVariable hjob)

/-! ## The command that hashes -/

/-- The words behind the name of the hash function: the paths, the references to keys, and the extra key. -/
def hashArguments (paths needs : List Text) (extraKey : Text) : List Word :=
  paths.map (·.map .quoted) ++ [("--" : Text).map .bare]
    ++ needs.map (fun need => [.parameter (keyVariable need)])
    ++ (if extraKey.isEmpty then [] else [extraKey.map .quoted])

/-- The words of the command that hashes. -/
def hashCommand (paths needs : List Text) (extraKey : Text) : List Word :=
  ("git_hash_files" : Text).map .bare :: hashArguments paths needs extraKey

/-- Words that are read as the paths, and the other words of the arguments behind them. -/
theorem readsWords_arguments {texts paths : List Text} {needs : List Text} (extraKey : Text)
    (hpaths : List.Forall₂ (fun text path => Reads .bare text (path.map .quoted) .bare) texts paths)
    (hneeds : ∀ need ∈ needs, IsName need) :
    ReadsWords (List.intercalate " " (texts ++ ["--".toList]
        ++ needs.map (fun need => "\"" ++ keyReference need ++ "\"")
        ++ (if extraKey.isEmpty then [] else [ShellWord.quote extraKey])))
      (hashArguments paths needs extraKey) := by
  refine readsWords_intercalate (by simp) ?_
  refine List.rel_append (List.rel_append (List.rel_append ?_ ?_) ?_) ?_
  · rw [List.forall₂_map_right_iff]
    exact hpaths
  · exact .cons (reads_bare (by decide) (by decide)) .nil
  · rw [List.forall₂_map_left_iff, List.forall₂_map_right_iff, List.forall₂_same]
    intro need hneed
    exact (reads_openDouble.append (reads_keyReference (hneeds need hneed))).append reads_closeDouble
  · by_cases hextra : extraKey.isEmpty = true
    · rw [if_pos hextra, if_pos hextra]
      exact .nil
    · rw [if_neg hextra, if_neg hextra]
      exact .cons (reads_quote extraKey) .nil

/-- The text of the words is read as the words. -/
theorem readsWords_hashArguments (paths : List Text) {needs : List Text} (extraKey : Text)
    (hneeds : ∀ need ∈ needs, IsName need) :
    ReadsWords (List.intercalate " "
        (KeySuffix.hashWords (paths.map fun path => [.fixed path]) needs extraKey))
      (hashArguments paths needs extraKey) := by
  refine readsWords_arguments extraKey ?_ hneeds
  rw [List.map_map, List.forall₂_map_left_iff, List.forall₂_same]
  intro path _
  have hquote := reads_quote path
  simpa [PathPiece.toText] using hquote

/-- The command that hashes in a substitution, if its arguments are read. -/
theorem reads_hash {arguments : Text} {paths needs : List Text} {extraKey : Text}
    (h : ReadsWords arguments (hashArguments paths needs extraKey)) :
    Reads .double ("$(git_hash_files " ++ arguments ++ ")")
      [.substitution (hashCommand paths needs extraKey)] .double := by
  have hname : Reads .bare "git_hash_files" (("git_hash_files" : Text).map .bare) .bare :=
    reads_bare (by decide) (by decide)
  have hread := reads_substitution (hname.words.append h)
  rw [List.append_cons, ← List.append_assoc ("$(" : Text)] at hread
  exact hread

/-! ## Assignments -/

/-- The text of a piece, with the value of its expression. -/
def PathPiece.textWith (value : Text → Text) : PathPiece → Text
  | .fixed text => text
  | .evaluated expression => value (" " ++ expression ++ " ")

/-- The pieces of the suffix of a key, with the values of the expressions in the paths. -/
def KeySuffix.wordWith (value : Text → Text) : KeySuffix → Word
  | .nonce => [.parameter "RANDOM", .parameter "RANDOM"]
  | .hash paths needs extraKey =>
    [.substitution (hashCommand (paths.map (·.flatMap (PathPiece.textWith value))) needs extraKey)]

/-- The pieces of a suffix without expressions. -/
def suffixPieces (suffix : KeySuffix) : Word := suffix.wordWith fun _ => []

theorem map_textWith (value : Text → Text) (texts : List Text) :
    (texts.map fun text => [PathPiece.fixed text]).map (·.flatMap (PathPiece.textWith value)) = texts := by
  simp [List.map_map, Function.comp_def, PathPiece.textWith]

/-- The suffix refers to jobs with names, and holds no expressions. -/
def KeySuffix.IsPlain : KeySuffix → Prop
  | .nonce => True
  | .hash paths needs _ => (∃ texts : List Text, paths = texts.map fun text => [.fixed text]) ∧
      ∀ need ∈ needs, IsName need

/-- The commands that set the key of a job to its name with a suffix, and make it an output of the step. -/
def keyCommandsOf (job : Text) (suffix : Word) : List (List Word) := [
  [(keyVariable job ++ "=").map .bare ++ ((job ++ "-").map .quoted ++ suffix)],
  [("echo" : Text).map .bare, ("::set-output name=" ++ keyStepOutput job ++ "::").map .quoted
    ++ [.parameter (keyVariable job)]]]

/-- The commands of an assignment. -/
def assignmentCommands (a : KeyAssignment) : List (List Word) := keyCommandsOf a.job (suffixPieces a.suffix)

theorem reads_suffix {suffix : KeySuffix} (h : suffix.IsPlain) :
    Reads .double (suffix.toText ++ ['"']) (suffixPieces suffix) .bare := by
  cases suffix with
  | nonce => exact reads_nonce
  | hash paths needs extraKey =>
    obtain ⟨⟨texts, rfl⟩, hneeds⟩ := h
    rw [suffixPieces, KeySuffix.wordWith, map_textWith]
    exact (reads_hash (readsWords_hashArguments texts extraKey hneeds)).append reads_closeDouble

theorem append_lines (v e j d s o x c r : Text) (q b n : Char) :
    v ++ (e ++ [q]) ++ j ++ d ++ s ++ [q, n] ++ (o ++ b :: q :: x) ++ j ++ c ++ r ++ [q, n]
      = ((v ++ e) ++ [q] ++ ((j ++ d) ++ (s ++ [q])) ++ [n])
        ++ ((o ++ b :: ([q] ++ (x ++ j ++ c) ++ r ++ [q])) ++ [n]) := by simp

/-- The two commands are read off their text, if the suffix is read. -/
theorem readsCommands_keyCommandsOf {job suffix : Text} {pieces : Word} (hjob : IsName job)
    (hsuffix : Reads .double (suffix ++ ['"']) pieces .bare) :
    ReadsCommands (keyVariable job ++ "=\"" ++ job ++ "-" ++ suffix ++ "\"\n"
      ++ "echo \"::set-output name=" ++ keyStepOutput job ++ "::" ++ keyReference job ++ "\"\n")
      (keyCommandsOf job pieces) := by
  have htext := append_lines (keyVariable job) "=" job "-" suffix "echo"
    "::set-output name=" "::" (keyReference job) '"' ' ' '\n'
  have hvariable : ∀ c ∈ keyVariable job ++ "=", isBare c = true := by
    have hequals : ∀ c ∈ ("=" : Text), isBare c = true := by decide
    intro c hc
    rcases List.mem_append.mp hc with hc | hc
    · have hbraced := isBraced_keyVariable hjob c hc
      rw [isBraced] at hbraced
      simp [isBare, hbraced]
    · exact hequals c hc
  have hname : ∀ c ∈ job ++ "-", IsInert c := by
    have hdash : ∀ c ∈ ("-" : Text), IsInert c := by decide
    intro c hc
    exact (List.mem_append.mp hc).elim (fun h => isInert_of_isJobIdChar (hjob.chars c h)) (hdash c)
  have houtput : ∀ c ∈ "::set-output name=" ++ job ++ "::", IsInert c := by
    have hlead : ∀ c ∈ ("::set-output name=" : Text), IsInert c := by decide
    have hcolons : ∀ c ∈ ("::" : Text), IsInert c := by decide
    intro c hc
    rcases List.mem_append.mp hc with hc | hc
    · exact (List.mem_append.mp hc).elim (hlead c) fun h => isInert_of_isJobIdChar (hjob.chars c h)
    · exact hcolons c hc
  have hset := ((reads_bare (by simp) hvariable).append reads_openDouble).append
    ((reads_double (by simp) hname).append hsuffix)
  have hecho : Reads .bare "echo" (("echo" : Text).map .bare) .bare :=
    reads_bare (by decide) (by decide)
  have hprinted := ((reads_openDouble.append (reads_double (by simp) houtput)).append
    (reads_keyReference hjob)).append reads_closeDouble
  rw [List.append_nil] at hset
  rw [List.nil_append, List.append_nil] at hprinted
  have hall := (hset.words.line (by simp)).append ((hecho.words.append hprinted.words).line (by simp))
  rw [← htext] at hall
  exact hall

/-- An assignment is read as its two commands. -/
theorem readsCommands_assignment {a : KeyAssignment} (hjob : IsName a.job)
    (hsuffix : a.suffix.IsPlain) : ReadsCommands a.toText (assignmentCommands a) :=
  readsCommands_keyCommandsOf hjob (reads_suffix hsuffix)

/-! ## The script -/

/-- A declared path without an opening is fixed text. -/
theorem PathPiece.ofPath_eq {path : Text} (h : Template.hasOpening path = false) :
    PathPiece.ofPath path = [.fixed (Path.normalize path)] := by
  have hscan := Template.scan_of_hasOpening_eq_false (Path.hasOpening_normalize h)
  unfold PathPiece.ofPath
  simp only [hscan]
  cases hnormal : Path.normalize path with
  | nil => exact absurd hnormal (Path.normalize_ne_nil path)
  | cons c rest => rfl

/-- What the script needs of a graph to be read: jobs with names, and paths without openings. -/
structure JobGraph.IsPlain (graph : JobGraph) : Prop where
  names : ∀ job ∈ graph.jobs, IsName job.name
  paths : ∀ job ∈ graph.jobs, ∀ path ∈ job.settings.paths, Template.hasOpening path = false

/-- The normal forms of the declared paths of a job. -/
def Job.normalPaths (job : Job) : List Text := job.settings.paths.map Path.normalize

section

variable {graph : JobGraph} {passthrough : List Text}

theorem KeySuffix.ofJob_of_forced {name : Text} (h : graph.isForced name = true) :
    KeySuffix.ofJob graph name = .nonce := by rw [KeySuffix.ofJob, if_pos h]

/-- The suffix of a key that is not forced, if the paths of the job have no openings. -/
theorem KeySuffix.ofJob_of_plain {name : Text} {settings : JobSettings}
    (hsettings : graph.get? name = some settings) (hforced : graph.isForced name = false)
    (hpaths : ∀ path ∈ settings.paths, Template.hasOpening path = false) :
    KeySuffix.ofJob graph name = .hash ((settings.paths.map Path.normalize).map fun path => [.fixed path])
      ((graph.pipelineNeeds name).map Job.name) settings.extraKey := by
  have hpieces : settings.paths.map PathPiece.ofPath
      = (settings.paths.map Path.normalize).map fun path => [.fixed path] := by
    rw [List.map_map]
    exact List.map_congr_left fun path hpath => PathPiece.ofPath_eq (hpaths path hpath)
  rw [KeySuffix.ofJob, hforced, hsettings]
  show KeySuffix.hash (settings.paths.map PathPiece.ofPath) _ _ = _
  rw [hpieces]

/-- The suffix of the key of a job that is not forced. -/
theorem KeySuffix.ofJob_of_not_forced (hnames : (graph.jobs.map Job.name).Nodup)
    (hplain : graph.IsPlain) {job : Job} (hjob : job ∈ graph.jobs)
    (h : graph.isForced job.name = false) :
    KeySuffix.ofJob graph job.name = .hash (job.normalPaths.map fun path => [.fixed path])
      ((graph.pipelineNeeds job.name).map Job.name) job.settings.extraKey :=
  ofJob_of_plain (JobGraph.Built.get?_eq hnames hjob) h (hplain.paths job hjob)

theorem KeySuffix.isPlain_ofJob (hbuilt : graph.Built passthrough)
    (hnames : (graph.jobs.map Job.name).Nodup) (hplain : graph.IsPlain) {job : Job}
    (hjob : job ∈ graph.jobs) : (KeySuffix.ofJob graph job.name).IsPlain := by
  cases hforced : graph.isForced job.name with
  | true =>
    rw [KeySuffix.ofJob_of_forced hforced]
    trivial
  | false =>
    rw [KeySuffix.ofJob_of_not_forced hnames hplain hjob hforced]
    refine ⟨⟨_, rfl⟩, fun need hneed => ?_⟩
    obtain ⟨d, hd, rfl⟩ := List.mem_map.mp hneed
    exact hplain.names d ((hbuilt.mem_pipelineNeeds hnames hjob).mp hd).1

/-- The command that makes the variable for the keys. -/
def declareCommand : List Word :=
  [("declare" : Text).map .bare, ("-A" : Text).map .bare, ("keys" : Text).map .bare]

theorem readsCommands_declare : ReadsCommands "declare -A keys\n" [declareCommand] := by
  have hdeclare : Reads .bare "declare" (("declare" : Text).map .bare) .bare :=
    reads_bare (by decide) (by decide)
  have hoption : Reads .bare "-A" (("-A" : Text).map .bare) .bare :=
    reads_bare (by decide) (by decide)
  have hkeys : Reads .bare "keys" (("keys" : Text).map .bare) .bare :=
    reads_bare (by decide) (by decide)
  exact (hdeclare.words.append (hoption.words.append hkeys.words)).line (by simp)

/-- The shell reads the key script as the declaration and then the commands of every job, each after
those of the jobs that it needs. -/
theorem readKeyScript_keyScript (hbuilt : graph.Built passthrough)
    (hnames : (graph.jobs.map Job.name).Nodup) (hplain : graph.IsPlain) :
    readKeyScript (keyScript graph)
      = some (declareCommand :: (keyAssignments graph).flatMap assignmentCommands) := by
  have hassignments : ReadsCommands ((keyAssignments graph).flatMap KeyAssignment.toText)
      ((keyAssignments graph).flatMap assignmentCommands) := by
    refine .flatMap fun a ha => ?_
    obtain ⟨job, hjob, rfl⟩ := List.mem_map.mp ha
    have hmem := hbuilt.mem_topological.mp hjob
    exact readsCommands_assignment (hplain.names job hmem)
      (KeySuffix.isPlain_ofJob hbuilt hnames hplain hmem)
  have hscript : Text.after? hashFunction (keyScript graph) = some ("declare -A keys\n"
      ++ (keyAssignments graph).flatMap KeyAssignment.toText) :=
    Text.after?_eq_some.mpr (List.append_assoc _ _ _)
  rw [readKeyScript, hscript]
  exact (readsCommands_declare.append hassignments).readCommands

end

end CachedWorkflow
