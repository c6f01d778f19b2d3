import CachedWorkflow.Proofs.Job.KeyScript
import CachedWorkflow.Proofs.Shell.Running
import CachedWorkflow.Proofs.Workflow.Gate

/-!
# Proofs: the run of the key script

The key script runs to its end on every machine and gives every job its key (`exists_run_keys`). The
invariant of the run is that the jobs that are done have their keys (`Keyed`); one assignment keeps it
because a job comes after those that it needs.
-/

namespace CachedWorkflow

open Shell

/-- The line that makes a key an output of the key step. -/
def outputLine (job key : Text) : Text := setOutputText (keyStepOutput job) key

/-- The script has given a job its key: it has set it and made it an output of the key step. -/
def HasKey (s : State) (job key : Text) : Prop := s.keyOf job = key ∧ outputLine job key ∈ s.printed

/-- The words that the hash function gets for the key of a job. -/
def keyWords (graph : JobGraph) (s : State) (job : Job) : List Text :=
  job.normalPaths ++ [("--" : Text)] ++ (((graph.pipelineNeeds job.name).map Job.name).map s.keyOf
    ++ if job.settings.extraKey.isEmpty then [] else [job.settings.extraKey])

/-- The text that the hash function hashes for the key of a job. -/
def hashedText (graph : JobGraph) (m : Machine) (s : State) (job : Job) : Text :=
  hashInput m (keyWords graph s job)

/-- A job has its key: it begins with the name of the job, it has been printed, and unless the job is
forced the rest of it is a hash. -/
structure Keyed (graph : JobGraph) (m : Machine) (s : State) (job : Job) : Prop where
  lead : ∃ suffix, s.keyOf job.name = job.name ++ "-" ++ suffix
  printed : outputLine job.name (s.keyOf job.name) ∈ s.printed
  hashed : graph.isForced job.name = false → hashedText graph m s job ∈ s.hashed ∧
    s.keyOf job.name = job.name ++ "-" ++ m.hash (hashedText graph m s job)

variable {graph : JobGraph} {passthrough : List Text} {m : Machine} {s s' : State}

/-- What is hashed depends on the objects and on the keys of the needed jobs. -/
theorem hashedText_congr {m₁ m₂ : Machine} (hid : m₁.objectId = m₂.objectId) {s₁ s₂ : State} {job : Job}
    (h : ∀ need ∈ graph.pipelineNeeds job.name, s₁.keyOf need.name = s₂.keyOf need.name) :
    hashedText graph m₁ s₁ job = hashedText graph m₂ s₂ job := by
  have hkeys : ((graph.pipelineNeeds job.name).map Job.name).map s₁.keyOf
      = ((graph.pipelineNeeds job.name).map Job.name).map s₂.keyOf := by
    rw [List.map_map, List.map_map]
    exact List.map_congr_left h
  unfold hashedText keyWords hashInput
  rw [hkeys, hid]

/-- The first command makes the variable for the keys, without elements. -/
theorem runCommand_declare : runCommand m {} declareCommand = some { keys := some [] } := by
  have hword : ∀ text : Text, (∀ c ∈ text, isJobIdChar c = true) →
      evalWords m {} [text.map .bare] = some ([text], {}) := fun text htext =>
    evalWords_singleton (evalWord_bare htext)
  have hwords : evalWords m {} declareCommand
      = some ([("declare" : Text), ("-A" : Text), ("keys" : Text)], {}) :=
    evalWords_append (hword "declare" (by decide))
      (evalWords_append (hword "-A" (by decide)) (hword "keys" (by decide)))
  unfold declareCommand at hwords ⊢
  rw [runCommand, hwords]
  · simp only [Option.bind_eq_bind, Option.bind_some]
    rw [runSimple, if_pos ⟨rfl, rfl, rfl⟩]
    rfl
  · -- there are three words
    intro only h
    cases h

/-! ## The suffix of a key -/

/-- The arguments of the command that hashes stand for the paths, the two dashes, the keys and the extra key
as they are. -/
theorem evalWords_hashArguments {keys : List (Text × Text)} (hkeys : s.keys = some keys)
    (paths needs : List Text) (extraKey : Text) (hneeds : ∀ need ∈ needs, IsName need) :
    evalWords m s (hashArguments paths needs extraKey) = some (paths ++ [("--" : Text)]
      ++ (needs.map s.keyOf ++ if extraKey.isEmpty then [] else [extraKey]), s) := by
  have hpaths : evalWords m s (paths.map (·.map .quoted)) = some (paths.map id, s) :=
    evalWords_map fun path _ => evalWord_quoted path
  have hdashes : evalWord m s (("--" : Text).map .bare) = some (("--" : Text), s) :=
    evalWord_bare (by decide)
  have hkeyWords : evalWords m s (needs.map fun need => [.parameter (keyVariable need)])
      = some (needs.map s.keyOf, s) :=
    evalWords_map fun need hneed => evalWord_singleton (evalPiece_key hkeys (hneeds need hneed))
  have hextra : evalWords m s (if extraKey.isEmpty then [] else [extraKey.map .quoted])
      = some (if extraKey.isEmpty then [] else [extraKey], s) := by
    by_cases hempty : extraKey.isEmpty = true
    · rw [if_pos hempty, if_pos hempty, evalWords]
    · rw [if_neg hempty, if_neg hempty]
      exact evalWords_singleton (evalWord_quoted extraKey)
  have hall := evalWords_append (evalWords_append
    (evalWords_append hpaths (evalWords_singleton hdashes)) hkeyWords) hextra
  rw [List.map_id, List.append_assoc (paths ++ [("--" : Text)])] at hall
  exact hall

theorem evalWords_hashCommand {keys : List (Text × Text)} (hkeys : s.keys = some keys)
    (paths needs : List Text) (extraKey : Text) (hneeds : ∀ need ∈ needs, IsName need) :
    evalWords m s (hashCommand paths needs extraKey) = some (("git_hash_files" : Text) ::
      (paths ++ [("--" : Text)] ++ (needs.map s.keyOf ++ if extraKey.isEmpty then [] else [extraKey])),
      s) := by
  have hname : evalWord m s (("git_hash_files" : Text).map .bare)
      = some (("git_hash_files" : Text), s) := evalWord_bare (by decide)
  have hall := evalWords_append (evalWords_singleton hname)
    (evalWords_hashArguments hkeys paths needs extraKey hneeds)
  rw [List.singleton_append, List.singleton_append] at hall
  rw [hashCommand, hall]

/-- The output of the command that hashes. -/
theorem evalWord_hashCommand {keys : List (Text × Text)} (hkeys : s.keys = some keys)
    {paths needs : List Text} {extraKey : Text} (hneeds : ∀ need ∈ needs, IsName need) {input : Text}
    (hinput : input = hashInput m (paths ++ [("--" : Text)]
      ++ (needs.map s.keyOf ++ if extraKey.isEmpty then [] else [extraKey]))) :
    evalWord m s [.substitution (hashCommand paths needs extraKey)]
      = some (m.hash input, { s with hashed := s.hashed ++ [input] }) := by
  refine evalWord_singleton ?_
  rw [evalPiece, evalWords_hashCommand hkeys paths needs extraKey hneeds]
  simp only [Option.bind_eq_bind, Option.bind_some]
  rw [commandOutput, if_pos rfl, hinput]

/-- Two random numbers. -/
theorem evalWord_nonce : evalWord m s [.parameter "RANDOM", .parameter "RANDOM"]
    = some (m.random s.drawn ++ m.random (s.drawn + 1), { s with drawn := s.drawn + 2 }) := by
  have hdraw : ∀ s : State, evalWord m s [.parameter "RANDOM"]
      = some (m.random s.drawn, { s with drawn := s.drawn + 1 }) := by
    intro s
    refine evalWord_singleton ?_
    rw [evalPiece, parameterValue, if_pos rfl]
  exact evalWord_append (hdraw s) (hdraw { s with drawn := s.drawn + 1 })

/-- The value of a key begins with a quote. -/
theorem bareLead_keyValue (job : Text) (suffix : Word) :
    bareLead ((job ++ "-").map .quoted ++ suffix) = ([], (job ++ "-").map .quoted ++ suffix) := by
  cases job <;> rfl

/-- The two commands set the key and print it, if there is a value for the suffix. -/
theorem foldlM_keyCommandsOf {job : Text} (hjob : IsName job) {suffix : Word} {text : Text} {hashed : List Text}
    {drawn : Nat} {keys : List (Text × Text)} (hkeys : s.keys = some keys)
    (hsuffix : evalWord m s suffix = some (text, { s with hashed, drawn })) :
    (keyCommandsOf job suffix).foldlM (runCommand m) s = some { s with
      hashed, drawn, keys := some ((job, job ++ "-" ++ text) :: keys)
      printed := s.printed ++ [outputLine job (job ++ "-" ++ text)] } := by
  have hset := runCommand_assignment hjob (bareLead_keyValue _ _)
    (evalWord_append (evalWord_quoted (job ++ "-")) hsuffix) hkeys
  -- the state after the first command
  let set : State := { s with hashed, drawn, keys := some ((job, job ++ "-" ++ text) :: keys) }
  have hkeyOf : ∀ name, set.keyOf name = if name = job then job ++ "-" ++ text else s.keyOf name :=
    keyOf_of_set hkeys rfl
  have hlookup : set.keyOf job = job ++ "-" ++ text := (hkeyOf job).trans (if_pos rfl)
  have hline : evalWord m set (("::set-output name=" ++ keyStepOutput job ++ "::").map .quoted
      ++ [.parameter (keyVariable job)]) = some (outputLine job (set.keyOf job), set) :=
    evalWord_append (evalWord_quoted _) (evalWord_singleton (evalPiece_key rfl hjob))
  have hecho := runCommand_echo hline (by intro h; cases h)
  rw [hlookup] at hecho
  rw [keyCommandsOf, List.foldlM_cons, hset]
  simp only [Option.bind_eq_bind, Option.bind_some]
  rw [List.foldlM_cons, hecho]
  rfl

/-- What the commands of the assignment of a key do: they set the key of the job and no other, print
it, and hash the input of the key unless the job is forced. -/
structure Assigns (graph : JobGraph) (m : Machine) (s s' : State) (job : Job) : Prop where
  declared : s'.keys.isSome
  frame : ∀ name, name ≠ job.name → s'.keyOf name = s.keyOf name
  printed : s'.printed = s.printed ++ [outputLine job.name (s'.keyOf job.name)]
  grows : ∀ text ∈ s.hashed, text ∈ s'.hashed
  lead : ∃ suffix, s'.keyOf job.name = job.name ++ "-" ++ suffix
  hashed : graph.isForced job.name = false → hashedText graph m s job ∈ s'.hashed ∧
    s'.keyOf job.name = job.name ++ "-" ++ m.hash (hashedText graph m s job)

section

variable (hbuilt : graph.Built passthrough) (hnames : (graph.jobs.map Job.name).Nodup)
  (hplain : graph.IsPlain)

include hbuilt hnames hplain

/-- The suffix of the key of a job is computed without a change of keys and lines. -/
theorem exists_evalWord_suffix {keys : List (Text × Text)} (hkeys : s.keys = some keys) {job : Job}
    (hjob : job ∈ graph.jobs) : ∃ suffix hashed drawn,
    evalWord m s (suffixPieces (KeySuffix.ofJob graph job.name))
        = some (suffix, { s with hashed, drawn }) ∧
      (∀ text ∈ s.hashed, text ∈ hashed) ∧
      (graph.isForced job.name = false →
        hashedText graph m s job ∈ hashed ∧ suffix = m.hash (hashedText graph m s job)) := by
  cases hforced : graph.isForced job.name with
  | true =>
    rw [KeySuffix.ofJob_of_forced hforced]
    exact ⟨_, _, _, evalWord_nonce, fun _ htext => htext, fun h => nomatch h⟩
  | false =>
    have hneeds : ∀ need ∈ (graph.pipelineNeeds job.name).map Job.name, IsName need := by
      intro need hneed
      obtain ⟨other, hother, rfl⟩ := List.mem_map.mp hneed
      exact hplain.names other ((hbuilt.mem_pipelineNeeds hnames hjob).mp hother).1
    rw [KeySuffix.ofJob_of_not_forced hnames hplain hjob hforced, suffixPieces, KeySuffix.wordWith,
      map_textWith]
    refine ⟨_, _, _, evalWord_hashCommand hkeys hneeds rfl, ?_, fun _ => ⟨?_, rfl⟩⟩
    · intro text htext
      exact List.mem_append_left _ htext
    · exact List.mem_append_right _ (List.mem_singleton_self _)

/-- The commands of the assignment of a key run to their end once the variable is declared. -/
theorem exists_assigns (hdeclared : s.keys.isSome) {job : Job} (hjob : job ∈ graph.jobs) : ∃ s',
    (assignmentCommands ⟨job.name, KeySuffix.ofJob graph job.name⟩).foldlM (runCommand m) s = some s' ∧
      Assigns graph m s s' job := by
  obtain ⟨keys, hkeys⟩ := Option.isSome_iff_exists.mp hdeclared
  obtain ⟨suffix, hashed, drawn, hsuffix, hgrows, hhashed⟩ :=
    exists_evalWord_suffix (m := m) hbuilt hnames hplain hkeys hjob
  have hrun := foldlM_keyCommandsOf (hplain.names job hjob) hkeys hsuffix
  -- the state after the commands
  let after : State := { s with
    hashed, drawn, keys := some ((job.name, job.name ++ "-" ++ suffix) :: keys)
    printed := s.printed ++ [outputLine job.name (job.name ++ "-" ++ suffix)] }
  have hkeyOf : ∀ name, after.keyOf name
      = if name = job.name then job.name ++ "-" ++ suffix else s.keyOf name := keyOf_of_set hkeys rfl
  have hkey := (hkeyOf job.name).trans (if_pos rfl)
  refine ⟨after, hrun, ⟨rfl, fun name hne => (hkeyOf name).trans (if_neg hne), ?_, hgrows, ⟨suffix, hkey⟩,
    fun hforced => ?_⟩⟩
  · rw [hkey]
  · obtain ⟨hmem, rfl⟩ := hhashed hforced
    exact ⟨hmem, hkey⟩

/-! ## The run -/

omit hplain in
/-- A key that has been computed stays so when the key of the next job is set. -/
theorem Keyed.step {done rest : List Job} {job next : Job}
    (hsplit : graph.topological = done ++ next :: rest) (hjob : job ∈ done)
    (h : Keyed graph m s job) (hnext : Assigns graph m s s' next) : Keyed graph m s' job := by
  have hnodup := hbuilt.nodup_topological hnames
  rw [hsplit, List.map_append, List.map_cons] at hnodup
  have hother : ∀ other ∈ done, s'.keyOf other.name = s.keyOf other.name := by
    intro other hmem
    refine hnext.frame other.name fun heq => ?_
    exact (List.nodup_append.mp hnodup).2.2 other.name (List.mem_map_of_mem hmem) next.name
      List.mem_cons_self heq
  have hneeds : ∀ need ∈ graph.pipelineNeeds job.name, need ∈ done := by
    obtain ⟨front, back, rfl⟩ := List.append_of_mem hjob
    intro need hneed
    have hbefore : graph.topological = front ++ job :: (back ++ next :: rest) := by
      rw [hsplit, List.append_assoc, List.cons_append]
    exact List.mem_append_left _ (hbuilt.needs_before hnames hbefore need hneed)
  have hinput : hashedText graph m s' job = hashedText graph m s job :=
    hashedText_congr rfl fun need hneed => hother need (hneeds need hneed)
  refine ⟨?_, ?_, fun hforced => ?_⟩
  · rw [hother job hjob]
    exact h.lead
  · rw [hother job hjob, hnext.printed]
    exact List.mem_append_left _ h.printed
  · rw [hother job hjob, hinput]
    obtain ⟨hmem, hkey⟩ := h.hashed hforced
    exact ⟨hnext.grows _ hmem, hkey⟩

omit hplain in
/-- The job whose key has been set is done. -/
theorem Assigns.keyed {done rest : List Job} {job : Job}
    (hsplit : graph.topological = done ++ job :: rest) (h : Assigns graph m s s' job) :
    Keyed graph m s' job := by
  have hnodup := hbuilt.nodup_topological hnames
  rw [hsplit, List.map_append, List.map_cons] at hnodup
  have hinput : hashedText graph m s' job = hashedText graph m s job := by
    refine hashedText_congr rfl fun need hneed => h.frame need.name fun heq => ?_
    have hmem := hbuilt.needs_before hnames hsplit need hneed
    exact (List.nodup_append.mp hnodup).2.2 need.name (List.mem_map_of_mem hmem) job.name
      List.mem_cons_self heq
  refine ⟨h.lead, ?_, fun hforced => ?_⟩
  · rw [h.printed]
    exact List.mem_append_right _ (List.mem_singleton_self _)
  · rw [hinput]
    exact h.hashed hforced

/-- From a state in which the jobs that are done have their keys, the other assignments run to their
end and give all jobs theirs. -/
theorem exists_run_rest {done rest : List Job} (hsplit : graph.topological = done ++ rest)
    (hdeclared : s.keys.isSome) (hdone : ∀ job ∈ done, Keyed graph m s job) : ∃ s',
    ((rest.map fun job => KeyAssignment.mk job.name (.ofJob graph job.name)).flatMap
        assignmentCommands).foldlM (runCommand m) s = some s' ∧
      ∀ job ∈ graph.topological, Keyed graph m s' job := by
  induction rest generalizing done s with
  | nil =>
    refine ⟨s, rfl, ?_⟩
    rw [hsplit, List.append_nil]
    exact hdone
  | cons job rest ih =>
    have hjob : job ∈ graph.jobs := by
      rw [← hbuilt.mem_topological, hsplit]
      exact List.mem_append_right _ List.mem_cons_self
    obtain ⟨s₁, hrun, hassigns⟩ := exists_assigns (m := m) hbuilt hnames hplain hdeclared hjob
    have hdone₁ : ∀ other ∈ done ++ [job], Keyed graph m s₁ other := by
      intro other hother
      rcases List.mem_append.mp hother with hother | hother
      · exact (hdone other hother).step hbuilt hnames hsplit hother hassigns
      · rw [List.mem_singleton.mp hother]
        exact hassigns.keyed hbuilt hnames hsplit
    obtain ⟨s', hrest, hall⟩ := ih (by rw [hsplit, List.append_assoc, List.singleton_append])
      hassigns.declared hdone₁
    refine ⟨s', ?_, hall⟩
    rw [List.map_cons, List.flatMap_cons, List.foldlM_append, hrun]
    exact hrest

/-- A run of the key script is a run of the commands that it is read as. -/
theorem runKeyScript_keyScript (m : Machine) : runKeyScript m (keyScript graph)
    = (declareCommand :: (keyAssignments graph).flatMap assignmentCommands).foldlM (runCommand m) {} := by
  rw [runKeyScript, readKeyScript_keyScript hbuilt hnames hplain]
  simp only [Option.bind_eq_bind, Option.bind_some]

/-- The key script runs to its end and gives all jobs their keys. -/
theorem exists_run_keys (m : Machine) : ∃ s, runKeyScript m (keyScript graph) = some s ∧
    ∀ job ∈ graph.jobs, Keyed graph m s job := by
  have hsplit : graph.topological = [] ++ graph.topological := (List.nil_append _).symm
  have hnone : ∀ job ∈ ([] : List Job), Keyed graph m { keys := some [] } job := fun _ h => nomatch h
  obtain ⟨s, hrun, hall⟩ := exists_run_rest hbuilt hnames hplain hsplit rfl hnone
  refine ⟨s, ?_, fun job hjob => hall job (hbuilt.mem_topological.mpr hjob)⟩
  rw [runKeyScript_keyScript hbuilt hnames hplain, List.foldlM_cons, runCommand_declare]
  exact hrun

end

/-- The jobs that a job that is not forced needs are not forced. -/
theorem isForced_eq_false_of_mem_pipelineNeeds (hbuilt : graph.Built passthrough)
    (hnames : (graph.jobs.map Job.name).Nodup) {job need : Job} (hjob : job ∈ graph.jobs)
    (hforced : graph.isForced job.name = false) (hneed : need ∈ graph.pipelineNeeds job.name) :
    graph.isForced need.name = false := by
  rw [Bool.eq_false_iff] at hforced ⊢
  intro h
  exact hforced ((hbuilt.isForced_iff hnames hjob).mpr (.inr ⟨need, hneed, h⟩))

end CachedWorkflow
