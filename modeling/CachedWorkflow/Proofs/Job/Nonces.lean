import CachedWorkflow.Proofs.Job.KeyRun
import Mathlib.Data.Option.Basic
import Mathlib.Logic.Relation

/-!
# Proofs: keys are defined before they are used, and nonces stay where they are

The commands of a key script are read for the keys that they set and for the parameters that their
words refer to. Every key is set once, after those that it refers to, and a key that refers to a random
number belongs to a forced job (`keyScript_contains_nonces`). As jobs that are not forced only need
such jobs, their keys do not depend on the numbers (`keyOf_eq_of_runs`).
-/

namespace CachedWorkflow

open Shell Relation

namespace Shell

mutual

/-- The parameters that a piece refers to, those of a substitution included. -/
def parametersOfPiece : Piece → List Text
  | .bare _ | .quoted _ => []
  | .parameter name => [name]
  | .substitution words => parametersOfWords words

/-- The parameters that a word refers to. -/
def parameters : List Piece → List Text
  | [] => []
  | piece :: rest => parametersOfPiece piece ++ parameters rest

/-- The parameters that words refer to. -/
def parametersOfWords : List (List Piece) → List Text
  | [] => []
  | word :: rest => parameters word ++ parametersOfWords rest

end

/-- The job whose key a parameter is. -/
def keyParameter? (name : Text) : Option Text :=
  match element? name with
  | some (job, []) => some job
  | _ => none

/-- The jobs whose keys a word refers to. -/
def keyReferences (word : Word) : List Text := (parameters word).filterMap keyParameter?

/-- Whether a word refers to a random number. -/
def IsRandom (word : Word) : Prop := ("RANDOM" : Text) ∈ parameters word

/-- The job whose key a command sets, and the value of the key. -/
def assigned? : List Word → Option (Text × Word)
  | [word] => assignment? word
  | _ => none

/-- The characters of a word before its first parameter or substitution. -/
def fixedLead : Word → Text
  | .bare c :: rest | .quoted c :: rest => c :: fixedLead rest
  | _ => []

/-- The output of the step that a command sets. -/
def setOutput? : List Word → Option Text
  | [name, line] => do
    guard (fixedLead name = "echo")
    let rest ← Text.after? "::set-output name=" (fixedLead line)
    guard ((rest.dropWhile (· ≠ ':')).take 2 = "::")
    some (rest.takeWhile (· ≠ ':'))
  | _ => none

/-- The key of the job `a` is set to a value that refers to the key of the job `b`. -/
def UsesKeyOf (commands : List (List Word)) (a b : Text) : Prop :=
  ∃ command ∈ commands, ∃ value, assigned? command = some (a, value) ∧ b ∈ keyReferences value

theorem parameters_append (v w : Word) : parameters (v ++ w) = parameters v ++ parameters w := by
  induction v with
  | nil => rw [parameters]; rfl
  | cons piece rest ih => rw [List.cons_append, parameters, parameters, ih, List.append_assoc]

theorem parametersOfWords_append (v w : List Word) :
    parametersOfWords (v ++ w) = parametersOfWords v ++ parametersOfWords w := by
  induction v with
  | nil => rw [parametersOfWords]; rfl
  | cons word rest ih =>
    rw [List.cons_append, parametersOfWords, parametersOfWords, ih, List.append_assoc]

/-- A word of characters refers to nothing. -/
theorem parameters_map {f : Char → Piece} (hf : ∀ c, parametersOfPiece (f c) = []) (text : Text) :
    parameters (text.map f) = [] := by
  induction text with
  | nil => rw [List.map_nil, parameters]
  | cons c rest ih => rw [List.map_cons, parameters, hf, ih]; rfl

theorem parameters_quoted (text : Text) : parameters (text.map .quoted) = [] :=
  parameters_map (fun c => by rw [parametersOfPiece]) text

theorem parameters_bare (text : Text) : parameters (text.map .bare) = [] :=
  parameters_map (fun c => by rw [parametersOfPiece]) text

theorem parametersOfWords_map {α : Type} {f : α → Word} {g : α → List Text}
    (h : ∀ a, parameters (f a) = g a) (l : List α) : parametersOfWords (l.map f) = l.flatMap g := by
  induction l with
  | nil => rw [List.map_nil, parametersOfWords, List.flatMap_nil]
  | cons a rest ih => rw [List.map_cons, parametersOfWords, List.flatMap_cons, h, ih]

theorem fixedLead_append {f : Char → Piece} (hf : ∀ c word, fixedLead (f c :: word) = c :: fixedLead word)
    (text : Text) (word : Word) : fixedLead (text.map f ++ word) = text ++ fixedLead word := by
  induction text with
  | nil => rfl
  | cons c rest ih => rw [List.map_cons, List.cons_append, hf, ih]; rfl

end Shell

/-! ## What the words of the script refer to -/

/-- The command that hashes refers to the keys of the needed jobs, in order. -/
theorem parameters_hashCommand (paths needs : List Text) (extraKey : Text) :
    parametersOfWords (hashCommand paths needs extraKey) = needs.map keyVariable := by
  have hpaths : parametersOfWords (paths.map (·.map .quoted)) = [] := by
    rw [parametersOfWords_map (g := fun _ => []) fun path => parameters_quoted path]
    exact List.flatMap_eq_nil_iff.mpr fun _ _ => rfl
  have hneeds : parametersOfWords (needs.map fun need => [.parameter (keyVariable need)])
      = needs.map keyVariable := by
    rw [parametersOfWords_map (g := fun need => [keyVariable need]) fun need => by
      rw [parameters, parametersOfPiece, parameters]; rfl]
    exact List.map_eq_flatMap.symm
  have hextra : parametersOfWords (if extraKey.isEmpty then [] else [extraKey.map .quoted]) = [] := by
    by_cases hempty : extraKey.isEmpty = true
    · rw [if_pos hempty, parametersOfWords]
    · rw [if_neg hempty, parametersOfWords, parameters_quoted, parametersOfWords]
      rfl
  have hdashes : parametersOfWords [("--" : Text).map .bare] = [] := by
    rw [parametersOfWords, parameters_bare, parametersOfWords]
    rfl
  rw [hashCommand, hashArguments, parametersOfWords, parameters_bare, parametersOfWords_append,
    parametersOfWords_append, parametersOfWords_append, hpaths, hneeds, hextra, hdashes]
  simp

/-- The value that the key of a job is set to. -/
def keyValue (a : KeyAssignment) : Word := (a.job ++ "-").map .quoted ++ suffixPieces a.suffix

/-- A random number of two parts, as the suffix of a key. -/
def nonceSuffix : Word := [.parameter "RANDOM", .parameter "RANDOM"]

theorem parameters_keyValue (a : KeyAssignment) :
    parameters (keyValue a) = parameters (suffixPieces a.suffix) := by
  rw [keyValue, parameters_append, parameters_quoted, List.nil_append]

theorem keyReferences_of_parameters {word : Word} {needs : List Text}
    (h : parameters word = needs.map keyVariable) (hneeds : ∀ need ∈ needs, IsName need) :
    keyReferences word = needs ∧ ¬ IsRandom word := by
  have hkey : ∀ need ∈ needs, (keyParameter? ∘ keyVariable) need = some need := by
    intro need hneed
    have helement := element?_keyVariable (hneeds need hneed) []
    rw [List.append_nil] at helement
    rw [Function.comp_apply, keyParameter?, helement]
  constructor
  · rw [keyReferences, h, List.filterMap_map, List.filterMap_congr hkey, List.filterMap_some]
  · rw [IsRandom, h]
    intro hmem
    obtain ⟨need, -, hrandom⟩ := List.mem_map.mp hmem
    have hhead : ('k' : Char) = 'R' := congrArg (fun text => text.headD 'k') hrandom
    revert hhead
    decide

section

variable {graph : JobGraph} {passthrough : List Text}

/-- The assignment of the key of a job of the graph. -/
def JobGraph.assignmentOf (graph : JobGraph) (job : Job) : KeyAssignment :=
  ⟨job.name, KeySuffix.ofJob graph job.name⟩

/-- The key of a forced job is set to its name and a random number. -/
theorem keyValue_of_forced {job : Job} (hforced : graph.isForced job.name = true) :
    keyValue (graph.assignmentOf job) = (job.name ++ "-").map .quoted ++ nonceSuffix ∧
      keyReferences (keyValue (graph.assignmentOf job)) = [] := by
  have hsuffix : (graph.assignmentOf job).suffix = .nonce := KeySuffix.ofJob_of_forced hforced
  refine ⟨by rw [keyValue, hsuffix]; rfl, ?_⟩
  rw [keyReferences, parameters_keyValue, hsuffix]
  decide

/-- The key of another job refers to the keys of the jobs that it needs, and to nothing else. -/
theorem keyValue_of_not_forced (hbuilt : graph.Built passthrough)
    (hnames : (graph.jobs.map Job.name).Nodup) (hplain : graph.IsPlain) {job : Job}
    (hjob : job ∈ graph.jobs) (hforced : graph.isForced job.name = false) :
    keyReferences (keyValue (graph.assignmentOf job)) = (graph.pipelineNeeds job.name).map Job.name ∧
      ¬ IsRandom (keyValue (graph.assignmentOf job)) := by
  refine keyReferences_of_parameters ?_ fun need hneed => ?_
  · rw [parameters_keyValue, JobGraph.assignmentOf,
      KeySuffix.ofJob_of_not_forced hnames hplain hjob hforced, suffixPieces, KeySuffix.wordWith,
      map_textWith, parameters, parametersOfPiece, parameters, parameters_hashCommand, List.append_nil]
  · obtain ⟨other, hother, rfl⟩ := List.mem_map.mp hneed
    exact hplain.names other ((hbuilt.mem_pipelineNeeds hnames hjob).mp hother).1

/-! ## The commands of the script -/

theorem assigned?_assignmentCommands {a : KeyAssignment} (hjob : IsName a.job) :
    (assignmentCommands a).filterMap assigned? = [(a.job, keyValue a)] := by
  have hassignment : assigned? [(keyVariable a.job ++ "=").map .bare ++ keyValue a]
      = some (a.job, keyValue a) := assignment?_eq hjob (bareLead_keyValue a.job _)
  rw [keyValue] at hassignment
  rw [assignmentCommands, keyCommandsOf, List.filterMap_cons_some hassignment, List.filterMap_cons_none rfl,
    List.filterMap_nil, keyValue]

theorem setOutput?_assignmentCommands {a : KeyAssignment} (hjob : IsName a.job) :
    (assignmentCommands a).filterMap setOutput? = [a.job] := by
  have hname : fixedLead (("echo" : Text).map .bare) = "echo" := by decide
  have hline : fixedLead (("::set-output name=" ++ keyStepOutput a.job ++ "::").map .quoted
      ++ [.parameter (keyVariable a.job)]) = "::set-output name=" ++ (a.job ++ "::") := by
    rw [fixedLead_append fun c word => by rw [fixedLead], fixedLead, List.append_nil, List.append_assoc]
    · rfl
    all_goals simp
  have hcolon : ∀ c ∈ a.job, decide (c ≠ ':') = true := by
    intro c hc
    refine decide_eq_true fun h => ?_
    have hchar := hjob.chars c hc
    rw [h] at hchar
    revert hchar
    decide
  have htake : (a.job ++ ("::" : Text)).takeWhile (· ≠ ':') = a.job := by
    rw [List.takeWhile_append_of_pos hcolon]
    exact List.append_nil a.job
  have hdrop : (a.job ++ ("::" : Text)).dropWhile (· ≠ ':') = "::" := by
    rw [List.dropWhile_append_of_pos hcolon]
    rfl
  have houtput : setOutput? [("echo" : Text).map .bare,
      ("::set-output name=" ++ keyStepOutput a.job ++ "::").map .quoted
        ++ [.parameter (keyVariable a.job)]] = some a.job := by
    rw [setOutput?, hname, hline, Text.after?_eq_some.mpr rfl]
    simp only [Option.bind_eq_bind, Option.bind_some, hdrop, htake]
    rfl
  rw [assignmentCommands, keyCommandsOf, List.filterMap_cons_none rfl, List.filterMap_cons_some houtput,
    List.filterMap_nil]

/-- The commands that the key script is read as. -/
def keyCommands (graph : JobGraph) : List (List Word) :=
  declareCommand :: (keyAssignments graph).flatMap assignmentCommands

theorem filterMap_flatMap_singleton {α β γ : Type} {f : β → Option γ} {g : α → List β} {h : α → γ}
    {l : List α} (hl : ∀ a ∈ l, (g a).filterMap f = [h a]) : (l.flatMap g).filterMap f = l.map h := by
  induction l with
  | nil => rfl
  | cons a rest ih =>
    rw [List.flatMap_cons, List.filterMap_append, hl a List.mem_cons_self,
      ih fun b hb => hl b (List.mem_cons_of_mem _ hb)]
    rfl

variable (hbuilt : graph.Built passthrough) (hplain : graph.IsPlain)

include hbuilt hplain

theorem isName_of_mem_topological {job : Job} (hjob : job ∈ graph.topological) : IsName job.name :=
  hplain.names job (hbuilt.mem_topological.mp hjob)

/-- The script sets the key of each job once, in the order of the graph. -/
theorem filterMap_assigned? : (keyCommands graph).filterMap assigned?
    = graph.topological.map fun job => (job.name, keyValue (graph.assignmentOf job)) := by
  rw [keyCommands, List.filterMap_cons_none rfl, keyAssignments, List.flatMap_map]
  exact filterMap_flatMap_singleton fun job hjob =>
    assigned?_assignmentCommands (a := graph.assignmentOf job)
      (isName_of_mem_topological hbuilt hplain hjob)

/-- The script makes each key an output once, in the order of the graph. -/
theorem filterMap_setOutput? :
    (keyCommands graph).filterMap setOutput? = graph.topological.map Job.name := by
  rw [keyCommands, List.filterMap_cons_none rfl, keyAssignments, List.flatMap_map]
  exact filterMap_flatMap_singleton fun job hjob =>
    setOutput?_assignmentCommands (a := graph.assignmentOf job)
      (isName_of_mem_topological hbuilt hplain hjob)

/-- A command that sets a key belongs to a job, and the commands before it set the keys of the jobs
before this one. -/
theorem exists_job_of_assigned? {before after : List (List Word)} {command : List Word} {name : Text}
    {value : Word} (hsplit : keyCommands graph = before ++ command :: after)
    (h : assigned? command = some (name, value)) :
    ∃ done job rest, graph.topological = done ++ job :: rest ∧ job.name = name ∧
      keyValue (graph.assignmentOf job) = value ∧
      ∀ d ∈ done, ∃ earlier ∈ before, ∃ v, assigned? earlier = some (d.name, v) := by
  have hall := filterMap_assigned? hbuilt hplain
  rw [hsplit, List.filterMap_append, List.filterMap_cons_some h] at hall
  obtain ⟨done, tail, htopological, hdone, htail⟩ := List.map_eq_append_iff.mp hall.symm
  obtain ⟨job, rest, rfl, hjob, -⟩ := List.map_eq_cons_iff.mp htail
  cases hjob
  refine ⟨done, job, rest, htopological, rfl, rfl, fun d hd => ?_⟩
  have hmem : (d.name, keyValue (graph.assignmentOf d)) ∈ before.filterMap assigned? :=
    hdone ▸ List.mem_map_of_mem hd
  obtain ⟨earlier, hearlier, heq⟩ := List.mem_filterMap.mp hmem
  exact ⟨earlier, hearlier, _, heq⟩

variable (hnames : (graph.jobs.map Job.name).Nodup)

include hnames

/-- The value that is set for a job of the graph. -/
theorem keyValue_eq_of_assigned? {job : Job} (hjob : job ∈ graph.jobs) {command : List Word}
    (hcommand : command ∈ keyCommands graph) {value : Word}
    (h : assigned? command = some (job.name, value)) : value = keyValue (graph.assignmentOf job) := by
  obtain ⟨before, after, hsplit⟩ := List.append_of_mem hcommand
  obtain ⟨done, other, rest, htopological, hname, rfl, -⟩ :=
    exists_job_of_assigned? hbuilt hplain hsplit h
  have hother : other ∈ graph.jobs :=
    hbuilt.mem_topological.mp (htopological ▸ List.mem_append_right _ List.mem_cons_self)
  rw [List.inj_on_of_nodup_map hnames hother hjob hname]

/-- References from a key that is not random only lead to keys that are not. -/
theorem not_forced_of_usesKeyOf {job : Job} (hjob : job ∈ graph.jobs)
    (hforced : graph.isForced job.name = false) {other : Text}
    (h : ReflTransGen (UsesKeyOf (keyCommands graph)) job.name other) :
    ∃ target ∈ graph.jobs, target.name = other ∧ graph.isForced target.name = false := by
  induction h with
  | refl => exact ⟨job, hjob, rfl, hforced⟩
  | tail _ hstep ih =>
    obtain ⟨source, hsource, rfl, hnot⟩ := ih
    obtain ⟨command, hcommand, value, hassigned, hmem⟩ := hstep
    obtain rfl := keyValue_eq_of_assigned? hbuilt hplain hnames hsource hcommand hassigned
    rw [(keyValue_of_not_forced hbuilt hnames hplain hsource hnot).1] at hmem
    obtain ⟨need, hneed, rfl⟩ := List.mem_map.mp hmem
    exact ⟨need, ((hbuilt.mem_pipelineNeeds hnames hsource).mp hneed).1, rfl,
      isForced_eq_false_of_mem_pipelineNeeds hbuilt hnames hsource hnot hneed⟩

omit hplain in
/-- Two runs over one tree compute the same key for a job that is not forced, whatever numbers are
drawn. -/
theorem keyOf_eq_of_runs {objectId hash : Text → Text} {random₁ random₂ : Nat → Text} {s₁ s₂ : State}
    (h₁ : ∀ job ∈ graph.jobs, Keyed graph ⟨objectId, hash, random₁⟩ s₁ job)
    (h₂ : ∀ job ∈ graph.jobs, Keyed graph ⟨objectId, hash, random₂⟩ s₂ job) :
    ∀ job ∈ graph.jobs, graph.isForced job.name = false → s₁.keyOf job.name = s₂.keyOf job.name := by
  refine hbuilt.induction_on_needs hnames fun job hjob ih hforced => ?_
  have hneeds : ∀ need ∈ graph.pipelineNeeds job.name, s₁.keyOf need.name = s₂.keyOf need.name :=
    fun need hneed =>
      ih need hneed (isForced_eq_false_of_mem_pipelineNeeds hbuilt hnames hjob hforced hneed)
  have htext : hashedText graph ⟨objectId, hash, random₁⟩ s₁ job
      = hashedText graph ⟨objectId, hash, random₂⟩ s₂ job := hashedText_congr rfl hneeds
  rw [((h₁ job hjob).hashed hforced).2, ((h₂ job hjob).hashed hforced).2, htext]

end

/-! ## Containment -/

/-- The key script defines before it uses, and keeps random numbers where they are. Every job has one
command that sets its key and one that makes it an output, and there are no others. The key of a
forced job is random and refers to no key; the key of another job refers to the keys of its needs, in
their order and after they have been set. So no reference leads from the key of a job that is not
forced to a random one, and two runs over one tree give such a job one key. -/
theorem keyScript_contains_nonces {jobs : List Job} {passthrough : List Text} {graph : JobGraph}
    (hgraph : JobGraph.ofJobs jobs passthrough = .ok graph) (hnames : (jobs.map Job.name).Nodup)
    (hvalid : ∀ job ∈ jobs, validateJobId job.name = .ok ())
    (hpaths : ∀ job ∈ jobs, ∀ path ∈ job.settings.paths, Template.hasOpening path = false) :
    ∃ commands, readKeyScript (keyScript graph) = some commands ∧
      ((commands.filterMap assigned?).map Prod.fst).Perm (jobs.map Job.name) ∧
      (commands.filterMap setOutput?).Perm (jobs.map Job.name) ∧
      (∀ before command after, commands = before ++ command :: after →
        ∀ job ∈ jobs, ∀ value, assigned? command = some (job.name, value) →
          (graph.isForced job.name = true ↔
            value = (job.name ++ "-").map .quoted ++ nonceSuffix) ∧
          (graph.isForced job.name = true → keyReferences value = []) ∧
          (graph.isForced job.name = false →
            keyReferences value = job.settings.needs.filter (· ∈ jobs.map Job.name) ∧
            ∀ need ∈ keyReferences value,
              ∃ earlier ∈ before, ∃ v, assigned? earlier = some (need, v))) ∧
      (∀ job ∈ jobs, graph.isForced job.name = false →
        ∀ other, ReflTransGen (UsesKeyOf commands) job.name other →
          ∀ command ∈ commands, ∀ value, assigned? command = some (other, value) → ¬ IsRandom value) ∧
      ∀ (objectId hash : Text → Text) (random₁ random₂ : Nat → Text),
        ∃ s₁ s₂, runKeyScript ⟨objectId, hash, random₁⟩ (keyScript graph) = some s₁ ∧
          runKeyScript ⟨objectId, hash, random₂⟩ (keyScript graph) = some s₂ ∧
          ∀ job ∈ jobs, graph.isForced job.name = false →
            ∃ key, HasKey s₁ job.name key ∧ HasKey s₂ job.name key := by
  obtain ⟨rfl, hbuilt⟩ := JobGraph.built_of_ofJobs hgraph
  have hplain : graph.IsPlain := ⟨fun job hjob => validateJobId_eq_ok (hvalid job hjob), hpaths⟩
  have hperm : (graph.topological.map Job.name).Perm (graph.jobs.map Job.name) :=
    (hbuilt.perm_topological hnames).map Job.name
  refine ⟨keyCommands graph, readKeyScript_keyScript hbuilt hnames hplain, ?_, ?_, ?_, ?_, ?_⟩
  · rw [filterMap_assigned? hbuilt hplain, List.map_map]
    exact hperm
  · rw [filterMap_setOutput? hbuilt hplain]
    exact hperm
  · intro before command after hsplit job hjob value hassigned
    obtain ⟨done, other, rest, htopological, hname, rfl, hearlier⟩ :=
      exists_job_of_assigned? hbuilt hplain hsplit hassigned
    have hother : other ∈ graph.jobs :=
      hbuilt.mem_topological.mp (htopological ▸ List.mem_append_right _ List.mem_cons_self)
    obtain rfl := List.inj_on_of_nodup_map hnames hother hjob hname
    cases hforced : graph.isForced other.name with
    | true =>
      obtain ⟨hvalue, hnone⟩ := keyValue_of_forced hforced
      exact ⟨iff_of_true rfl hvalue, fun _ => hnone, fun h => nomatch h⟩
    | false =>
      obtain ⟨hrefs, hrandom⟩ := keyValue_of_not_forced hbuilt hnames hplain hother hforced
      refine ⟨iff_of_false (by simp) fun hvalue => hrandom ?_, (nomatch ·), fun _ => ⟨?_, ?_⟩⟩
      · rw [hvalue, IsRandom, parameters_append, parameters_quoted]
        decide
      · rw [hrefs, hbuilt.map_pipelineNeeds hnames hother]
      · intro need hneed
        rw [hrefs] at hneed
        obtain ⟨d, hd, rfl⟩ := List.mem_map.mp hneed
        exact hearlier d (hbuilt.needs_before hnames htopological d hd)
  · intro job hjob hforced other hreach command hcommand value hassigned
    obtain ⟨target, htarget, rfl, hnot⟩ :=
      not_forced_of_usesKeyOf hbuilt hplain hnames hjob hforced hreach
    obtain rfl := keyValue_eq_of_assigned? hbuilt hplain hnames htarget hcommand hassigned
    exact (keyValue_of_not_forced hbuilt hnames hplain htarget hnot).2
  · intro objectId hash random₁ random₂
    obtain ⟨s₁, hrun₁, h₁⟩ := exists_run_keys hbuilt hnames hplain ⟨objectId, hash, random₁⟩
    obtain ⟨s₂, hrun₂, h₂⟩ := exists_run_keys hbuilt hnames hplain ⟨objectId, hash, random₂⟩
    refine ⟨s₁, s₂, hrun₁, hrun₂, fun job hjob hforced => ?_⟩
    have hkey := keyOf_eq_of_runs hbuilt hnames h₁ h₂ job hjob hforced
    refine ⟨s₁.keyOf job.name, ⟨rfl, (h₁ job hjob).printed⟩, hkey.symm, ?_⟩
    rw [hkey]
    exact (h₂ job hjob).printed

/-- A job that is forced, a job that needs it, and two jobs beside them. -/
def nightlyJobs : List Job :=
  [⟨"stamp", { force := true }⟩, ⟨"publish", { needs := ["stamp", "build"] }⟩,
    ⟨"test", { paths := ["tests"], needs := ["build"] }⟩, ⟨"build", { paths := ["src"] }⟩]

theorem keyScript_contains_nonces_nightlyJobs :
    ∃ graph, JobGraph.ofJobs nightlyJobs [] = .ok graph ∧ graph.isForced "publish" = true ∧
      ∀ random₁ random₂ : Nat → Text,
        ∃ s₁ s₂ key, runKeyScript ⟨id, id, random₁⟩ (keyScript graph) = some s₁ ∧
          runKeyScript ⟨id, id, random₂⟩ (keyScript graph) = some s₂ ∧
          HasKey s₁ "test" key ∧ HasKey s₂ "test" key := by
  let graph : JobGraph := ⟨nightlyJobs, [[], [0, 3], [3], []], [0, 3, 1, 2], [1, 0]⟩
  have hgraph : JobGraph.ofJobs nightlyJobs [] = .ok graph := by decide +kernel
  obtain ⟨commands, -, -, -, -, -, hruns⟩ := keyScript_contains_nonces hgraph (by decide)
    (by decide +kernel) (by decide +kernel)
  refine ⟨graph, hgraph, by decide +kernel, fun random₁ random₂ => ?_⟩
  obtain ⟨s₁, s₂, hrun₁, hrun₂, hkeys⟩ := hruns id id random₁ random₂
  obtain ⟨key, h₁, h₂⟩ := hkeys ⟨"test", { paths := ["tests"], needs := ["build"] }⟩ (by decide)
    (by decide +kernel)
  exact ⟨s₁, s₂, key, hrun₁, hrun₂, h₁, h₂⟩

end CachedWorkflow
