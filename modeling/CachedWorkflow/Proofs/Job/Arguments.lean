import CachedWorkflow.Proofs.Job.KeyRun

/-!
# Proofs: what the hash function gets

Behind the name of the hash function the key script has its arguments, quoted. The shell reads them up to the
parenthesis that was put behind them, whatever stands in the paths and in the extra key, and gets them back
character by character (`keyScript_passes_arguments`).
-/

namespace CachedWorkflow

open Shell

variable {graph : JobGraph} {passthrough : List Text} {name : Text} {settings : JobSettings}

/-- The script assigns the key of a job. -/
theorem exists_keyScript_eq (hbuilt : graph.Built passthrough) (hsettings : graph.get? name = some settings) :
    ∃ before after, keyScript graph = before ++ (keyVariable name ++ "=\"" ++ name ++ "-")
      ++ (KeySuffix.ofJob graph name).toText ++ ("\"\n" ++ after) := by
  obtain ⟨i, job, -, hi, rfl, -⟩ := JobGraph.Built.exists_owner_of_get? hsettings
  have hjob : job ∈ graph.topological := hbuilt.mem_topological.mpr (List.mem_of_getElem? hi)
  have hmem : KeyAssignment.mk job.name (.ofJob graph job.name) ∈ keyAssignments graph :=
    List.mem_map_of_mem hjob
  obtain ⟨front, back, hsplit⟩ := List.append_of_mem hmem
  refine ⟨hashFunction ++ "declare -A keys\n" ++ front.flatMap KeyAssignment.toText,
    "echo \"::set-output name=" ++ keyStepOutput job.name ++ "::" ++ keyReference job.name ++ "\"\n"
      ++ back.flatMap KeyAssignment.toText, ?_⟩
  rw [keyScript, hsplit, List.flatMap_append, List.flatMap_cons, KeyAssignment.toText]
  simp only [List.append_assoc]

/-- The arguments of the hash function, as they stand in the script. -/
def argumentsText (paths needs : List Text) (extraKey : Text) : Text :=
  ' ' :: List.intercalate " " (KeySuffix.hashWords (paths.map fun path => [.fixed path]) needs extraKey)

theorem toText_hash (paths needs : List Text) (extraKey : Text) :
    (KeySuffix.hash (paths.map fun path => [.fixed path]) needs extraKey).toText
      = "$(git_hash_files" ++ argumentsText paths needs extraKey ++ ")" := by
  have hblank : ("$(git_hash_files " : Text) = "$(git_hash_files" ++ [' '] := rfl
  rw [argumentsText, ← List.singleton_append, ← List.append_assoc "$(git_hash_files".toList, ← hblank]
  rfl

/-- The key script passes paths and extra keys to the hash function as they are. Where a job is not forced,
the text behind the name of the function is read up to the parenthesis that was put behind the arguments, as
these words: the normal forms of the paths in order, two dashes, the keys of the needed jobs in order, and the
extra key unless it is empty. No character of a path or of the extra key has a meaning to the shell, so the
words stand for themselves. -/
theorem keyScript_passes_arguments {jobs : List Job} (hgraph : JobGraph.ofJobs jobs passthrough = .ok graph)
    (hvalid : ∀ job ∈ jobs, validateJobId job.name = .ok ()) (hsettings : graph.get? name = some settings)
    (hforced : graph.isForced name = false)
    (hpaths : ∀ path ∈ settings.paths, Template.hasOpening path = false) :
    let paths := settings.paths.map Path.normalize
    let needs := settings.needs.filter (· ∈ jobs.map Job.name)
    ∃ before arguments after,
      keyScript graph = before ++ (keyVariable name ++ "=\"" ++ name ++ "-$(git_hash_files")
        ++ (arguments ++ ')' :: ("\"\n" ++ after)) ∧
      (KeySuffix.ofJob graph name).toText = "$(git_hash_files" ++ arguments ++ ")" ∧
      readArguments {} (arguments ++ ')' :: ("\"\n" ++ after))
        = some (hashArguments paths needs settings.extraKey, "\"\n" ++ after) ∧
      ∀ (m : Machine) (s : State), s.keys.isSome →
        evalWords m s (hashArguments paths needs settings.extraKey) = some (paths ++ [("--" : Text)]
          ++ (needs.map s.keyOf ++ if settings.extraKey.isEmpty then [] else [settings.extraKey]), s) := by
  intro paths needs
  obtain ⟨rfl, hbuilt⟩ := JobGraph.built_of_ofJobs hgraph
  have hneeds : (graph.pipelineNeeds name).map Job.name = needs := hbuilt.names_pipelineNeeds hsettings
  have hnames : ∀ need ∈ needs, IsName need := by
    intro need hneed
    obtain ⟨job, hjob, rfl⟩ := List.mem_map.mp (of_decide_eq_true (List.mem_filter.mp hneed).2)
    exact validateJobId_eq_ok (hvalid job hjob)
  have hsuffix := KeySuffix.ofJob_of_plain hsettings hforced hpaths
  rw [hneeds] at hsuffix
  have htext := toText_hash paths needs settings.extraKey
  rw [← hsuffix] at htext
  have hread := (readsWords_hashArguments paths settings.extraKey hnames).readArguments
  obtain ⟨before, after, hscript⟩ := exists_keyScript_eq hbuilt hsettings
  refine ⟨before, argumentsText paths needs settings.extraKey, after, ?_, htext, hread _,
    fun m s hdeclared => ?_⟩
  · have hlead : ("-$(git_hash_files" : Text) = "-" ++ "$(git_hash_files" := rfl
    have hclose : ∀ text : Text, ')' :: text = ")" ++ text := fun text => rfl
    rw [hscript, htext, hlead, hclose]
    simp only [List.append_assoc]
  · obtain ⟨keys, hkeys⟩ := Option.isSome_iff_exists.mp hdeclared
    exact evalWords_hashArguments hkeys paths needs settings.extraKey hnames

/-- Two jobs whose paths and extra keys have characters that mean something to the shell. -/
def awkwardJobs : List Job :=
  [⟨"build", { paths := ["it's)/./a b"], extraKey := "$(rm)\n" }⟩,
    ⟨"test", { paths := ["(\"y\n\")/", "it's)"], needs := ["build"], extraKey := "')" }⟩]

theorem keyScript_passes_arguments_awkwardJobs :
    ∃ graph, JobGraph.ofJobs awkwardJobs [] = .ok graph ∧ graph.isForced "test" = false ∧
      ∃ before arguments after, keyScript graph
          = before ++ (keyVariable "test" ++ "=\"" ++ "test" ++ "-$(git_hash_files")
            ++ (arguments ++ ')' :: ("\"\n" ++ after)) ∧
        readArguments {} (arguments ++ ')' :: ("\"\n" ++ after))
          = some (hashArguments ["(\"y\n\")", "it's)"] ["build"] "')", "\"\n" ++ after) := by
  let graph : JobGraph := ⟨awkwardJobs, [[], [0]], [0, 1], []⟩
  have hgraph : JobGraph.ofJobs awkwardJobs [] = .ok graph := by decide +kernel
  have hforced : graph.isForced "test" = false := by decide +kernel
  have hsettings : graph.get? "test" = some
      { paths := ["(\"y\n\")/", "it's)"], needs := ["build"], extraKey := "')" } := by decide +kernel
  obtain ⟨before, arguments, after, hscript, -, hread, -⟩ := keyScript_passes_arguments hgraph
    (by decide +kernel) hsettings hforced (by decide)
  have hpaths : (["(\"y\n\")/", "it's)"] : List Text).map Path.normalize = ["(\"y\n\")", "it's)"] := by
    decide +kernel
  have hneeds : (["build"] : List Text).filter (· ∈ awkwardJobs.map Job.name) = ["build"] := by
    decide +kernel
  rw [hpaths, hneeds] at hread
  exact ⟨graph, hgraph, hforced, before, arguments, after, hscript, hread⟩

end CachedWorkflow
