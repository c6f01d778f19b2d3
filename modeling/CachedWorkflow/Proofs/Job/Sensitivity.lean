import CachedWorkflow.Proofs.Job.KeyRun
import Mathlib.Logic.Relation

/-!
# Proofs: cache keys depend on everything upstream

The run of a key script gives every job its key. What is hashed for a key has no separators
(`hashedText_eq`), but all of its parts have fixed lengths, so equal keys come from equal objects and equal
keys of the needed jobs (`equal_parts`). Along the needs the objects of all jobs upstream are equal.
-/

namespace CachedWorkflow

open Shell

/-- The text that is hashed for the key of a job: the identifiers of its objects, the keys of the jobs
that it needs, and its extra key. -/
def keyInput (graph : JobGraph) (m : Machine) (s : State) (job : Job) : Text :=
  job.normalPaths.flatMap m.objectId
    ++ ((graph.pipelineNeeds job.name).map fun need => s.keyOf need.name).flatten
    ++ job.settings.extraKey

variable {graph : JobGraph} {passthrough : List Text} {m : Machine} {s : State}

/-- Where no path is two dashes, the paths are those before the two dashes. -/
theorem hashedText_eq {job : Job} (hdashes : ∀ path ∈ job.normalPaths, path ≠ "--") :
    hashedText graph m s job = keyInput graph m s job := by
  have hpaths : ∀ path ∈ job.normalPaths, path ≠ "--" ∧ path ≠ [] := by
    intro path hpath
    refine ⟨hdashes path hpath, ?_⟩
    obtain ⟨declared, -, rfl⟩ := List.mem_map.mp hpath
    exact Path.normalize_ne_nil declared
  have hflatten : (if job.settings.extraKey.isEmpty then [] else [job.settings.extraKey]).flatten
      = job.settings.extraKey := by
    cases job.settings.extraKey <;> simp
  rw [hashedText, keyWords, hashInput_eq hpaths, List.flatten_append, hflatten, List.map_map, keyInput,
    List.append_assoc]
  rfl

/-! ## Equal keys -/

/-- Parts whose lengths are known are read off their concatenation. -/
theorem eq_of_flatMap_eq {α : Type} {f g : α → Text} {l : List α}
    (hlength : ∀ a ∈ l, (f a).length = (g a).length) (h : l.flatMap f = l.flatMap g) :
    ∀ a ∈ l, f a = g a := by
  induction l with
  | nil => exact fun a ha => nomatch ha
  | cons b rest ih =>
    rw [List.flatMap_cons, List.flatMap_cons] at h
    obtain ⟨hb, hrest⟩ := List.append_inj h (hlength b List.mem_cons_self)
    intro a ha
    rcases List.mem_cons.mp ha with rfl | ha
    · exact hb
    · exact ih (fun c hc => hlength c (List.mem_cons_of_mem _ hc)) hrest a ha

theorem length_flatMap_eq {α : Type} {f g : α → Text} {l : List α}
    (hlength : ∀ a ∈ l, (f a).length = (g a).length) :
    (l.flatMap f).length = (l.flatMap g).length := by
  rw [List.length_flatMap, List.length_flatMap, List.map_congr_left hlength]

/-- The length of a key that is a hash only depends on the name of the job. -/
theorem Keyed.length_keyOf {job : Job} (h : Keyed graph m s job)
    (hforced : graph.isForced job.name = false) {hashLength : Nat}
    (hhash : ∀ text, (m.hash text).length = hashLength) :
    (s.keyOf job.name).length = job.name.length + 1 + hashLength := by
  obtain ⟨-, hkey⟩ := h.hashed hforced
  rw [hkey, List.length_append, List.length_append, hhash]
  rfl

section

variable {objects₁ objects₂ hash : Text → Text} {random₁ random₂ : Nat → Text} {s₁ s₂ : State}
  {idLength hashLength : Nat}

/-- Two runs that give a job the same key have hashed the same parts: the objects of the job, and the
keys of the jobs that it needs. -/
theorem equal_parts (hbuilt : graph.Built passthrough) (hnames : (graph.jobs.map Job.name).Nodup)
    (hid₁ : ∀ path, (objects₁ path).length = idLength)
    (hid₂ : ∀ path, (objects₂ path).length = idLength)
    (hhash : ∀ text, (hash text).length = hashLength)
    (hdashes : ∀ job ∈ graph.jobs, ∀ path ∈ job.normalPaths, path ≠ "--")
    (h₁ : ∀ job ∈ graph.jobs, Keyed graph ⟨objects₁, hash, random₁⟩ s₁ job)
    (h₂ : ∀ job ∈ graph.jobs, Keyed graph ⟨objects₂, hash, random₂⟩ s₂ job)
    (hinjective : ∀ a ∈ s₁.hashed, ∀ b ∈ s₂.hashed, hash a = hash b → a = b)
    {job : Job} (hjob : job ∈ graph.jobs) (hforced : graph.isForced job.name = false)
    (hkey : s₁.keyOf job.name = s₂.keyOf job.name) :
    (∀ path ∈ job.normalPaths, objects₁ path = objects₂ path) ∧
      ∀ need ∈ graph.pipelineNeeds job.name, s₁.keyOf need.name = s₂.keyOf need.name := by
  obtain ⟨hmem₁, hkey₁⟩ := (h₁ job hjob).hashed hforced
  obtain ⟨hmem₂, hkey₂⟩ := (h₂ job hjob).hashed hforced
  rw [hkey₁, hkey₂] at hkey
  have hinputs := hinjective _ hmem₁ _ hmem₂ (List.append_cancel_left hkey)
  rw [hashedText_eq (hdashes job hjob), hashedText_eq (hdashes job hjob)] at hinputs
  have hobjects : ∀ path ∈ job.normalPaths, (objects₁ path).length = (objects₂ path).length :=
    fun path _ => by rw [hid₁, hid₂]
  have hkeys : ∀ need ∈ graph.pipelineNeeds job.name,
      (s₁.keyOf need.name).length = (s₂.keyOf need.name).length := by
    intro need hneed
    have hmem := ((hbuilt.mem_pipelineNeeds hnames hjob).mp hneed).1
    have hnot := isForced_eq_false_of_mem_pipelineNeeds hbuilt hnames hjob hforced hneed
    rw [(h₁ need hmem).length_keyOf hnot hhash, (h₂ need hmem).length_keyOf hnot hhash]
  unfold keyInput at hinputs
  obtain ⟨hfront, -⟩ := List.append_inj hinputs (by
    rw [List.length_append, List.length_append, length_flatMap_eq hobjects, ← List.flatMap_def,
      ← List.flatMap_def, length_flatMap_eq hkeys])
  obtain ⟨hleft, hright⟩ := List.append_inj hfront (length_flatMap_eq hobjects)
  rw [← List.flatMap_def, ← List.flatMap_def] at hright
  exact ⟨eq_of_flatMap_eq hobjects hleft, eq_of_flatMap_eq hkeys hright⟩

/-- The same holds of the jobs upstream, by induction on the needs that lead to them. -/
theorem equal_upstream (hbuilt : graph.Built passthrough) (hnames : (graph.jobs.map Job.name).Nodup)
    (hid₁ : ∀ path, (objects₁ path).length = idLength)
    (hid₂ : ∀ path, (objects₂ path).length = idLength)
    (hhash : ∀ text, (hash text).length = hashLength)
    (hdashes : ∀ job ∈ graph.jobs, ∀ path ∈ job.normalPaths, path ≠ "--")
    (h₁ : ∀ job ∈ graph.jobs, Keyed graph ⟨objects₁, hash, random₁⟩ s₁ job)
    (h₂ : ∀ job ∈ graph.jobs, Keyed graph ⟨objects₂, hash, random₂⟩ s₂ job)
    (hinjective : ∀ a ∈ s₁.hashed, ∀ b ∈ s₂.hashed, hash a = hash b → a = b)
    {job other : Job} (hreach : Relation.ReflTransGen (fun a b => b ∈ graph.pipelineNeeds a.name) job other)
    (hjob : job ∈ graph.jobs) (hforced : graph.isForced job.name = false)
    (hkey : s₁.keyOf job.name = s₂.keyOf job.name) :
    ∀ path ∈ other.normalPaths, objects₁ path = objects₂ path := by
  have hother : other ∈ graph.jobs ∧ graph.isForced other.name = false ∧
      s₁.keyOf other.name = s₂.keyOf other.name := by
    induction hreach with
    | refl => exact ⟨hjob, hforced, hkey⟩
    | @tail a b _ hneed ih =>
      obtain ⟨hmem, hnot, heq⟩ := ih
      refine ⟨((hbuilt.mem_pipelineNeeds hnames hmem).mp hneed).1,
        isForced_eq_false_of_mem_pipelineNeeds hbuilt hnames hmem hnot hneed, ?_⟩
      exact (equal_parts hbuilt hnames hid₁ hid₂ hhash hdashes h₁ h₂ hinjective hmem hnot heq).2 b hneed
  obtain ⟨hmem, hnot, heq⟩ := hother
  exact (equal_parts hbuilt hnames hid₁ hid₂ hhash hdashes h₁ h₂ hinjective hmem hnot heq).1

end

/-! ## Sensitivity -/

/-- Keys are sensitive to everything upstream: when the script is run on two trees, and the hash does
not collide on what is hashed in the two runs, a job that is not forced only has the same key on both
if the trees agree on the declared paths of the job and of all jobs that it needs, directly or through
others. The key script runs to its end on every tree. -/
theorem objects_eq_of_keys_eq {jobs : List Job} (hgraph : JobGraph.ofJobs jobs passthrough = .ok graph)
    (hnames : (graph.jobs.map Job.name).Nodup)
    (hvalid : ∀ job ∈ graph.jobs, validateJobId job.name = .ok ())
    (hpaths : ∀ job ∈ graph.jobs, ∀ path ∈ job.settings.paths,
      Template.hasOpening path = false ∧ Path.normalize path ≠ "--")
    {objects₁ objects₂ hash : Text → Text} (random₁ random₂ : Nat → Text) {idLength hashLength : Nat}
    (hid₁ : ∀ path, (objects₁ path).length = idLength)
    (hid₂ : ∀ path, (objects₂ path).length = idLength)
    (hhash : ∀ text, (hash text).length = hashLength) :
    ∃ s₁ s₂, runKeyScript ⟨objects₁, hash, random₁⟩ (keyScript graph) = some s₁ ∧
      runKeyScript ⟨objects₂, hash, random₂⟩ (keyScript graph) = some s₂ ∧
      ((∀ a ∈ s₁.hashed, ∀ b ∈ s₂.hashed, hash a = hash b → a = b) →
        ∀ job ∈ graph.jobs, graph.isForced job.name = false →
          ∃ key₁ key₂, HasKey s₁ job.name key₁ ∧ HasKey s₂ job.name key₂ ∧ (key₁ = key₂ →
            ∀ other, Relation.ReflTransGen (fun a b => b ∈ graph.pipelineNeeds a.name) job other →
              ∀ path ∈ other.settings.paths,
                objects₁ (Path.normalize path) = objects₂ (Path.normalize path))) := by
  obtain ⟨-, hbuilt⟩ := JobGraph.built_of_ofJobs hgraph
  have hplain : graph.IsPlain := ⟨fun job hjob => validateJobId_eq_ok (hvalid job hjob),
    fun job hjob path hpath => (hpaths job hjob path hpath).1⟩
  have hdashes : ∀ job ∈ graph.jobs, ∀ path ∈ job.normalPaths, path ≠ "--" := by
    intro job hjob path hpath
    obtain ⟨declared, hdeclared, rfl⟩ := List.mem_map.mp hpath
    exact (hpaths job hjob declared hdeclared).2
  obtain ⟨s₁, hrun₁, h₁⟩ := exists_run_keys hbuilt hnames hplain ⟨objects₁, hash, random₁⟩
  obtain ⟨s₂, hrun₂, h₂⟩ := exists_run_keys hbuilt hnames hplain ⟨objects₂, hash, random₂⟩
  refine ⟨s₁, s₂, hrun₁, hrun₂, fun hinjective job hjob hforced => ?_⟩
  refine ⟨_, _, ⟨rfl, (h₁ job hjob).printed⟩, ⟨rfl, (h₂ job hjob).printed⟩, ?_⟩
  intro hkey other hreach path hpath
  have hobjects := equal_upstream hbuilt hnames hid₁ hid₂ hhash hdashes h₁ h₂ hinjective hreach hjob hforced hkey
  exact hobjects (Path.normalize path) (List.mem_map_of_mem hpath)

/-- A graph of two jobs, of which one needs the other. -/
def buildAndTest : JobGraph where
  jobs := [⟨"build", { paths := ["src/"] }⟩,
    ⟨"test", { paths := ["tests"], extraKey := "v2", needs := ["build"] }⟩]
  dependencies := [[], [0]]
  order := [0, 1]
  forced := []

/-- A tree whose sources have the given identifier. -/
def treeWith (sources path : Text) : Text := if path = "src" then sources else "0000"

/-- A hash of 40 characters that does not collide on texts that differ in one of their first 40. -/
def digest (text : Text) : Text := (text ++ List.replicate 40 '.').take 40

theorem objects_eq_of_keys_eq_buildAndTest : ∃ s₁ s₂ key₁ key₂,
    runKeyScript ⟨treeWith "1111", digest, Text.ofNat⟩ (keyScript buildAndTest) = some s₁ ∧
      runKeyScript ⟨treeWith "2222", digest, Text.ofNat⟩ (keyScript buildAndTest) = some s₂ ∧
      HasKey s₁ "test" key₁ ∧ HasKey s₂ "test" key₂ ∧ key₁ ≠ key₂ := by
  have hlength : ∀ sources : Text, sources.length = 4 → ∀ path, (treeWith sources path).length = 4 := by
    intro sources hsources path
    unfold treeWith
    by_cases hpath : path = "src"
    · rw [if_pos hpath, hsources]
    · rw [if_neg hpath]
      rfl
  have hdigest : ∀ text, (digest text).length = 40 := by
    intro text
    unfold digest
    rw [List.length_take, List.length_append, List.length_replicate]
    omega
  have hgraph : JobGraph.ofJobs buildAndTest.jobs [] = .ok buildAndTest := by decide +kernel
  have hnames : (buildAndTest.jobs.map Job.name).Nodup := by decide
  have hvalid : ∀ job ∈ buildAndTest.jobs, validateJobId job.name = .ok () := by decide +kernel
  have hpaths : ∀ job ∈ buildAndTest.jobs, ∀ path ∈ job.settings.paths,
      Template.hasOpening path = false ∧ Path.normalize path ≠ "--" := by decide +kernel
  obtain ⟨s₁, s₂, hrun₁, hrun₂, hkeys⟩ := objects_eq_of_keys_eq hgraph hnames hvalid hpaths
    Text.ofNat Text.ofNat (hlength "1111" rfl) (hlength "2222" rfl) hdigest
  -- what is hashed in the two runs differs where the hash looks
  have hplain : buildAndTest.IsPlain := ⟨fun job hjob => validateJobId_eq_ok (hvalid job hjob),
    fun job hjob path hpath => (hpaths job hjob path hpath).1⟩
  have hread := runKeyScript_keyScript (JobGraph.built_of_ofJobs hgraph).2 hnames hplain
  have hhashed : (((declareCommand :: (keyAssignments buildAndTest).flatMap assignmentCommands).foldlM
      (runCommand ⟨treeWith "1111", digest, Text.ofNat⟩) {}).all fun s₁ =>
        ((declareCommand :: (keyAssignments buildAndTest).flatMap assignmentCommands).foldlM
          (runCommand ⟨treeWith "2222", digest, Text.ofNat⟩) {}).all fun s₂ =>
            decide (∀ a ∈ s₁.hashed, ∀ b ∈ s₂.hashed, digest a = digest b → a = b)) = true := by
    decide +kernel
  rw [← hread, ← hread, hrun₁, hrun₂, Option.all_some, Option.all_some] at hhashed
  obtain ⟨key₁, key₂, hkey₁, hkey₂, hequal⟩ := hkeys (of_decide_eq_true hhashed)
    ⟨"test", { paths := ["tests"], extraKey := "v2", needs := ["build"] }⟩ (by decide)
    (by decide +kernel)
  refine ⟨s₁, s₂, key₁, key₂, hrun₁, hrun₂, hkey₁, hkey₂, fun heq => ?_⟩
  have hsources := hequal heq ⟨"build", { paths := ["src/"] }⟩ (.single (by decide +kernel)) "src/"
    (by decide)
  revert hsources
  decide +kernel

end CachedWorkflow
