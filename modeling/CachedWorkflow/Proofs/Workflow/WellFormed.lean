import CachedWorkflow.Proofs.Workflow.Classification
import CachedWorkflow.Proofs.Workflow.Frame

/-!
# Proofs: well formed documents

What makes a document well formed is said by its jobs and needs alone (`IsWellFormed`). Each part of it is what
one check of the compiler asks for: of the names (`validateJobId_eq_ok_iff`), the settings
(`exists_ofJob_iff`), the steps (`exists_authoredSteps_iff`) and the needs (`exists_graph_iff_declared`).
-/

namespace CachedWorkflow

open Relation

/-! ## What is well formed -/

/-- A job identifier begins with a letter or an underscore, and has letters, digits, underscores and dashes. -/
def IsJobId (id : Text) : Prop :=
  ∃ first rest, id = first :: rest ∧ isJobIdStart first = true ∧ ∀ c ∈ rest, isJobIdChar c = true

theorem validateJobId_eq_ok_iff {id : Text} : validateJobId id = .ok () ↔ IsJobId id := by
  cases id with
  | nil => exact ⟨fun h => (nomatch h), fun ⟨_, _, h, _⟩ => (nomatch h)⟩
  | cons first rest =>
    rw [validateJobId]
    constructor
    · intro h
      split at h
      · next hchars =>
        obtain ⟨hfirst, hrest⟩ := (Bool.and_eq_true _ _).mp hchars
        exact ⟨first, rest, rfl, hfirst, List.all_eq_true.mp hrest⟩
      · cases h
    · rintro ⟨c, cs, heq, hfirst, hrest⟩
      cases heq
      rw [if_pos]
      rw [hfirst, Bool.true_and]
      exact List.all_eq_true.mpr hrest

/-- The job does not have the property, or has one with a fitting value. -/
def FitsIfPresent (job : Object) (property : Text) (fits : Json → Prop) : Prop :=
  ∀ value, job.get? property = some value → fits value

/-- The properties of a job that make its settings. -/
structure HasReadableSettings (job : Object) : Prop where
  paths : FitsIfPresent job "paths" fun value => ∃ texts, value = Json.ofTexts texts
  outputPaths : FitsIfPresent job "output-paths" fun value => ∃ texts, value = Json.ofTexts texts
  extraKey : FitsIfPresent job "extra-key" fun value => ∃ text, value = .string text
  force : FitsIfPresent job "force" fun value => ∃ flag, value = .bool flag

/-- What a job needs to be run: a runner and steps that are objects, and no condition that is neither text nor
truth value. -/
structure IsRunnable (job : Object) : Prop where
  runner : ∃ runner, job.get? "runs-on" = some runner
  steps : ∃ steps, job.get? "steps" = some (.array steps) ∧ ∀ step ∈ steps, ∃ fields, step = .object fields
  condition : FitsIfPresent job "if" fun value => (∃ text, value = .string text) ∨ ∃ flag, value = .bool flag

/-- A job with steps needs another one. -/
def NeedsAmongSteps (jobs : Object) (a b : Text) : Prop := HasSteps jobs a ∧ HasSteps jobs b ∧ NeedsIn jobs a b

/-- The jobs of a document can be compiled. -/
structure IsWellFormed (config : Configuration) (jobs : Object) : Prop where
  init : IsJobId config.initJobId
  names : ∀ name ∈ jobs.keys, IsJobId name ∧ name ≠ config.initJobId
  settings : ∀ name fields, (name, Json.object fields) ∈ jobs → Object.contains fields "steps" = true →
    HasReadableSettings fields
  runnable : ∀ name fields, (name, Json.object fields) ∈ jobs → Object.contains fields "steps" = true →
    IsRunnable fields
  known : ∀ a b, HasSteps jobs a → NeedsIn jobs a b → b ∈ jobs.keys
  acyclic : ∀ name, ¬ TransGen (NeedsAmongSteps jobs) name name

/-! ## Settings and steps -/

theorem exists_property_iff {α : Type} {job : Object} {property location : Text} {default : α}
    {read : Text → Json → Except Error α} {fits : Json → Prop}
    (hread : ∀ value, (∃ a, read (location ++ "." ++ property) value = .ok a) ↔ fits value) :
    (∃ a, JobSettings.property job property location default read = .ok a) ↔
      FitsIfPresent job property fits := by
  rw [JobSettings.property, FitsIfPresent]
  cases job.get? property with
  | none => simp
  | some value => simp only [hread, Option.some.injEq, forall_eq']

theorem exists_ofJob_iff {name : Text} {job : Object} (hneeds : ∃ needs, readNeeds job [] = .ok needs) :
    (∃ settings, JobSettings.ofJob name job = .ok settings) ↔ HasReadableSettings job := by
  have htexts : ∀ location value, (∃ texts, Json.asStrings location value = .ok texts) ↔
      ∃ texts, value = Json.ofTexts texts := fun _ _ => exists_congr fun _ => asStrings_eq_ok
  have htext : ∀ location value, (∃ text, Json.asString location value = .ok text) ↔
      ∃ text, value = .string text := fun _ _ => exists_congr fun _ => Json.asString_eq_ok
  have hflag : ∀ location value, (∃ flag, Json.asBool location value = .ok flag) ↔
      ∃ flag, value = .bool flag := by
    intro location value
    cases value <;> simp [Json.asBool, Json.mismatch]
  constructor
  · rintro ⟨settings, h⟩
    obtain ⟨paths, outputPaths, extraKey, force, -, hpaths, houtputPaths, hextraKey, hforce, -, -⟩ :=
      ofJob_eq_ok_iff.mp h
    exact ⟨(exists_property_iff fun _ => htexts _ _).mp ⟨paths, hpaths⟩,
      (exists_property_iff fun _ => htexts _ _).mp ⟨outputPaths, houtputPaths⟩,
      (exists_property_iff fun _ => htext _ _).mp ⟨extraKey, hextraKey⟩,
      (exists_property_iff fun _ => hflag _ _).mp ⟨force, hforce⟩⟩
  · intro h
    obtain ⟨paths, hpaths⟩ := (exists_property_iff fun _ => htexts _ _).mpr h.paths
    obtain ⟨outputPaths, houtputPaths⟩ := (exists_property_iff fun _ => htexts _ _).mpr h.outputPaths
    obtain ⟨extraKey, hextraKey⟩ := (exists_property_iff fun _ => htext _ _).mpr h.extraKey
    obtain ⟨force, hforce⟩ := (exists_property_iff fun _ => hflag _ _).mpr h.force
    obtain ⟨needs, hneeds⟩ := hneeds
    exact ⟨_, ofJob_eq_ok_iff.mpr ⟨paths, outputPaths, extraKey, force, needs, hpaths, houtputPaths, hextraKey,
      hforce, readNeeds_congr hneeds, rfl⟩⟩

theorem exists_authoredSteps_iff {name : Text} {fields : Object} :
    (∃ own, authoredSteps name fields = .ok own) ↔
      (∃ runner, fields.get? "runs-on" = some runner) ∧ ∃ steps, fields.get? "steps" = some (.array steps) ∧
        ∀ step ∈ steps, ∃ entries, step = .object entries := by
  simp only [authoredSteps_eq_ok]
  exact ⟨fun ⟨own, hrunner, hown⟩ => ⟨hrunner, own, hown⟩, fun ⟨hrunner, own, hown⟩ => ⟨own, hrunner, hown⟩⟩

/-! ## Needs -/

section

variable {config : Configuration} {jobs : Object} {found : Classified}

/-- The needs of a job with steps are those that the document declares. -/
theorem mem_needs_iff (hfound : jobs.foldlM (classify config) {} = .ok found) (hd : jobs.Distinct) {job : Job}
    (hjob : job ∈ found.pipeline) {need : Text} :
    need ∈ job.settings.needs ↔ NeedsIn jobs job.name need := by
  obtain ⟨fields, hmem, -, hsettings⟩ := (sorts_of_foldlM hfound).mem_pipeline job |>.mp hjob
  obtain ⟨needs, hread, hneeds⟩ := needs_of_ofJob hsettings
  have hdeclared := needsOf?_eq_some (Object.get?_of_mem hd hmem) hread
  rw [hneeds, List.mem_eraseDups, NeedsIn, hdeclared]
  exact ⟨fun h => ⟨needs, rfl, h⟩, fun ⟨_, heq, h⟩ => Option.some.inj heq ▸ h⟩

theorem needs_eq_needsAmongSteps (hfound : jobs.foldlM (classify config) {} = .ok found) (hd : jobs.Distinct) :
    Needs found.pipeline = NeedsAmongSteps jobs := by
  have hsorts := sorts_of_foldlM hfound
  funext a b
  refine propext ⟨?_, ?_⟩
  · rintro ⟨job, hjob, rfl, hneed, hb⟩
    obtain ⟨other, hother, rfl⟩ := List.mem_map.mp hb
    exact ⟨(hsorts.exists_pipeline_iff_hasSteps hd).mp ⟨job, hjob, rfl⟩,
      (hsorts.exists_pipeline_iff_hasSteps hd).mp ⟨other, hother, rfl⟩, (mem_needs_iff hfound hd hjob).mp hneed⟩
  · rintro ⟨ha, hb, hneed⟩
    obtain ⟨job, hjob, rfl⟩ := (hsorts.exists_pipeline_iff_hasSteps hd).mpr ha
    obtain ⟨other, hother, rfl⟩ := (hsorts.exists_pipeline_iff_hasSteps hd).mpr hb
    exact ⟨job, hjob, rfl, (mem_needs_iff hfound hd hjob).mpr hneed, List.mem_map_of_mem hother⟩

/-- Jobs that have been sorted make a graph if the needs of the document are known and have no cycle. -/
theorem exists_graph_iff_declared (hfound : jobs.foldlM (classify config) {} = .ok found) (hd : jobs.Distinct) :
    (∃ graph, JobGraph.ofJobs found.pipeline found.passthrough = .ok graph) ↔
      (∀ a b, HasSteps jobs a → NeedsIn jobs a b → b ∈ jobs.keys) ∧
        ∀ name, ¬ TransGen (NeedsAmongSteps jobs) name name := by
  have hsorts := sorts_of_foldlM hfound
  rw [exists_graph_iff hfound hd, HasCycle, needs_eq_needsAmongSteps hfound hd, not_exists]
  refine and_congr_left fun _ => ⟨fun h a b ha hneed => ?_, fun h job hjob need hneed => ?_⟩
  · obtain ⟨job, hjob, rfl⟩ := (hsorts.exists_pipeline_iff_hasSteps hd).mpr ha
    exact h job hjob b ((mem_needs_iff hfound hd hjob).mpr hneed)
  · exact h job.name need ((hsorts.exists_pipeline_iff_hasSteps hd).mp ⟨job, hjob, rfl⟩)
      ((mem_needs_iff hfound hd hjob).mp hneed)

end

end CachedWorkflow
