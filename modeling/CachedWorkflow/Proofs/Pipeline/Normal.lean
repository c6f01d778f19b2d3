import CachedWorkflow.Pipeline.Normal
import CachedWorkflow.Proofs.Pipeline.Expanded
import CachedWorkflow.Proofs.Template.Scannable

/-!
# Proofs: the normal form

What a document is brought to before it is compiled is a normal form (`IsNormalForm`): nothing in it is left
to be done, so that it is its own normal form, and it is compiled like the document that it comes from
(`preprocess_normalizes`). A need is the exception. What is read from a placeholder that holds a second
opening is not plain yet.
-/

namespace CachedWorkflow

open Renaming Template

/-! ## Passes over the jobs -/

/-- What a pass over the jobs makes of one of them. -/
inductive MapsJob (f : Text → Object → Except Error Object) : Text × Json → Text × Json → Prop where
  | intro {name : Text} {job job' : Object} : f name job = .ok job' →
      MapsJob f (name, .object job) (name, .object job')

section

variable {f : Text → Object → Except Error Object} {document document' jobs jobs' : Object}

theorem mapsJob_iff {entry entry' : Text × Json} : (do
      let job ← entry.2.asObject ("jobs." ++ entry.1)
      let job ← f entry.1 job
      Except.ok (entry.1, Json.object job)) = .ok entry' ↔ MapsJob f entry entry' := by
  constructor
  · obtain ⟨name, value⟩ := entry
    intro h
    obtain ⟨job, hjob, hrest⟩ := bind_eq_ok.mp h
    obtain rfl := Json.asObject_eq_ok.mp hjob
    obtain ⟨job', hjob', hresult⟩ := bind_eq_ok.mp hrest
    obtain rfl := Except.ok.inj hresult
    exact .intro hjob'
  · rintro ⟨hjob⟩
    exact bind_eq_ok.mpr ⟨_, rfl, bind_eq_ok.mpr ⟨_, hjob, rfl⟩⟩

theorem mapJobs_eq_ok : mapJobs f document = .ok document' ↔
    ∃ jobs jobs', document.get? "jobs" = some (.object jobs) ∧ List.Forall₂ (MapsJob f) jobs jobs' ∧
      document' = document.insert "jobs" (.object jobs') := by
  have hsteps : ∀ jobs jobs' : Object, (jobs.mapM fun entry => do
      let job ← entry.2.asObject ("jobs." ++ entry.1)
      let job ← f entry.1 job
      Except.ok (entry.1, Json.object job)) = .ok jobs' ↔ List.Forall₂ (MapsJob f) jobs jobs' := by
    intro jobs jobs'
    rw [mapM_eq_ok]
    exact ⟨fun h => h.imp fun _ _ => mapsJob_iff.mp, fun h => h.imp fun _ _ => mapsJob_iff.mpr⟩
  constructor
  · intro h
    obtain ⟨value, hvalue, hrest⟩ := bind_eq_ok.mp h
    obtain ⟨jobs, hjobs, hpass⟩ := bind_eq_ok.mp hrest
    obtain rfl := Json.asObject_eq_ok.mp hjobs
    obtain ⟨jobs', hjobs', hresult⟩ := bind_eq_ok.mp hpass
    obtain rfl := Except.ok.inj hresult
    exact ⟨jobs, jobs', Object.require_eq_ok.mp hvalue, (hsteps jobs jobs').mp hjobs', rfl⟩
  · rintro ⟨jobs, jobs', hvalue, hjobs', rfl⟩
    refine bind_eq_ok.mpr ⟨_, Object.require_eq_ok.mpr hvalue, bind_eq_ok.mpr ⟨jobs, rfl, ?_⟩⟩
    exact bind_eq_ok.mpr ⟨jobs', (hsteps jobs jobs').mpr hjobs', rfl⟩

/-- A pass that changes no job changes nothing. -/
theorem mapJobs_eq_self (hjobs : document.get? "jobs" = some (.object jobs))
    (h : ∀ entry ∈ jobs, MapsJob f entry entry) : mapJobs f document = .ok document :=
  mapJobs_eq_ok.mpr ⟨jobs, jobs, hjobs, List.forall₂_same.mpr h, (Object.insert_eq_self hjobs).symm⟩

theorem keys_mapsJob (h : List.Forall₂ (MapsJob f) jobs jobs') : jobs'.keys = jobs.keys := by
  have hkeys := Object.keys_forall₂ h (k := id) fun _ _ hentry => by cases hentry; rfl
  rwa [List.map_id] at hkeys

end

/-! ## Shared parts -/

theorem get?_removeShared_jobs (document : Object) :
    (removeShared document).get? "jobs" = document.get? "jobs" :=
  Object.get?_filter (p := fun key => !("x-".toList).isPrefixOf key) (by decide) document

/-- No top-level property holds shared parts only. -/
def HasNoShared (document : Object) : Prop := ∀ key ∈ document.keys, ¬ ("x-" : Text) <+: key

theorem hasNoShared_removeShared (document : Object) : HasNoShared (removeShared document) := by
  intro key hkey
  obtain ⟨entry, hentry, rfl⟩ := List.mem_map.mp hkey
  have hkept := (List.mem_filter.mp hentry).2
  rw [Bool.not_eq_true', Bool.eq_false_iff, ne_eq, List.isPrefixOf_iff_prefix] at hkept
  exact hkept

theorem removeShared_of_hasNoShared {document : Object} (h : HasNoShared document) :
    removeShared document = document := by
  refine List.filter_eq_self.mpr fun entry hentry => ?_
  have hnot := h entry.1 (Object.mem_keys_of_mem hentry)
  rw [Bool.not_eq_true', Bool.eq_false_iff, ne_eq, List.isPrefixOf_iff_prefix]
  exact hnot

/-! ## Steps -/

/-- A step that is neither a list of steps nor a bare command. -/
def IsFlat : Json → Prop
  | .array _ | .string _ => False
  | _ => True

theorem flattenStep_of_isFlat {step : Json} (h : IsFlat step) : flattenStep step = [step] := by
  cases step with
  | array _ | string _ => exact h.elim
  | object _ | null | bool _ | number _ => simp [flattenStep]

mutual

theorem isFlat_of_mem_flattenStep : ∀ {step flat : Json}, flat ∈ flattenStep step → IsFlat flat
  | .array steps, flat, h => by
    rw [flattenStep] at h
    exact isFlat_of_mem_flattenSteps h
  | .string command, flat, h => by
    rw [flattenStep] at h
    rw [List.mem_singleton.mp h]
    trivial
  | .object _, flat, h | .null, flat, h | .bool _, flat, h | .number _, flat, h => by
    rw [flattenStep_of_isFlat] at h
    · rw [List.mem_singleton.mp h]
      trivial
    · trivial

theorem isFlat_of_mem_flattenSteps : ∀ {steps : List Json} {flat : Json}, flat ∈ flattenSteps steps →
    IsFlat flat
  | [], flat, h => by
    rw [flattenSteps] at h
    cases h
  | step :: rest, flat, h => by
    rw [flattenSteps] at h
    rcases List.mem_append.mp h with hstep | hrest
    · exact isFlat_of_mem_flattenStep hstep
    · exact isFlat_of_mem_flattenSteps hrest

end

/-- Steps that are flat stay as they are. -/
theorem flattenSteps_of_isFlat {steps : List Json} (h : ∀ step ∈ steps, IsFlat step) :
    flattenSteps steps = steps := by
  induction steps with
  | nil => rw [flattenSteps]
  | cons step rest ih =>
    obtain ⟨hstep, hrest⟩ := List.forall_mem_cons.mp h
    rw [flattenSteps, flattenStep_of_isFlat hstep, ih hrest, List.singleton_append]

theorem IsFlat.mapStrings {f : Text → Except Error (Option Json)} {step step' : Json} (h : IsFlat step)
    (hmap : step.mapStrings f = .ok step') : IsFlat step' := by
  cases step with
  | array _ | string _ => exact h.elim
  | object fields =>
    obtain ⟨fields', rfl, -⟩ := Json.mapStrings_object hmap
    trivial
  | null | bool _ | number _ =>
    cases hmap
    trivial

/-- The job has no steps, or flat ones. -/
def HasFlatSteps (job : Object) : Prop :=
  job.get? "steps" = none ∨ job.get? "steps" = some .null ∨
    ∃ steps, job.get? "steps" = some (.array steps) ∧ ∀ step ∈ steps, IsFlat step

/-- What flattening makes of a job: it changes nothing, or the steps. -/
theorem flattenJob_eq_ok {name : Text} {job job' : Object} (h : flattenJob name job = .ok job') :
    HasFlatSteps job' ∧ (job' = job ∨ ∃ steps, job' = job.insert "steps" (.array steps)) := by
  unfold flattenJob at h
  split at h
  · next hnone =>
    cases h
    exact ⟨.inl hnone, .inl rfl⟩
  · next hnull =>
    cases h
    exact ⟨.inr (.inl hnull), .inl rfl⟩
  · next value hvalue =>
    obtain ⟨steps, hsteps, hresult⟩ := bind_eq_ok.mp h
    obtain rfl := Json.asArray_eq_ok.mp hsteps
    split at hresult
    · next hempty =>
      cases hresult
      refine ⟨.inr (.inr ⟨steps, hvalue, ?_⟩), .inl rfl⟩
      simp [List.isEmpty_iff.mp hempty]
    · cases hresult
      refine ⟨.inr (.inr ⟨_, Object.get?_insert_self _ _ _, ?_⟩), .inr ⟨_, rfl⟩⟩
      exact fun step hstep => isFlat_of_mem_flattenSteps hstep

theorem flattenJob_of_hasFlatSteps {name : Text} {job : Object} (h : HasFlatSteps job) :
    flattenJob name job = .ok job := by
  unfold flattenJob
  rcases h with hnone | hnull | ⟨steps, hsteps, hflat⟩
  · rw [hnone]
  · rw [hnull]
  · rw [hsteps]
    refine bind_eq_ok.mpr ⟨steps, rfl, ?_⟩
    rw [flattenSteps_of_isFlat hflat, Object.insert_eq_self hsteps]
    split <;> rfl

theorem HasFlatSteps.mapsFields {f : Text → Except Error (Option Json)} {job job' : Object}
    (h : HasFlatSteps job) (hpass : MapsFields f job job') : HasFlatSteps job' := by
  rcases h with hnone | hnull | ⟨steps, hsteps, hflat⟩
  · rw [Object.get?_eq_none_iff, ← hpass.keys, ← Object.get?_eq_none_iff] at hnone
    exact .inl hnone
  · obtain ⟨value, hget, -, hmap⟩ := Object.get?_forall₂ hpass (fun _ _ hentry => hentry.1) hnull
    cases hmap
    exact .inr (.inl hget)
  · obtain ⟨value, hget, -, hmap⟩ := Object.get?_forall₂ hpass (fun _ _ hentry => hentry.1) hsteps
    obtain ⟨steps', rfl, hsteps'⟩ := Json.mapStrings_array hmap
    refine .inr (.inr ⟨steps', hget, fun step' hstep' => ?_⟩)
    obtain ⟨step, hstep, hstepmap⟩ := exists_of_mem_right hsteps' hstep'
    exact (hflat step hstep).mapStrings hstepmap

/-! ## References -/

/-- What references to other jobs are renamed by. -/
def jobsToNeeds : Renaming := [("jobs", "needs")]

/-- A template none of whose expressions mentions the context that is renamed. -/
def IsSettled (text : Text) : Prop :=
  ∃ tokens, scan text = .ok tokens ∧ ∀ source, .expression source ∈ tokens → ¬ Mentions source "jobs"

theorem isReference_jobs : IsReference "jobs" where
  joins := by decide
  head := ⟨'j', rfl, by decide⟩

theorem settles_jobsToNeeds : ∀ pair ∈ jobsToNeeds, Settles "jobs" pair := by
  intro pair hpair
  obtain rfl := List.mem_singleton.mp hpair
  refine ⟨by decide, by decide, ⟨encloses_of_plain (by decide), 'n', rfl, by decide⟩, ?_⟩
  rintro rest ⟨front, back, hsplit, -, -, hjoined, hoccurs⟩
  replace hsplit : ("needs" : Text) = front ++ back := hsplit
  -- the context is one run, so a reference would begin it
  have hjoins : ∀ c ∈ ("needs" : Text), joinsNext c = true := by decide
  cases hfront : front.getLast? with
  | some c =>
    have hmem : c ∈ ("needs" : Text) := hsplit ▸ List.mem_append_left _ (List.mem_of_getLast? hfront)
    have := hjoined c hfront
    rw [hjoins c hmem] at this
    cases this
  | none =>
    rw [List.getLast?_eq_none_iff] at hfront
    subst hfront
    rw [List.nil_append] at hsplit
    subst hsplit
    obtain ⟨-, behind, hbehind, -⟩ := occursAt_iff.mp hoccurs
    cases hbehind

/-- After the pass nothing mentions the context that is renamed. -/
theorem isSettled_of_applyToValue {value value' : Json} (h : jobsToNeeds.applyToValue value = .ok value') :
    ∀ text ∈ value'.leaves, IsSettled text := by
  intro text htext
  have hsafe : ∀ pair ∈ jobsToNeeds, IsSafe pair := fun pair hpair =>
    ⟨(settles_jobsToNeeds pair hpair).balanced, (settles_jobsToNeeds pair hpair).placeable⟩
  obtain ⟨tokens, hscan⟩ := isScannable_of_ne_nil (by simp [jobsToNeeds]) hsafe h text htext
  exact ⟨tokens, hscan, fun source hsource => not_mentions_of_settles isReference_jobs
    ⟨_, List.mem_singleton_self _, rfl⟩ settles_jobsToNeeds h htext hscan hsource⟩

/-- The pass changes nothing then. -/
theorem applyToValue_of_isSettled {value : Json} (h : ∀ text ∈ value.leaves, IsSettled text) :
    jobsToNeeds.applyToValue value = .ok value := by
  refine Binding.applyToValue_eq_self_iff.mpr fun text htext => ?_
  obtain ⟨tokens, hscan, hsettled⟩ := h text htext
  refine applyToTemplate_eq_self hscan fun source hsource pair hpair => ?_
  rw [List.mem_singleton.mp hpair]
  exact hsettled source hsource

/-! ## Needs -/

/-- There are two openings in the text. -/
def HasTwoOpenings (text : Text) : Prop :=
  ∃ before between after, text = before ++ opening ++ between ++ opening ++ after

/-- A need that is a name and no reference. -/
structure IsPlain (need : Text) : Prop where
  plain : plainNeed need = .ok need
  scans : ∃ tokens, scan need = .ok tokens

/-- What is read from a need is plain, if there is no second opening in the need. -/
theorem isPlain_of_plainNeed {need plain : Text} (hscan : ∃ tokens, scan need = .ok tokens)
    (hopenings : ¬ HasTwoOpenings need) (h : plainNeed need = .ok plain) : IsPlain plain := by
  obtain ⟨expression?, hfull, hplain⟩ := bind_eq_ok.mp h
  cases expression? with
  | none =>
    cases hplain
    exact ⟨h, hscan⟩
  | some expression =>
    replace hplain : (Text.after? "jobs." expression).getD need = plain := Except.ok.inj hplain
    cases hrest : Text.after? "jobs." expression with
    | none =>
      rw [hrest, Option.getD_none] at hplain
      subst hplain
      exact ⟨h, hscan⟩
    | some rest =>
      rw [hrest, Option.getD_some] at hplain
      subst hplain
      obtain ⟨source, hsource, rfl⟩ := fullExpression?_eq_some.mp hfull
      have htrimmed := Text.after?_eq_some.mp hrest
      have hneed := embed_scan hsource
      obtain ⟨before, after, -, -, hsplit⟩ := Text.exists_eq_trimmed isWhiteSpace source
      -- an opening in the rest would be the second one of the need
      have hopening : hasOpening rest = false := by
        rw [← isFragment_literal]
        rintro ⟨front, back, rfl⟩
        refine hopenings ⟨[], before ++ "jobs." ++ front, back ++ after ++ closing, ?_⟩
        rw [← hneed, hsplit, htrimmed]
        simp [embed, tokenText]
      refine ⟨?_, _, scan_of_hasOpening_eq_false hopening⟩
      exact bind_eq_ok.mpr ⟨none, fullExpression?_of_hasOpening_eq_false hopening, rfl⟩

/-! ## Jobs -/

/-- A job whose references have been renamed: its needs, if it has some, have been put into a body in which
nothing is left to rename. -/
structure IsRereferenced (needs : List Text) (job : Object) : Prop where
  body : ∃ body : Object, (∀ text ∈ (Json.object body).leaves, IsSettled text) ∧
    job = if needs.isEmpty then body else body.insert "needs" (Json.ofTexts needs)
  reads : readNeeds job [] = .ok needs

/-- A need is read into a plain one, and is a template. -/
def ReadsPlain (need plain : Text) : Prop := plainNeed need = .ok plain ∧ ∃ tokens, scan need = .ok tokens

/-- What becomes of a job that is brought to normal form. -/
structure Normalizes (job job' : Object) : Prop where
  calls : job'.get? callProperty = none
  steps : HasFlatSteps job'
  needs : ∃ declared needs, readNeeds job [] = .ok declared ∧ List.Forall₂ ReadsPlain declared needs ∧
    IsRereferenced needs job'

section

variable {name : Text} {job job' : Object}

/-- The needs of a job are templates if the pass over the job does not fail. -/
theorem forall₂_readsPlain {declared needs : List Text} {value : Json}
    (hdeclared : readNeeds job ("jobs." ++ name) = .ok declared) (hneeds : declared.mapM plainNeed = .ok needs)
    (hpass : jobsToNeeds.applyToValue (.object job) = .ok value) : List.Forall₂ ReadsPlain declared needs := by
  have hboth := List.forall₂_and_left (p := (· ∈ declared)) _ _ |>.mpr
    ⟨fun _ hneed => hneed, mapM_eq_ok.mp hneeds⟩
  refine hboth.imp fun need plain ⟨hmem, hread⟩ => ⟨hread, ?_⟩
  obtain ⟨new, hnew⟩ := Json.exists_of_mapStrings hpass (mem_leaves_of_readNeeds hdeclared need hmem)
  obtain ⟨text, htext, -⟩ := map_eq_ok.mp hnew
  obtain ⟨tokens, hscan, -⟩ := (applyToTemplate_eq_ok (by simp [jobsToNeeds])).mp htext
  exact ⟨tokens, hscan⟩

theorem rereferenceJob_eq_ok (hcalls : job.get? callProperty = none) (hsteps : HasFlatSteps job)
    (h : rereferenceJob name job = .ok job') : Normalizes job job' := by
  obtain ⟨declared, hdeclared, hrest⟩ := bind_eq_ok.mp h
  obtain ⟨needs, hneeds, hrest'⟩ := bind_eq_ok.mp hrest
  obtain ⟨value, hvalue, hrest''⟩ := bind_eq_ok.mp hrest'
  obtain ⟨body, hbody, hresult⟩ := bind_eq_ok.mp hrest''
  obtain rfl := Json.asObject_eq_ok.mp hbody
  have hpass : jobsToNeeds.applyToValue (.object job) = .ok (.object body) := hvalue
  have hplain := forall₂_readsPlain hdeclared hneeds hpass
  obtain ⟨body', hbody', hmaps⟩ := Json.mapStrings_object hpass
  obtain rfl := Json.object.inj hbody'
  have hcallsBody : body.get? callProperty = none := by
    rw [Object.get?_eq_none_iff, MapsFields.keys hmaps, ← Object.get?_eq_none_iff]
    exact hcalls
  have hstepsBody : HasFlatSteps body := hsteps.mapsFields hmaps
  have hsettled := isSettled_of_applyToValue hpass
  by_cases hempty : needs.isEmpty = true
  · rw [if_pos hempty] at hresult
    obtain rfl : body = job' := Except.ok.inj hresult
    refine ⟨hcallsBody, hstepsBody, declared, needs, readNeeds_congr hdeclared, hplain,
      ⟨body, hsettled, (if_pos hempty).symm⟩, ?_⟩
    rw [List.isEmpty_iff] at hempty
    subst hempty
    cases hplain
    exact MapsFields.readNeeds hmaps (readNeeds_congr hdeclared) .nil
  · rw [if_neg hempty] at hresult
    cases hresult
    refine ⟨?_, ?_, declared, needs, readNeeds_congr hdeclared, hplain,
      ⟨body, hsettled, (if_neg hempty).symm⟩, readNeeds_insert body needs⟩
    · rw [Object.get?_insert_of_ne _ _ (by decide), hcallsBody]
    · rw [HasFlatSteps, Object.get?_insert_of_ne _ _ (by decide)]
      exact hstepsBody

/-- A job whose references have been renamed, and whose needs are plain, stays as it is. -/
theorem rereferenceJob_of_isRereferenced {needs : List Text} (h : IsRereferenced needs job)
    (hplain : ∀ need ∈ needs, IsPlain need) : rereferenceJob name job = .ok job := by
  obtain ⟨⟨body, hsettled, hjob⟩, hreads⟩ := h
  have hneeds : needs.mapM plainNeed = .ok needs :=
    mapM_eq_ok.mpr (List.forall₂_same.mpr fun need hneed => (hplain need hneed).plain)
  refine bind_eq_ok.mpr ⟨needs, readNeeds_congr hreads, bind_eq_ok.mpr ⟨needs, hneeds, ?_⟩⟩
  by_cases hempty : needs.isEmpty = true
  · rw [if_pos hempty] at hjob
    subst hjob
    refine bind_eq_ok.mpr ⟨_, applyToValue_of_isSettled hsettled, bind_eq_ok.mpr ⟨job, rfl, ?_⟩⟩
    rw [if_pos hempty]
  · rw [if_neg hempty] at hjob
    have hscannable : (Json.ofTexts needs).IsScannable := by
      refine isScannable_array_iff.mpr fun item hitem => ?_
      obtain ⟨need, hneed, rfl⟩ := List.mem_map.mp hitem
      intro text htext
      obtain rfl := List.mem_singleton.mp htext
      exact (hplain _ hneed).scans
    obtain ⟨value, hvalue⟩ := exists_applyToValue jobsToNeeds hscannable
    obtain ⟨body', hbody', hself⟩ := Json.mapStrings_object (applyToValue_of_isSettled hsettled)
    obtain rfl := Json.object.inj hbody'
    -- the pass changes the needs alone, and they are put in again
    have hpass : jobsToNeeds.applyToValue (.object job)
        = .ok (.object (Object.insert body "needs" value)) := by
      subst hjob
      exact map_eq_ok.mpr ⟨_, Json.mapFields_eq_ok.mpr (MapsFields.insert hself hvalue), rfl⟩
    refine bind_eq_ok.mpr ⟨_, hpass, bind_eq_ok.mpr ⟨_, rfl, ?_⟩⟩
    rw [if_neg hempty, Object.insert_insert, ← hjob]

theorem normalizes_of_mapsJob {entry flat entry' : Text × Json} (hcalls : CallsNothing entry.2)
    (hflat : MapsJob flattenJob entry flat) (hrereferenced : MapsJob rereferenceJob flat entry') :
    ∃ name job job', entry = (name, .object job) ∧ entry' = (name, .object job') ∧ Normalizes job job' := by
  obtain ⟨hflat⟩ := hflat
  rename_i name job between
  obtain ⟨hrereferenced⟩ := hrereferenced
  rename_i job'
  obtain ⟨own, hown, hnone⟩ := hcalls
  obtain rfl := Json.object.inj hown
  obtain ⟨hsteps, hsame⟩ := flattenJob_eq_ok hflat
  have hget : ∀ key : Text, key ≠ "steps" → between.get? key = Object.get? job key := by
    intro key hkey
    rcases hsame with rfl | ⟨steps, rfl⟩
    · rfl
    · exact Object.get?_insert_of_ne _ _ hkey.symm
  have hnone' : between.get? callProperty = none := by rw [hget _ (by decide), hnone]
  obtain ⟨hcalls', hsteps', declared, needs, hdeclared, hplain, hneeds⟩ :=
    rereferenceJob_eq_ok hnone' hsteps hrereferenced
  rw [readNeeds_of_get?_eq (hget "needs" (by decide))] at hdeclared
  exact ⟨name, job, job', rfl, rfl, hcalls', hsteps', declared, needs, hdeclared, hplain, hneeds⟩

end

/-! ## Documents -/

/-- A job in normal form calls no pipeline, has flat steps, and apart from its needs refers to other jobs by
the context of the platform alone. -/
structure IsNormalJob (job : Object) : Prop where
  calls : job.get? callProperty = none
  steps : HasFlatSteps job
  references : ∀ key value, (key, value) ∈ job → key ≠ "needs" → ∀ text ∈ value.leaves, IsSettled text

/-- A document in normal form. -/
structure IsNormalForm (document : Object) : Prop where
  shared : HasNoShared document
  jobs : ∃ jobs, document.get? "jobs" = some (.object jobs) ∧
    ∀ entry ∈ jobs, ∃ job, entry.2 = .object job ∧ IsNormalJob job

/-- No need of a job of the document has two openings. -/
def NeedsOpenOnce (document : Object) : Prop :=
  ∀ jobs name job needs, document.get? "jobs" = some (.object jobs) → (name, Json.object job) ∈ jobs →
    readNeeds job [] = .ok needs → ∀ need ∈ needs, ¬ HasTwoOpenings need

theorem Normalizes.isNormalJob {job job' : Object} (h : Normalizes job job') : IsNormalJob job' := by
  obtain ⟨declared, needs, -, -, ⟨body, hsettled, hjob⟩, -⟩ := h.needs
  refine ⟨h.calls, h.steps, fun key value hmem hkey text htext => ?_⟩
  have hbody : (key, value) ∈ body := by
    by_cases hempty : needs.isEmpty = true
    · rw [if_pos hempty] at hjob
      exact hjob ▸ hmem
    · rw [if_neg hempty] at hjob
      rw [hjob] at hmem
      rcases Object.mem_of_mem_insert hmem with hold | hnew
      · exact hold
      · exact absurd (Prod.mk.inj hnew).1 hkey
  exact hsettled text (Json.mem_leavesOfFields.mpr ⟨_, hbody, htext⟩)

section

variable {document document' : Object}

theorem normalizeDocument_stages (h : normalizeDocument document = .ok document') :
    ∃ jobs flat jobs' : Object, document.get? "jobs" = some (.object jobs) ∧
      List.Forall₂ (MapsJob flattenJob) jobs flat ∧ List.Forall₂ (MapsJob rereferenceJob) flat jobs' ∧
      document' = (removeShared document).insert "jobs" (.object jobs') := by
  obtain ⟨between, hflatten, hrereference⟩ := bind_eq_ok.mp h
  obtain ⟨jobs, flat, hjobs, hflat, rfl⟩ := mapJobs_eq_ok.mp hflatten
  obtain ⟨flat', jobs', hflat', hjobs', rfl⟩ := mapJobs_eq_ok.mp hrereference
  rw [Object.get?_insert_self] at hflat'
  obtain rfl := Json.object.inj (Option.some.inj hflat')
  rw [get?_removeShared_jobs] at hjobs
  exact ⟨jobs, flat, jobs', hjobs, hflat, hjobs', Object.insert_insert _ _ _ _⟩

/-- What becomes of an expanded document: each of its jobs is brought to normal form. -/
theorem normalizes_jobs (hexpanded : IsExpanded document) (h : normalizeDocument document = .ok document') :
    HasNoShared document' ∧ ∃ jobs jobs' : Object, document.get? "jobs" = some (.object jobs) ∧
      document'.get? "jobs" = some (.object jobs') ∧ jobs'.Distinct ∧ jobs'.keys = jobs.keys ∧
      ∀ entry' ∈ jobs', ∃ name job job', (name, Json.object job) ∈ jobs ∧
        entry' = (name, .object job') ∧ Normalizes job job' := by
  obtain ⟨jobs, flat, jobs', hjobs, hflat, hjobs', rfl⟩ := normalizeDocument_stages h
  obtain ⟨own, hown, hd, hcalls⟩ := hexpanded
  obtain rfl := Json.object.inj (Option.some.inj (hjobs.symm.trans hown))
  have hkeys : jobs'.keys = jobs.keys := (keys_mapsJob hjobs').trans (keys_mapsJob hflat)
  have hmem : ("jobs" : Text) ∈ (removeShared document).keys :=
    Object.mem_keys_of_get? ((get?_removeShared_jobs document).trans hjobs)
  refine ⟨?_, jobs, jobs', hjobs, Object.get?_insert_self _ _ _, ?_, hkeys, fun entry' hentry' => ?_⟩
  · rw [HasNoShared, Object.keys_insert_of_mem hmem]
    exact hasNoShared_removeShared document
  · rw [Object.Distinct, hkeys]
    exact hd
  · obtain ⟨between, hbetween, hrereferenced⟩ := exists_of_mem_right hjobs' hentry'
    obtain ⟨entry, hentry, hflattened⟩ := exists_of_mem_right hflat hbetween
    obtain ⟨name, job, job', rfl, rfl, hnormal⟩ :=
      normalizes_of_mapsJob (hcalls entry hentry) hflattened hrereferenced
    exact ⟨name, job, job', hentry, rfl, hnormal⟩

/-- A document that has been brought to normal form is expanded still. -/
theorem isExpanded_of_normalizeDocument (hexpanded : IsExpanded document)
    (h : normalizeDocument document = .ok document') : IsExpanded document' := by
  obtain ⟨-, jobs, jobs', -, hjobs', hd, -, hnormal⟩ := normalizes_jobs hexpanded h
  refine ⟨jobs', hjobs', hd, fun entry' hentry' => ?_⟩
  obtain ⟨name, job, job', -, rfl, hjob⟩ := hnormal entry' hentry'
  exact ⟨job', rfl, hjob.calls⟩

/-- A document that has been brought to normal form is its own normal form, if its needs are plain. -/
theorem normalizeDocument_normalizeDocument (hexpanded : IsExpanded document)
    (hneeds : NeedsOpenOnce document) (h : normalizeDocument document = .ok document') :
    normalizeDocument document' = .ok document' := by
  obtain ⟨hshared, jobs, jobs', hjobs, hjobs', -, -, hnormal⟩ := normalizes_jobs hexpanded h
  rw [normalizeDocument, removeShared_of_hasNoShared hshared]
  refine bind_eq_ok.mpr ⟨document', mapJobs_eq_self hjobs' fun entry' hentry' => ?_,
    mapJobs_eq_self hjobs' fun entry' hentry' => ?_⟩
  · obtain ⟨name, job, job', -, rfl, hjob⟩ := hnormal entry' hentry'
    exact .intro (flattenJob_of_hasFlatSteps hjob.steps)
  · obtain ⟨name, job, job', hmem, rfl, hjob⟩ := hnormal entry' hentry'
    obtain ⟨declared, needs, hdeclared, hplain, hrereferenced⟩ := hjob.needs
    refine .intro (rereferenceJob_of_isRereferenced hrereferenced fun need hneed => ?_)
    obtain ⟨source, hsource, hread, hscan⟩ := exists_of_mem_right hplain hneed
    exact isPlain_of_plainNeed hscan (hneeds jobs name job declared hjobs hmem hdeclared source hsource) hread

end

/-- A document is preprocessed into a normal form. If no need of the expanded document has two openings, a
document like that, served as it is, is preprocessed into itself and compiled into what the first one is
compiled into. -/
theorem preprocess_normalizes {library : Library} {path : Text} {expanded document : Object}
    (hexpand : expand library path = .ok expanded) (h : preprocess library path = .ok document) :
    IsNormalForm document ∧ (NeedsOpenOnce expanded → ∀ (library' : Library) (path' : Text),
      library'.load path' = .ok (.object document) → preprocess library' path' = .ok document ∧
        ∀ config, compileFile library' path' config = compileFile library path config) := by
  have hexpanded : IsExpanded expanded := isExpanded_of_expandFrom hexpand
  have hnormalize : normalizeDocument expanded = .ok document := eq_ok_of_bind hexpand h
  constructor
  · obtain ⟨hshared, jobs, jobs', -, hjobs', -, -, hnormal⟩ := normalizes_jobs hexpanded hnormalize
    refine ⟨hshared, jobs', hjobs', fun entry' hentry' => ?_⟩
    obtain ⟨name, job, job', -, rfl, hjob⟩ := hnormal entry' hentry'
    exact ⟨job', rfl, hjob.isNormalJob⟩
  · intro hneeds library' path' hload
    have hagain : preprocess library' path' = .ok document := by
      rw [preprocess, expand_of_isExpanded (isExpanded_of_normalizeDocument hexpanded hnormalize) hload]
      exact normalizeDocument_normalizeDocument hexpanded hneeds hnormalize
    refine ⟨hagain, fun config => ?_⟩
    rw [compileFile, compileFile, hagain, h]

/-- A document with shared parts, nested steps and references calls another one. -/
def draftDocuments : List (Text × Json) := [
  ("main", .object [
    ("x-shared", .string "parts"),
    ("jobs", .object [
      ("build", .object [("steps", .array [.string "make", .array [.string "make test"]])]),
      ("check", .object [(callProperty, .string "check"), ("needs", .string (placeholder "jobs.build"))]),
      ("report", .object [("needs", .string (placeholder "jobs.check")),
        ("env", .string ("of " ++ placeholder "jobs.build.result"))])])]),
  ("check", .object [("jobs", .object [("lint", .object [("steps", .array [.string "lint"])])])])]

/-- Its jobs with those of the other one, given the context of their references, the form of a command, the
steps of the build and the need on it. -/
def reportJobs (context : Text) (command : Text → Json) (buildSteps : List Json) (need : Text) : Object := [
  ("build", .object [("steps", .array buildSteps)]),
  ("check-lint", .object [("steps", .array [command "lint"]), ("needs", Json.ofTexts [need])]),
  ("report", .object [("needs", Json.ofTexts ["check-lint"]),
    ("env", .string ("of " ++ placeholder (context ++ ".build.result")))])]

/-- The normal form of the document. -/
def draftNormal : Object :=
  let command := fun text => Json.object [("run", .string text)]
  [("jobs", .object (reportJobs "needs" command [command "make", command "make test"] "build"))]

/-- The document when it has been expanded. -/
def draftExpanded : Object := [
  ("x-shared", .string "parts"),
  ("jobs", .object (reportJobs "jobs" .string [.string "make", .array [.string "make test"]]
    (placeholder "jobs.build")))]

theorem two_le_count_of_hasTwoOpenings {text : Text} (h : HasTwoOpenings text) : 2 ≤ text.count '$' := by
  obtain ⟨before, between, after, rfl⟩ := h
  have hone : opening.count '$' = 1 := by decide
  simp only [List.count_append, hone]
  omega

/-- This document is its own normal form once it has been preprocessed. -/
theorem preprocess_normalizes_draft : IsNormalForm draftNormal ∧
    preprocess (.ofDocuments draftDocuments []) "main" = .ok draftNormal ∧
    preprocess (.ofDocuments [("normal", .object draftNormal)] []) "normal" = .ok draftNormal ∧
    compileFile (.ofDocuments [("normal", .object draftNormal)] []) "normal" {}
      = compileFile (.ofDocuments draftDocuments []) "main" {} := by
  have hexpand : expand (.ofDocuments draftDocuments []) "main" = .ok draftExpanded := by
    rw [← expandWithin_eq_expand (namesAre_ofDocuments draftDocuments)
      (fun path => .error (.unparsable path)) "main"]
    decide +kernel
  have hpreprocess : preprocess (.ofDocuments draftDocuments []) "main" = .ok draftNormal := by
    refine bind_eq_ok.mpr ⟨draftExpanded, hexpand, ?_⟩
    decide +kernel
  have hneeds : NeedsOpenOnce draftExpanded := by
    intro jobs name job needs hjobs hmem hread need hneed htwo
    have hcount := two_le_count_of_hasTwoOpenings htwo
    have hall : ∀ entry ∈ reportJobs "jobs" .string [.string "make", .array [.string "make test"]]
        (placeholder "jobs.build"), entry.2.object?.all (fun fields => (readNeeds fields []).toOption.all
          fun needs => needs.all fun need => need.count '$' < 2) = true := by decide +kernel
    cases hjobs
    have hjob := hall _ hmem
    rw [Json.object?, Option.all_some, hread] at hjob
    have hlt := of_decide_eq_true (List.all_eq_true.mp hjob need hneed)
    omega
  obtain ⟨hnormal, hsame⟩ := preprocess_normalizes hexpand hpreprocess
  obtain ⟨hagain, hcompile⟩ := hsame hneeds (.ofDocuments [("normal", .object draftNormal)] []) "normal"
    (by decide +kernel)
  exact ⟨hnormal, hpreprocess, hagain, hcompile {}⟩

end CachedWorkflow
