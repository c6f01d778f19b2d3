import CachedWorkflow.Proofs.Pipeline.JobNames

/-!
# Proofs: expanded documents

No job of an expanded document calls a pipeline, and no two of its jobs have one name
(`isExpanded_of_expand`). A document like this is expanded already (`expand_of_isExpanded`).
-/

namespace CachedWorkflow

variable {library : Library} {file : Text} {document : Object}

/-- An object that calls no pipeline. -/
def CallsNothing (value : Json) : Prop :=
  ∃ job, value = .object job ∧ Object.get? job callProperty = none

/-- A document whose jobs call no pipelines. -/
def HasOwnJobs (document : Object) : Prop :=
  ∃ jobs, document.get? "jobs" = some (.object jobs) ∧ ∀ entry ∈ jobs, CallsNothing entry.2

/-- A document whose jobs call no pipelines and are named apart. -/
def IsExpanded (document : Object) : Prop :=
  ∃ jobs : Object, document.get? "jobs" = some (.object jobs) ∧ jobs.Distinct ∧
    ∀ entry ∈ jobs, CallsNothing entry.2

/-! ## Steps that add no calls -/

/-- The needs of a job are no call. -/
theorem callsNothing_insert_needs {job : Object} (h : job.get? callProperty = none) (needs : Json) :
    CallsNothing (.object (job.insert "needs" needs)) :=
  ⟨_, rfl, by rw [Object.get?_insert_of_ne _ _ (by decide), h]⟩

theorem CallsNothing.mapStrings {f : Text → Except Error (Option Json)} {value value' : Json}
    (h : CallsNothing value) (hmap : value.mapStrings f = .ok value') : CallsNothing value' := by
  obtain ⟨job, rfl, hnone⟩ := h
  obtain ⟨job', rfl, hpass⟩ := Json.mapStrings_object hmap
  refine ⟨job', rfl, Object.get?_eq_none_iff.mpr ?_⟩
  rw [MapsFields.keys hpass]
  exact Object.get?_eq_none_iff.mp hnone

theorem callsNothing_of_prefixJob {location lead : Text} {jobs : Object} {entry entry' : Text × Json}
    (hentry : CallsNothing entry.2) (h : prefixJob location lead jobs entry = .ok entry') :
    CallsNothing entry'.2 := by
  obtain ⟨job, needs, hjob, -, rfl⟩ := prefixJob_eq_ok.mp h
  obtain ⟨job', hjob', hnone⟩ := hentry
  obtain rfl := Json.object.inj (hjob'.symm.trans hjob)
  cases hcontains : Object.contains job' "needs" with
  | true =>
    rw [relisted_eq_insert hcontains]
    exact callsNothing_insert_needs hnone _
  | false =>
    rw [relisted_eq_self hcontains]
    exact ⟨job', rfl, hnone⟩

theorem callsNothing_of_childJob {path : Text} {siteNeeds : List Text} {entry entry' : Text × Json}
    (hentry : CallsNothing entry.2) (h : childJob path siteNeeds entry = .ok entry') :
    CallsNothing entry'.2 := by
  obtain ⟨name, value⟩ := entry
  obtain ⟨job, rfl, hnone⟩ := hentry
  replace h := eq_ok_of_bind (Json.asObject_eq_ok.mpr rfl) h
  by_cases hempty : siteNeeds.isEmpty = true
  · rw [if_pos hempty] at h
    cases h
    exact ⟨job, rfl, hnone⟩
  · rw [if_neg hempty] at h
    obtain ⟨needs, -, h⟩ := bind_eq_ok.mp h
    split at h
    · cases h
      exact callsNothing_insert_needs hnone _
    · cases h
      exact ⟨job, rfl, hnone⟩

theorem callsNothing_of_rewireJob {sites : List CallSite} {entry entry' : Text × Json}
    (hentry : CallsNothing entry.2) (h : rewireJob sites entry = .ok entry') : CallsNothing entry'.2 := by
  obtain ⟨name, value⟩ := entry
  obtain ⟨job, rfl, hnone⟩ := hentry
  replace h := eq_ok_of_bind (Json.asObject_eq_ok.mpr rfl) h
  obtain ⟨needs, -, h⟩ := bind_eq_ok.mp h
  obtain ⟨rewired, -, h⟩ := bind_eq_ok.mp h
  obtain ⟨changed, -, h⟩ := bind_eq_ok.mp h
  split at h
  · cases h
    exact callsNothing_insert_needs hnone _
  · cases h
    exact ⟨job, rfl, hnone⟩

/-- A step that adds no call to a job adds none to any of them. -/
theorem forall_callsNothing {R : Text × Json → Text × Json → Prop} {jobs jobs' : Object}
    (h : List.Forall₂ R jobs jobs') (hjobs : ∀ entry ∈ jobs, CallsNothing entry.2)
    (hstep : ∀ entry entry', CallsNothing entry.2 → R entry entry' → CallsNothing entry'.2) :
    ∀ entry ∈ jobs', CallsNothing entry.2 := by
  intro entry' hentry'
  obtain ⟨entry, hentry, hR⟩ := exists_of_mem_right h hentry'
  exact hstep entry entry' (hjobs entry hentry) hR

theorem callsNothing_of_rewireJobs {sites : List CallSite} {jobs jobs' : Object}
    (hjobs : ∀ entry ∈ jobs, CallsNothing entry.2) (h : rewireJobs sites jobs = .ok jobs') :
    ∀ entry ∈ jobs', CallsNothing entry.2 := by
  unfold rewireJobs at h
  by_cases hempty : sites.isEmpty = true
  · rw [if_pos hempty] at h
    cases h
    exact hjobs
  · rw [if_neg hempty] at h
    exact forall_callsNothing (mapM_eq_ok.mp h) hjobs fun _ _ => callsNothing_of_rewireJob

/-! ## Documents -/

theorem HasOwnJobs.mapStrings {f : Text → Except Error (Option Json)} {value : Json}
    (h : HasOwnJobs document) (hmap : (Json.object document).mapStrings f = .ok value) :
    ∃ document', value = .object document' ∧ HasOwnJobs document' := by
  obtain ⟨jobs, hjobs, hown⟩ := h
  obtain ⟨document', rfl, hpass⟩ := Json.mapStrings_object hmap
  obtain ⟨value', hget, -, hvalue⟩ := Object.get?_forall₂ hpass (fun _ _ h => h.1) hjobs
  obtain ⟨jobs', rfl, hjobs'⟩ := Json.mapStrings_object hvalue
  exact ⟨document', rfl, jobs', hget, forall_callsNothing hjobs' hown fun _ _ hentry hstep =>
    hentry.mapStrings hstep.2⟩

theorem HasOwnJobs.substitute {binding : Binding} {value : Json} (h : HasOwnJobs document)
    (hsubstitute : binding.substitute (.object document) = .ok value) :
    ∃ document', value = .object document' ∧ HasOwnJobs document' :=
  Binding.substitute_object hsubstitute h (fun _ _ hown hfirst => hown.mapStrings hfirst)
    fun _ _ _ _ hown hsecond => hown.mapStrings hsecond

theorem HasOwnJobs.addPrefix {lead path : Text} {document' : Object} (h : HasOwnJobs document)
    (hadd : CachedWorkflow.addPrefix lead path document = .ok document') : HasOwnJobs document' := by
  obtain ⟨jobs, hjobs, hown⟩ := h
  obtain ⟨jobs', prefixed, hget, hprefixed, hrenamed⟩ := addPrefix_eq_ok.mp hadd
  obtain rfl := Json.object.inj (Option.some.inj (hjobs.symm.trans hget))
  have hhalf : HasOwnJobs (document.insert "jobs" (.object prefixed)) :=
    ⟨prefixed, Object.get?_insert_self document "jobs" _,
      forall_callsNothing hprefixed hown fun _ _ => callsNothing_of_prefixJob⟩
  obtain ⟨fields, hfields, hown'⟩ := hhalf.mapStrings hrenamed
  obtain rfl := Json.object.inj hfields
  exact hown'

/-- The jobs in the place of a call site call nothing if those of the child do not. -/
theorem callsNothing_of_instantiate {name location path : Text} {taken : List Text}
    {job child spliced : Object} {site : CallSite} (hchild : HasOwnJobs child)
    (h : instantiate name location path taken job child = .ok (spliced, site)) :
    ∀ entry ∈ spliced, CallsNothing entry.2 := by
  obtain ⟨renamed, inputs, bound, jobs, needs, hrenamed, -, hvalue, hjobs, -, hresult, -⟩ :=
    instantiate_stages h
  obtain ⟨bound', heq, jobs', hjobs', hown⟩ := (hchild.addPrefix hrenamed).substitute hvalue
  obtain rfl := Json.object.inj heq
  obtain rfl := Json.object.inj (Option.some.inj (hjobs.symm.trans hjobs'))
  exact forall_callsNothing (mapM_eq_ok.mp hresult) hown fun _ _ => callsNothing_of_childJob

/-! ## Expansion -/

/-- What is kept while jobs are placed. -/
structure Placed.IsExpanded (placed : Placed) : Prop where
  distinct : placed.jobs.Distinct
  own : ∀ entry ∈ placed.jobs, CallsNothing entry.2

theorem Places.isExpanded {declared : Object} {f : Text → Except Error Object}
    (hf : ∀ path child, f path = .ok child → HasOwnJobs child) {placed placed' : Placed}
    {entry : Text × Json} (h : placed.IsExpanded) (hstep : Places file declared f placed entry placed') :
    placed'.IsExpanded := by
  cases hstep with
  | own hnone =>
    refine ⟨h.distinct.insert _ _, fun entry hentry => ?_⟩
    rcases Object.mem_of_mem_insert hentry with hold | rfl
    · exact h.own entry hold
    · exact ⟨_, rfl, hnone⟩
  | site _ hchild hinstantiate =>
    refine ⟨h.distinct.insertAll _, fun entry hentry => ?_⟩
    rcases Object.mem_of_mem_insertAll hentry with hold | hnew
    · exact h.own entry hold
    · exact callsNothing_of_instantiate (hf _ _ hchild) hinstantiate entry hnew

theorem isExpanded_of_expandDocument {f : Text → Except Error Object}
    (hf : ∀ path child, f path = .ok child → HasOwnJobs child) {value : Json} {result : Object}
    (h : expandDocument file f value = .ok result) : IsExpanded result := by
  obtain ⟨fields, jobs, placed, rewired, rfl, -, hplaced, hrewired, hresult⟩ := expandDocument_stages h
  have hplacedOwn : placed.IsExpanded :=
    foldlM_induction (motive := fun _ placed => placed.IsExpanded) hplaced
      ⟨List.nodup_nil, by simp⟩ fun _ _ _ _ _ _ hseen hstep => (placeJob_eq_ok.mp hstep).isExpanded hf hseen
  have hown : HasOwnJobs (fields.insert "jobs" (.object rewired)) :=
    ⟨rewired, Object.get?_insert_self fields "jobs" _, callsNothing_of_rewireJobs hplacedOwn.own hrewired⟩
  have hnames : HasJobs (fields.insert "jobs" (.object rewired)) placed.jobs.keys :=
    ⟨rewired, Object.get?_insert_self fields "jobs" _, keys_rewireJobs hrewired⟩
  -- the last pass adds no call and keeps the names
  obtain ⟨result', heq, jobs', hjobs', hown'⟩ := hown.substitute hresult
  obtain ⟨result'', heq', jobs'', hjobs'', hkeys⟩ := hnames.substitute hresult
  obtain rfl := Json.object.inj heq
  obtain rfl := Json.object.inj heq'
  obtain rfl := Json.object.inj (Option.some.inj (hjobs'.symm.trans hjobs''))
  refine ⟨jobs', hjobs', ?_, hown'⟩
  rw [Object.Distinct, hkeys]
  exact hplacedOwn.distinct

theorem isExpanded_of_expandFrom {opened : List Text} {result : Object}
    (h : expandFrom library opened file = .ok result) : IsExpanded result := by
  induction opened, file using expandFrom.induct library generalizing result with
  | case1 opened file name => exact absurd ‹name ∈ opened› (expandFrom_eq_ok.mp h).1
  | case2 opened file name _ error =>
    rename_i hload
    obtain ⟨-, document, hdocument, -⟩ := expandFrom_eq_ok.mp h
    rw [hload] at hdocument
    cases hdocument
  | case3 opened file name _ document hload =>
    rename_i ih
    obtain ⟨-, document', hdocument, hexpand⟩ := expandFrom_eq_ok.mp h
    obtain rfl : document = document' := Except.ok.inj (hload.symm.trans hdocument)
    refine isExpanded_of_expandDocument (fun path child hchild => ?_) hexpand
    obtain ⟨jobs, hjobs, -, hown⟩ := ih path hchild
    exact ⟨jobs, hjobs, hown⟩

/-! ## Expanding once more -/

/-- Jobs that call nothing are placed as they are. -/
theorem foldlM_placeJob {declared : Object} {f : Text → Except Error Object} {jobs : Object}
    (hown : ∀ entry ∈ jobs, CallsNothing entry.2) (placed : Placed) :
    jobs.foldlM (placeJob file declared f) placed
      = .ok { placed with jobs := placed.jobs.insertAll jobs } := by
  induction jobs generalizing placed with
  | nil => rfl
  | cons entry rest ih =>
    obtain ⟨name, value⟩ := entry
    obtain ⟨⟨job, hjob, hnone⟩, hrest⟩ := List.forall_mem_cons.mp hown
    have hjob : value = .object job := hjob
    subst hjob
    rw [List.foldlM_cons, placeJob_eq_ok.mpr (.own hnone)]
    exact ih hrest _

/-- Nothing is substituted for no outputs. -/
theorem substitute_nil (value : Json) : Binding.substitute [] value = .ok value := by
  have hsame : ∀ text ∈ value.leaves,
      Json.leafResult (fun text => (Renaming.applyToTemplate [] text).map fun new => some (.string new)) text
        = .ok (.string text) := by
    intro text _
    rfl
  exact (Json.mapStrings_eq_self_iff value).mpr hsame

theorem expandDocument_of_isExpanded (h : IsExpanded document) (f : Text → Except Error Object) :
    expandDocument file f (.object document) = .ok document := by
  obtain ⟨jobs, hjobs, hd, hown⟩ := h
  have hplaced : jobs.foldlM (placeJob file jobs f) {} = .ok { jobs } := by
    have hall : Object.insertAll [] jobs = jobs := Object.insertAll_eq_append hd (by simp [Object.keys])
    rw [foldlM_placeJob hown]
    show Except.ok { jobs := Object.insertAll [] jobs : Placed } = .ok { jobs }
    rw [hall]
  refine bind_eq_ok.mpr ⟨document, rfl, bind_eq_ok.mpr ⟨_, Object.require_eq_ok.mpr hjobs, ?_⟩⟩
  refine bind_eq_ok.mpr ⟨jobs, rfl, bind_eq_ok.mpr ⟨_, hplaced, bind_eq_ok.mpr ⟨jobs, rfl, ?_⟩⟩⟩
  refine bind_eq_ok.mpr ⟨.object document, ?_, rfl⟩
  rw [Object.insert_eq_self hjobs]
  exact substitute_nil (.object document)

/-- A document that calls nothing is its own expansion. -/
theorem expand_of_isExpanded (h : IsExpanded document) (hload : library.load file = .ok (.object document)) :
    expand library file = .ok document := by
  rw [expand, expandFrom_of_load_eq_ok List.not_mem_nil hload]
  exact expandDocument_of_isExpanded h _

end CachedWorkflow
