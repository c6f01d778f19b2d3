import CachedWorkflow.Pipeline.Expansion
import CachedWorkflow.Proofs.Pipeline.CallSite

/-!
# Proofs: expanding call sites

Expansion is a splicing of needs graphs: the graph of the expanded document is made from that of the
document and those of the children. The invariant of the pass over the jobs (`Placing`) says so for the
jobs that have been placed. With what is known of splicing, the expanded document refines the document
(`expand_refines`).
-/

namespace CachedWorkflow

open Relation

/-! ## What a child is does not depend on its callers -/

section

variable {library : Library} {file : Text} {f g : Text → Except Error Object}

/-- A step of the pass over the jobs: a job that calls nothing is placed as it is, and a call site gives
place to the jobs of its expanded child. -/
inductive Places (file : Text) (declared : Object) (f : Text → Except Error Object) (placed : Placed) :
    Text × Json → Placed → Prop where
  | own {name : Text} {job : Object} : job.get? callProperty = none →
      Places file declared f placed (name, .object job)
        { placed with jobs := placed.jobs.insert name (.object job) }
  | site {name target : Text} {job child spliced : Object} {site : CallSite} :
      job.get? callProperty = some (.string target) → f (calledPath file target) = .ok child →
      instantiate name (file ++ ":jobs." ++ name) (calledPath file target)
        (declared.keys ++ placed.jobs.keys) job child = .ok (spliced, site) →
      Places file declared f placed (name, .object job)
        { jobs := placed.jobs.insertAll spliced, sites := placed.sites ++ [site] }

theorem placeJob_eq_ok {declared : Object} {placed placed' : Placed} {entry : Text × Json} :
    placeJob file declared f placed entry = .ok placed' ↔ Places file declared f placed entry placed' := by
  constructor
  · intro h
    obtain ⟨name, value⟩ := entry
    unfold placeJob at h
    obtain ⟨job, hjob, hcase⟩ := bind_eq_ok.mp h
    obtain rfl := Json.asObject_eq_ok.mp hjob
    cases hcall : Object.get? job callProperty with
    | none =>
      rw [hcall] at hcase
      cases hcase
      exact .own hcall
    | some target =>
      rw [hcall] at hcase
      obtain ⟨text, htext, hcase⟩ := bind_eq_ok.mp hcase
      obtain ⟨child, hchild, hcase⟩ := bind_eq_ok.mp hcase
      obtain ⟨⟨spliced, site⟩, hinstance, hcase⟩ := bind_eq_ok.mp hcase
      cases hcase
      obtain rfl := Json.asString_eq_ok.mp htext
      exact .site hcall hchild hinstance
  · rintro (hcall | ⟨hcall, hchild, hinstance⟩)
    · unfold placeJob
      refine bind_eq_ok.mpr ⟨_, Json.asObject_eq_ok.mpr rfl, ?_⟩
      rw [hcall]
    · unfold placeJob
      refine bind_eq_ok.mpr ⟨_, Json.asObject_eq_ok.mpr rfl, ?_⟩
      rw [hcall]
      exact bind_eq_ok.mpr ⟨_, Json.asString_eq_ok.mpr rfl, bind_eq_ok.mpr ⟨_, hchild,
        bind_eq_ok.mpr ⟨_, hinstance, rfl⟩⟩⟩

theorem Places.mono (hfg : ∀ path child, f path = .ok child → g path = .ok child)
    {declared : Object} {placed placed' : Placed} {entry : Text × Json}
    (h : Places file declared f placed entry placed') :
    Places file declared g placed entry placed' := by
  cases h with
  | own hcall => exact .own hcall
  | site hcall hchild hinstance => exact .site hcall (hfg _ _ hchild) hinstance

theorem expandDocument_mono (hfg : ∀ path child, f path = .ok child → g path = .ok child)
    {document : Json} {result : Object} (h : expandDocument file f document = .ok result) :
    expandDocument file g document = .ok result := by
  unfold expandDocument at h ⊢
  obtain ⟨fields, hfields, h⟩ := bind_eq_ok.mp h
  obtain ⟨value, hvalue, h⟩ := bind_eq_ok.mp h
  obtain ⟨jobs, hjobs, h⟩ := bind_eq_ok.mp h
  obtain ⟨placed, hplaced, h⟩ := bind_eq_ok.mp h
  have hplaced' : jobs.foldlM (placeJob file jobs g) {} = .ok placed :=
    foldlM_mono (fun _ _ _ hstep => placeJob_eq_ok.mpr ((placeJob_eq_ok.mp hstep).mono hfg)) hplaced
  exact bind_eq_ok.mpr ⟨fields, hfields, bind_eq_ok.mpr ⟨value, hvalue,
    bind_eq_ok.mpr ⟨jobs, hjobs, bind_eq_ok.mpr ⟨placed, hplaced', h⟩⟩⟩⟩

/-- The stages that a document goes through when it is expanded. -/
theorem expandDocument_stages {document : Json} {result : Object}
    (h : expandDocument file f document = .ok result) :
    ∃ (fields jobs : Object) (placed : Placed) (rewired : Object), document = .object fields ∧
      fields.get? "jobs" = some (.object jobs) ∧
      jobs.foldlM (placeJob file jobs f) {} = .ok placed ∧
      rewireJobs placed.sites placed.jobs = .ok rewired ∧
      (outputsBinding placed.sites).substitute (.object (fields.insert "jobs" (.object rewired)))
        = .ok (.object result) := by
  unfold expandDocument at h
  obtain ⟨fields, hfields, h⟩ := bind_eq_ok.mp h
  obtain ⟨value, hvalue, h⟩ := bind_eq_ok.mp h
  obtain ⟨jobs, hjobs, h⟩ := bind_eq_ok.mp h
  obtain ⟨placed, hplaced, h⟩ := bind_eq_ok.mp h
  obtain ⟨rewired, hrewired, h⟩ := bind_eq_ok.mp h
  obtain ⟨document', hsubstitute, hresult⟩ := bind_eq_ok.mp h
  obtain rfl := Json.asObject_eq_ok.mp hresult
  rw [Json.asObject_eq_ok.mp hjobs] at hvalue
  exact ⟨fields, jobs, placed, rewired, Json.asObject_eq_ok.mp hfields,
    Object.require_eq_ok.mp hvalue, hplaced, hrewired, hsubstitute⟩

/-! What becomes of a document, by whether it is open and can be loaded. -/

theorem expandFrom_of_mem {opened : List Text} (h : Path.normalize file ∈ opened) :
    expandFrom library opened file = .error (.cycle
      (opened.dropWhile (· ≠ Path.normalize file) ++ [Path.normalize file])) := by
  rw [expandFrom, dif_pos h]

theorem expandFrom_of_load_eq_error {opened : List Text} {error : Error}
    (hopened : Path.normalize file ∉ opened) (h : library.load file = .error error) :
    expandFrom library opened file = .error error := by
  rw [expandFrom, dif_neg hopened]
  split
  · next hload =>
    rw [h] at hload
    cases hload
    rfl
  · next hload =>
    rw [h] at hload
    cases hload

theorem expandFrom_of_load_eq_ok {opened : List Text} {document : Json}
    (hopened : Path.normalize file ∉ opened) (h : library.load file = .ok document) :
    expandFrom library opened file
      = expandDocument file (expandFrom library (opened ++ [Path.normalize file])) document := by
  rw [expandFrom, dif_neg hopened]
  split
  · next hload =>
    rw [h] at hload
    cases hload
  · next hload =>
    rw [h] at hload
    cases hload
    rfl

/-- What it takes to expand a document: it is not open, it can be loaded, and then it and the documents
that it calls can be expanded. -/
theorem expandFrom_eq_ok {opened : List Text} {result : Object} :
    expandFrom library opened file = .ok result ↔
      Path.normalize file ∉ opened ∧ ∃ document, library.load file = .ok document ∧
        expandDocument file (expandFrom library (opened ++ [Path.normalize file])) document
          = .ok result := by
  by_cases hopened : Path.normalize file ∈ opened
  · simp [expandFrom_of_mem hopened, hopened]
  · cases hload : library.load file with
    | error error => simp [expandFrom_of_load_eq_error hopened hload]
    | ok document => simp [expandFrom_of_load_eq_ok hopened hload, hopened]

/-- A document that is expanded while others are open is expanded alike while fewer are. -/
theorem expandFrom_of_subset {opened opened' : List Text} (hsub : opened' ⊆ opened) {result : Object}
    (h : expandFrom library opened file = .ok result) :
    expandFrom library opened' file = .ok result := by
  -- by the recursion of expansion: the documents that are called are expanded with more open
  induction opened, file using expandFrom.induct library generalizing opened' result with
  | case1 opened file name => exact absurd ‹name ∈ opened› (expandFrom_eq_ok.mp h).1
  | case2 opened file name _ error =>
    rename_i hload
    obtain ⟨-, document, hdocument, -⟩ := expandFrom_eq_ok.mp h
    rw [hload] at hdocument
    cases hdocument
  | case3 opened file name _ document hload =>
    rename_i ih
    obtain ⟨hopened, document', hdocument, hexpand⟩ := expandFrom_eq_ok.mp h
    refine expandFrom_eq_ok.mpr ⟨fun hmem => hopened (hsub hmem), document', hdocument, ?_⟩
    refine expandDocument_mono (fun path child hchild => ?_) hexpand
    refine ih path (fun other hother => ?_) hchild
    rcases List.mem_append.mp hother with hother | hother
    · exact List.mem_append_left _ (hsub hother)
    · exact List.mem_append_right _ hother

end

/-! ## The needs of the call site -/

/-- The graph in which the jobs that need nothing get the given needs. -/
def Wiring.hung (needed : List Text) (w : Wiring) : Wiring :=
  w.map fun node => (node.1, if node.2.isEmpty then needed else node.2)

theorem childJob_eq_ok {path : Text} {siteNeeds siteNeeded : List Text}
    (hsite : List.Forall₂ NamesJob siteNeeds siteNeeded) {entry entry' : Text × Json}
    {needed : List Text} (hneeds : NeedsJobs entry.2 needed)
    (h : childJob path siteNeeds entry = .ok entry') :
    entry'.1 = entry.1 ∧ NeedsJobs entry'.2 (if needed.isEmpty then siteNeeded else needed) := by
  obtain ⟨name, value⟩ := entry
  obtain ⟨fields, needs, rfl, hread, hnames⟩ := hneeds
  replace h := eq_ok_of_bind (Json.asObject_eq_ok.mpr rfl) h
  have hempty : needed.isEmpty = needs.isEmpty := by
    cases hnames <;> rfl
  rw [hempty]
  by_cases hnone : siteNeeds.isEmpty = true
  · rw [if_pos hnone] at h
    cases h
    refine ⟨rfl, fields, needs, rfl, hread, ?_⟩
    by_cases hneeds : needs.isEmpty = true
    · -- neither needs anything
      obtain rfl := List.isEmpty_iff.mp hnone
      obtain rfl := List.isEmpty_iff.mp hneeds
      cases hsite
      exact .nil
    · rw [if_neg hneeds]
      exact hnames
  · rw [if_neg hnone] at h
    replace h := eq_ok_of_bind (readNeeds_congr hread) h
    by_cases hneeds : needs.isEmpty = true
    · rw [if_pos hneeds] at h
      cases h
      rw [if_pos hneeds]
      exact ⟨rfl, _, siteNeeds, rfl, readNeeds_insert fields siteNeeds, hsite⟩
    · rw [if_neg hneeds] at h
      cases h
      rw [if_neg hneeds]
      exact ⟨rfl, fields, needs, rfl, hread, hnames⟩

/-- The jobs of a child that need nothing get the needs of the call site. -/
theorem hasWiring_childJobs {path : Text} {siteNeeds siteNeeded : List Text}
    (hsite : List.Forall₂ NamesJob siteNeeds siteNeeded) {jobs jobs' : Object} {w : Wiring}
    (hw : HasWiring jobs w)
    (h : List.Forall₂ (fun entry entry' => childJob path siteNeeds entry = .ok entry') jobs jobs') :
    HasWiring jobs' (w.hung siteNeeded) :=
  hw.map (fun _ _ _ hneeds hentry => childJob_eq_ok hsite hneeds hentry) h

/-! ## One call site -/

theorem isJobIdChar_of_mem_lead {name lead : Text} (hname : IsName name) {n : Nat}
    (h : lead = name ++ List.replicate (n + 1) '-') : ∀ c ∈ lead, isJobIdChar c = true := by
  intro c hc
  rw [h] at hc
  rcases List.mem_append.mp hc with hc | hc
  · exact hname.chars c hc
  · rw [List.eq_of_mem_replicate hc]
    decide

/-- The stages that an expanded child goes through when it takes the place of a call site. -/
theorem instantiate_stages {name location path : Text} {taken : List Text} {job child spliced : Object}
    {site : CallSite} (h : instantiate name location path taken job child = .ok (spliced, site)) :
    ∃ (renamed inputs bound jobs : Object) (needs : List Text),
      addPrefix (freshPrefix taken name) path child = .ok renamed ∧
      boundInputs name path job renamed = .ok inputs ∧
      (Binding.ofInputs inputs).substitute (.object renamed) = .ok (.object bound) ∧
      bound.get? "jobs" = some (.object jobs) ∧ readNeeds job location = .ok needs ∧
      jobs.mapM (childJob path needs) = .ok spliced ∧
      site = ⟨name, spliced.keys, ((callInterface bound).bind (·.get? "outputs")).getD .null⟩ := by
  unfold instantiate at h
  obtain ⟨renamed, hrenamed, h⟩ := bind_eq_ok.mp h
  obtain ⟨inputs, hinputs, h⟩ := bind_eq_ok.mp h
  obtain ⟨value, hvalue, h⟩ := bind_eq_ok.mp h
  obtain ⟨bound, hbound, hrest⟩ := bind_eq_ok.mp h
  obtain rfl := Json.asObject_eq_ok.mp hbound
  obtain ⟨needs, hneeds, hrest⟩ := bind_eq_ok.mp hrest
  obtain ⟨declared, hdeclared, hrest⟩ := bind_eq_ok.mp hrest
  obtain ⟨jobs, hjobs, hrest⟩ := bind_eq_ok.mp hrest
  obtain ⟨result, hresult, hrest⟩ := bind_eq_ok.mp hrest
  cases hrest
  rw [Json.asObject_eq_ok.mp hjobs] at hdeclared
  exact ⟨renamed, inputs, bound, jobs, needs, hrenamed, hinputs, hvalue,
    Object.require_eq_ok.mp hdeclared, hneeds, hresult, rfl⟩

/-- The child of a call site, as it is put in its place: with the prefix before its names, and the needs
of the call site for the jobs that need nothing. -/
theorem instantiate_eq_ok {name location path : Text} {taken : List Text} {job child spliced : Object}
    {site : CallSite} {w : Wiring} {needed : List Text} (hchild : IsWired child w) (hsound : w.Sound)
    (hname : IsName name) (hneeds : NeedsJobs (.object job) needed)
    (h : instantiate name location path taken job child = .ok (spliced, site)) :
    site.name = name ∧ site.jobs = spliced.keys ∧
      HasWiring spliced ((w.prefixed (freshPrefix taken name)).hung needed) := by
  obtain ⟨n, hlead⟩ := exists_freshPrefix_eq taken name
  obtain ⟨job', needs, hjob', hread, hnames⟩ := hneeds
  obtain rfl := Json.object.inj hjob'
  obtain ⟨renamed, inputs, bound, jobs, needs', hrenamed, -, hvalue, hjobs, hneeds, hresult, rfl⟩ :=
    instantiate_stages h
  obtain rfl := Except.ok.inj ((readNeeds_congr hread).symm.trans hneeds)
  have hprefixed := addPrefix_isWired hchild hsound (isJobIdChar_of_mem_lead hname hlead) hrenamed
  obtain ⟨bound', heq, jobs', hjobs', hw⟩ := hprefixed.substitute (isForeign_inputs _) hvalue
  obtain rfl := Json.object.inj heq
  obtain rfl := Json.object.inj (Option.some.inj (hjobs.symm.trans hjobs'))
  exact ⟨rfl, rfl, hasWiring_childJobs hnames hw (mapM_eq_ok.mp hresult)⟩

/-! ## The pass over the jobs -/

namespace Splicing

/-- What a job of the document turns into before needs are rewired. -/
def settle (s : Splicing) (node : Text × List Text) : Wiring :=
  match s.child node.1 with
  | none => [node]
  | some w => (w.prefixed (s.lead node.1)).hung node.2

theorem settle_own {s : Splicing} {job : Text} {needed : List Text} (h : s.child job = none) :
    s.settle (job, needed) = [(job, needed)] := by
  unfold settle
  rw [h]

theorem settle_site {s : Splicing} {job : Text} {needed : List Text} {w : Wiring}
    (h : s.child job = some w) :
    s.settle (job, needed) = (w.prefixed (s.lead job)).hung needed := by
  unfold settle
  rw [h]

theorem names_settle (s : Splicing) (node : Text × List Text) :
    (s.settle node).names = s.spliced node.1 := by
  obtain ⟨job, needed⟩ := node
  cases hchild : s.child job with
  | none =>
    rw [settle_own hchild, spliced_own hchild]
    rfl
  | some w =>
    rw [settle_site hchild, spliced_site hchild, Wiring.names, Wiring.hung, Wiring.prefixed,
      List.map_map, List.map_map, Wiring.names, List.map_map]
    rfl

theorem names_flatMap_settle (s : Splicing) (w : Wiring) :
    Wiring.names (w.flatMap s.settle) = w.names.flatMap s.spliced := by
  rw [Wiring.names, List.map_flatMap, Wiring.names, List.flatMap_map]
  exact List.flatMap_congr fun node _ => s.names_settle node

end Splicing

/-- The graphs of the children of a document: a job that calls nothing has none, and that of a call site
is the graph of the pipeline that it calls, expanded on its own, which has at least one job. -/
structure HasChildren (library : Library) (file : Text) (jobs : Object)
    (children : Text → Option Wiring) : Prop where
  own : ∀ name fields, (name, .object fields) ∈ jobs → Object.get? fields callProperty = none →
    children name = none
  site : ∀ name fields target child, (name, .object fields) ∈ jobs →
    Object.get? fields callProperty = some (.string target) →
    expand library (calledPath file target) = .ok child →
    ∃ w, children name = some w ∧ IsWired child w ∧ w.Sound ∧ w ≠ []

/-- What is known when some jobs of a document have been placed: the placed jobs make the graph that
these jobs turn into, the call sites among them are recorded, their children are sound, and the names from
children are none of the names of the document. -/
structure Placing (s : Splicing) (seen : Wiring) (placed : Placed) : Prop where
  jobs : HasWiring placed.jobs (seen.flatMap s.settle)
  distinct : placed.jobs.Distinct
  sites : ∀ site ∈ placed.sites, site.name ∈ seen.names ∧ ∃ w, s.child site.name = some w ∧
    site.jobs = s.spliced site.name
  mem_sites : ∀ node ∈ seen, (∃ w, s.child node.1 = some w) → ∃ site ∈ placed.sites, site.name = node.1
  sound : ∀ name ∈ seen.names, ∀ w, s.child name = some w → w.Sound ∧ w ≠ []
  leads : ∀ name ∈ seen.names, ∃ n, s.lead name = name ++ List.replicate (n + 1) '-'
  fresh : ∀ name ∈ seen.names, ∀ w, s.child name = some w →
    ∀ job ∈ w.names, s.lead name ++ job ∉ s.outer.names

section

variable {library : Library} {file : Text} {jobs : Object} {s : Splicing} {seen rest : Wiring}
  {placed placed' : Placed} {name : Text} {needed : List Text}

theorem Placing.keys (h : Placing s seen placed) : placed.jobs.keys = seen.names.flatMap s.spliced := by
  rw [← h.jobs.names, s.names_flatMap_settle]

/-- The next job of the document has a new name. -/
theorem Placing.not_mem_keys (h : Placing s seen placed) (hs : s.outer.Sound)
    (hsplit : s.outer = seen ++ (name, needed) :: rest) : name ∉ placed.jobs.keys := by
  have hnodup := hs.nodup
  rw [hsplit, Wiring.names, List.map_append, List.map_cons] at hnodup
  have houter : name ∈ s.outer.names := by
    rw [hsplit]
    exact Wiring.mem_names.mpr ⟨needed, List.mem_append_right _ List.mem_cons_self⟩
  intro hmem
  rw [h.keys, List.mem_flatMap] at hmem
  obtain ⟨other, hother, hname⟩ := hmem
  cases hchild : s.child other with
  | none =>
    rw [Splicing.spliced_own hchild] at hname
    obtain rfl := List.mem_singleton.mp hname
    exact (List.nodup_append.mp hnodup).2.2 name hother name List.mem_cons_self rfl
  | some w =>
    rw [Splicing.spliced_site hchild] at hname
    obtain ⟨job, hjob, rfl⟩ := List.mem_map.mp hname
    exact h.fresh other hother w hchild job hjob houter

theorem Wiring.names_append_singleton (seen : Wiring) (name : Text) (needed : List Text) :
    Wiring.names (seen ++ [(name, needed)]) = seen.names ++ [name] := by
  rw [names, names, List.map_append]
  rfl

theorem Wiring.forall_mem_names_append_singleton {p : Text → Prop} :
    (∀ other ∈ Wiring.names (seen ++ [(name, needed)]), p other) ↔
      (∀ other ∈ seen.names, p other) ∧ p name := by
  rw [Wiring.names_append_singleton, List.forall_mem_append, List.forall_mem_singleton]

/-- A job that calls nothing is placed as it is. -/
theorem Placing.step_own (h : Placing s seen placed) (hs : s.outer.Sound)
    (hsplit : s.outer = seen ++ (name, needed) :: rest) (hchild : s.child name = none)
    {job : Object} (hneeds : NeedsJobs (.object job) needed) (hlead : ∃ n, s.lead name
      = name ++ List.replicate (n + 1) '-') : Placing s (seen ++ [(name, needed)])
      { placed with jobs := placed.jobs.insert name (.object job) } := by
  have hnew := h.not_mem_keys hs hsplit
  have hnone : ∀ w, s.child name ≠ some w := by
    intro w hw
    rw [hchild] at hw
    cases hw
  refine ⟨?_, h.distinct.insert name (.object job), ?_, ?_, ?_, ?_, ?_⟩
  · rw [Object.insert_of_not_mem hnew, List.flatMap_append, List.flatMap_singleton,
      Splicing.settle_own hchild]
    exact List.rel_append h.jobs (.cons ⟨rfl, hneeds⟩ .nil)
  · intro site hsite
    obtain ⟨hmem, hjobs⟩ := h.sites site hsite
    rw [Wiring.names_append_singleton]
    exact ⟨List.mem_append_left _ hmem, hjobs⟩
  · rw [List.forall_mem_append, List.forall_mem_singleton]
    exact ⟨h.mem_sites, fun ⟨w, hw⟩ => absurd hw (hnone w)⟩
  · rw [Wiring.forall_mem_names_append_singleton]
    exact ⟨h.sound, fun w hw => absurd hw (hnone w)⟩
  · rw [Wiring.forall_mem_names_append_singleton]
    exact ⟨h.leads, hlead⟩
  · rw [Wiring.forall_mem_names_append_singleton]
    exact ⟨h.fresh, fun w hw => absurd hw (hnone w)⟩

/-- What has been placed does not depend on the prefix of a job that has not. -/
theorem Placing.congr (h : Placing s seen placed) {lead : Text → Text}
    (hlead : ∀ name ∈ seen.names, lead name = s.lead name) : Placing { s with lead } seen placed := by
  have hspliced : ∀ name ∈ seen.names, Splicing.spliced { s with lead } name = s.spliced name := by
    intro name hname
    unfold Splicing.spliced
    simp only [hlead name hname]
  have hsettle : ∀ node ∈ seen, Splicing.settle { s with lead } node = s.settle node := by
    intro node hnode
    unfold Splicing.settle
    simp only [hlead node.1 (Wiring.mem_names.mpr ⟨node.2, hnode⟩)]
  refine ⟨?_, h.distinct, ?_, h.mem_sites, h.sound, ?_, ?_⟩
  · rw [List.flatMap_congr hsettle]
    exact h.jobs
  · intro site hsite
    obtain ⟨hmem, w, hw, hjobs⟩ := h.sites site hsite
    exact ⟨hmem, w, hw, hjobs.trans (hspliced site.name hmem).symm⟩
  · intro name hname
    show ∃ n, lead name = _
    rw [hlead name hname]
    exact h.leads name hname
  · intro name hname w hw job hjob
    show lead name ++ job ∉ _
    rw [hlead name hname]
    exact h.fresh name hname w hw job hjob

/-- The jobs of a child are placed with a prefix that is new. -/
theorem Placing.step_site (h : Placing s seen placed) {w : Wiring} (hchild : s.child name = some w)
    (hsound : w.Sound) (hne : w ≠ []) (hlead : s.lead name = freshPrefix (s.outer.names ++ placed.jobs.keys) name)
    {spliced : Object} {site : CallSite} (hname : site.name = name) (hjobs : site.jobs = spliced.keys)
    (hspliced : HasWiring spliced (s.settle (name, needed))) :
    Placing s (seen ++ [(name, needed)])
      { jobs := placed.jobs.insertAll spliced, sites := placed.sites ++ [site] } := by
  have hnames : spliced.keys = s.spliced name := by
    rw [← hspliced.names, s.names_settle]
  have hkeys : spliced.keys = w.names.map (s.lead name ++ ·) := by
    rw [hnames, Splicing.spliced_site hchild]
  have hdistinct : Object.Distinct spliced := by
    unfold Object.Distinct
    rw [hkeys]
    exact hsound.nodup.map fun a b hab => List.append_cancel_left hab
  have hfresh : ∀ job, s.lead name ++ job ∉ s.outer.names ++ placed.jobs.keys := by
    intro job hmem
    have hnot := @not_freshPrefix_isPrefix _ name _ hmem
    rw [← hlead] at hnot
    exact hnot (List.prefix_append _ _)
  have hnew : ∀ key ∈ spliced.keys, key ∉ placed.jobs.keys := by
    intro key hkey
    rw [hkeys] at hkey
    obtain ⟨job, -, rfl⟩ := List.mem_map.mp hkey
    exact fun hmem => hfresh job (List.mem_append_right _ hmem)
  have hinsert := Object.insertAll_eq_append hdistinct hnew
  refine ⟨?_, ?_, ?_, ?_, ?_, ?_, ?_⟩
  · rw [hinsert, List.flatMap_append, List.flatMap_singleton]
    exact List.rel_append h.jobs hspliced
  · rw [hinsert]
    unfold Object.Distinct
    rw [Object.keys_append]
    refine List.nodup_append.mpr ⟨h.distinct, hdistinct, ?_⟩
    rintro key hkey _ hkey' rfl
    exact hnew key hkey' hkey
  · rw [List.forall_mem_append, List.forall_mem_singleton, Wiring.names_append_singleton, hname]
    refine ⟨fun other hother => ?_, ?_⟩
    · obtain ⟨hmem, hjobs'⟩ := h.sites other hother
      exact ⟨List.mem_append_left _ hmem, hjobs'⟩
    · exact ⟨List.mem_append_right _ (List.mem_singleton_self name), w, hchild, hjobs.trans hnames⟩
  · rw [List.forall_mem_append, List.forall_mem_singleton]
    refine ⟨fun node hnode hsome => ?_, fun _ => ?_⟩
    · obtain ⟨other, hother, heq⟩ := h.mem_sites node hnode hsome
      exact ⟨other, List.mem_append_left _ hother, heq⟩
    · exact ⟨site, List.mem_append_right _ (List.mem_singleton_self site), hname⟩
  · rw [Wiring.forall_mem_names_append_singleton]
    refine ⟨h.sound, fun v hv => ?_⟩
    obtain rfl := Option.some.inj (hchild.symm.trans hv)
    exact ⟨hsound, hne⟩
  · rw [Wiring.forall_mem_names_append_singleton, hlead]
    exact ⟨h.leads, exists_freshPrefix_eq _ name⟩
  · rw [Wiring.forall_mem_names_append_singleton]
    exact ⟨h.fresh, fun _ _ job _ hmem => hfresh job (List.mem_append_left _ hmem)⟩

/-- A step of the pass, which gives the next job its prefix. -/
theorem Placing.exists_step (h : Placing s seen placed) (hs : s.outer.Sound)
    (hkeys : s.outer.names = jobs.keys) (hchildren : HasChildren library file jobs s.child)
    {f : Text → Except Error Object} (hf : ∀ path child, f path = .ok child →
      expand library path = .ok child)
    (hsplit : s.outer = seen ++ (name, needed) :: rest) {value : Json} (hmem : (name, value) ∈ jobs)
    (hneeds : NeedsJobs value needed) (hplace : placeJob file jobs f placed (name, value) = .ok placed') :
    ∃ lead, Placing { s with lead } (seen ++ [(name, needed)]) placed' := by
  have hname : name ∈ s.outer.names := hkeys ▸ Object.mem_keys_of_mem hmem
  have hseen : ∀ other ∈ seen.names, other ≠ name := by
    have hnodup := hs.nodup
    rw [hsplit, Wiring.names, List.map_append, List.map_cons] at hnodup
    intro other hother
    exact (List.nodup_append.mp hnodup).2.2 other hother name List.mem_cons_self
  -- the prefixes so far, and the one of this job
  let lead := fun other =>
    if other = name then freshPrefix (s.outer.names ++ placed.jobs.keys) name else s.lead other
  have hlead : lead name = freshPrefix (s.outer.names ++ placed.jobs.keys) name := if_pos rfl
  have hcongr : Placing { s with lead } seen placed :=
    h.congr fun other hother => if_neg (hseen other hother)
  refine ⟨lead, ?_⟩
  cases placeJob_eq_ok.mp hplace with
  | @own _ job hcall =>
    refine hcongr.step_own hs hsplit (hchildren.own name job hmem hcall) hneeds ?_
    show ∃ n, lead name = _
    rw [hlead]
    exact exists_freshPrefix_eq _ name
  | @site _ text job child spliced site hcall hchild hinstance =>
    obtain ⟨w, hw, hwired, hsound, hne⟩ := hchildren.site name job text child hmem hcall
      (hf _ child hchild)
    obtain ⟨hsite, hjobs, hspliced⟩ :=
      instantiate_eq_ok hwired hsound (hs.isName name hname) hneeds hinstance
    have hsettle : Splicing.settle { s with lead } (name, needed)
        = (w.prefixed (lead name)).hung needed := Splicing.settle_site hw
    rw [← hkeys, ← hlead, ← hsettle] at hspliced
    exact hcongr.step_site hw hsound hne hlead hsite hjobs hspliced

/-- The pass over all jobs. -/
theorem exists_placing (hs : s.outer.Sound) (hkeys : s.outer.names = jobs.keys)
    (hchildren : HasChildren library file jobs s.child) {f : Text → Except Error Object}
    (hf : ∀ path child, f path = .ok child → expand library path = .ok child)
    {entries : Object} (hentries : HasWiring entries rest) (hmem : ∀ entry ∈ entries, entry ∈ jobs)
    (hsplit : s.outer = seen ++ rest) (h : Placing s seen placed)
    (hplace : entries.foldlM (placeJob file jobs f) placed = .ok placed') :
    ∃ lead, Placing { s with lead } s.outer placed' := by
  obtain ⟨outer, child, lead⟩ := s
  unfold HasWiring at hentries
  induction hentries generalizing lead seen placed with
  | nil =>
    cases hplace
    obtain rfl : outer = seen := hsplit.trans (List.append_nil seen)
    exact ⟨lead, h⟩
  | @cons entry node entries rest hentry _ ih =>
    obtain ⟨name, value⟩ := entry
    obtain ⟨name', needed⟩ := node
    obtain ⟨rfl, hneeds⟩ : name = name' ∧ NeedsJobs value needed := hentry
    rw [List.foldlM_cons, bind_eq_ok] at hplace
    obtain ⟨between, hstep, hplace⟩ := hplace
    obtain ⟨lead', hnext⟩ := h.exists_step hs hkeys hchildren hf hsplit
      (hmem _ List.mem_cons_self) hneeds hstep
    have hsplit' : outer = (seen ++ [(name, needed)]) ++ rest := by
      rw [List.append_assoc, List.singleton_append]
      exact hsplit
    exact ih (fun other hother => hmem other (List.mem_cons_of_mem _ hother)) hplace lead' hs hkeys
      hchildren hsplit' hnext

theorem Placing.nil : Placing s [] {} :=
  ⟨.nil, List.nodup_nil, (fun _ h => nomatch h), (fun _ h => nomatch h), (fun _ h => nomatch h),
    (fun _ h => nomatch h), (fun _ h => nomatch h)⟩

/-! ## The whole document -/

/-- Rewiring makes of the placed jobs what they are spliced into. -/
theorem Placing.rewired_eq (h : Placing s s.outer placed) (hname : name ∈ s.outer.names) :
    rewired placed.sites name = s.spliced name := by
  unfold rewired
  cases hfind : placed.sites.find? (·.name == name) with
  | some site =>
    have heq : site.name = name := by simpa using List.find?_some hfind
    obtain ⟨-, w, hw, hjobs⟩ := h.sites site (List.mem_of_find?_eq_some hfind)
    show site.jobs = _
    rw [hjobs, heq]
  | none =>
    have hnone : s.child name = none := by
      rw [Option.eq_none_iff_forall_ne_some]
      intro w hw
      obtain ⟨needed, hnode⟩ := Wiring.mem_names.mp hname
      obtain ⟨site, hsite, heq⟩ := h.mem_sites (name, needed) hnode ⟨w, hw⟩
      have hne := List.find?_eq_none.mp hfind site hsite
      exact hne (by rw [heq]; exact beq_self_eq_true name)
    rw [Splicing.spliced_own hnone]

theorem Placing.rewired_of_not_mem (h : Placing s s.outer placed) (hname : name ∉ s.outer.names) :
    rewired placed.sites name = [name] := by
  refine rewired_eq_self (List.any_eq_false.mpr fun site hsite heq => ?_)
  obtain ⟨hmem, -⟩ := h.sites site hsite
  rw [beq_iff_eq.mp heq] at hmem
  exact hname hmem

/-- The placed jobs with their needs rewired make the spliced graph. -/
theorem Placing.rewire_eq (h : Placing s s.outer placed) (hs : s.outer.Sound) :
    Wiring.rewire placed.sites (s.outer.flatMap s.settle) = s.result := by
  unfold Wiring.rewire Splicing.result
  rw [List.map_flatMap]
  refine List.flatMap_congr fun node hnode => ?_
  obtain ⟨name, needed⟩ := node
  have hname : name ∈ s.outer.names := Wiring.mem_names.mpr ⟨needed, hnode⟩
  have hneeded : needed.flatMap (rewired placed.sites) = needed.flatMap s.spliced := by
    refine List.flatMap_congr fun job hjob => h.rewired_eq ?_
    exact hs.closed name job ⟨needed, hnode, hjob⟩
  cases hchild : s.child name with
  | none => rw [Splicing.settle_own hchild, Splicing.place_own hchild, List.map_singleton, hneeded]
  | some w =>
    rw [Splicing.settle_site hchild, Splicing.place_site hchild, Wiring.hung, Wiring.prefixed,
      List.map_map, List.map_map]
    refine List.map_congr_left fun inner hinner => ?_
    show (s.lead name ++ inner.1, List.flatMap (rewired placed.sites)
        (if (inner.2.map (s.lead name ++ ·)).isEmpty then needed
          else inner.2.map (s.lead name ++ ·))) = (s.lead name ++ inner.1, _)
    rw [List.isEmpty_map]
    by_cases hempty : inner.2.isEmpty = true
    · rw [if_pos hempty, if_pos hempty, hneeded]
    · -- the names of a child are not those of call sites
      have hinnerNeeded : ∀ job ∈ inner.2.map (s.lead name ++ ·), rewired placed.sites job = [job] := by
        intro job hjob
        obtain ⟨other, hother, rfl⟩ := List.mem_map.mp hjob
        have hmem := (h.sound name hname w hchild).1.closed inner.1 other ⟨inner.2, hinner, hother⟩
        exact h.rewired_of_not_mem (h.fresh name hname w hchild other hmem)
      rw [if_neg hempty, if_neg hempty, List.flatMap_congr hinnerNeeded, List.flatMap_singleton']

/-- What the pass has put together is sound. -/
theorem Placing.sound_splicing (h : Placing s s.outer placed) (hs : s.outer.Sound) : s.Sound where
  outer := hs
  child := h.sound
  lead := by
    intro site hsite
    obtain ⟨n, hlead⟩ := h.leads site hsite
    exact isJobIdChar_of_mem_lead (hs.isName site hsite) hlead
  nodup := by
    rw [← h.keys]
    exact h.distinct

/-- The jobs that stand for call sites have names of jobs. -/
theorem Placing.isName_sites (h : Placing s s.outer placed) (hs : s.Sound) :
    ∀ site ∈ placed.sites, ∀ job ∈ site.jobs, IsName job := by
  intro site hsite job hjob
  obtain ⟨hname, w, hw, hjobs⟩ := h.sites site hsite
  rw [hjobs] at hjob
  refine hs.result.isName job ?_
  rw [s.names_result]
  exact List.mem_flatMap.mpr ⟨site.name, hname, hjob⟩

end

/-! ## Refinement -/

/-- What the graph of an expanded document is to the graphs that it is put together from. -/
structure Splicing.Refines (s : Splicing) (w : Wiring) : Prop where
  /-- Needs name jobs of the expanded document, and no job needs itself through others. -/
  sound : w.Sound
  /-- The jobs of a child stand in the place of its call site. -/
  names : w.names = s.outer.names.flatMap s.spliced
  /-- Every job comes from somewhere. -/
  exists_origin : ∀ name ∈ w.names, ∃ x, s.IsOrigin x ∧ s.nameOf x = name
  /-- No two jobs have one name. -/
  nameOf_inj : ∀ x y, s.IsOrigin x → s.IsOrigin y → s.nameOf x = s.nameOf y → x = y
  /-- Jobs of different owners are related as their owners are. -/
  owners : ∀ x y, s.IsOrigin x → s.IsOrigin y → x.owner ≠ y.owner →
    (w.Reaches (s.nameOf x) (s.nameOf y) ↔ s.outer.Reaches x.owner y.owner)
  /-- Jobs of one child are related as they are in the child. -/
  inner : ∀ site ∈ s.outer.names, ∀ child, s.child site = some child →
    ∀ a ∈ child.names, ∀ b ∈ child.names,
      (w.Reaches (s.nameOf (.spliced site a)) (s.nameOf (.spliced site b)) ↔ child.Reaches a b)

theorem Splicing.Sound.refines {s : Splicing} (hs : s.Sound) : s.Refines s.result where
  sound := hs.result
  names := s.names_result
  exists_origin := fun _ hname => mem_names_result.mp hname
  nameOf_inj := fun _ _ hx hy h => hs.eq_of_nameOf_eq hx hy h
  owners := fun _ _ hx hy hne => hs.reaches_owners_iff hx hy hne
  inner := fun _ hsite _ hchild _ ha _ hb => hs.reaches_inner_iff hsite hchild ha hb

/-- Expansion refines the graph of needs: the expanded document is put together from the document and
its children, where the jobs of the child of a call site get a prefix of the name of the call site and
dashes. -/
theorem expand_refines {library : Library} {file : Text} {document jobs result : Object}
    {outer : Wiring} {children : Text → Option Wiring}
    (hload : library.load file = .ok (.object document))
    (hjobs : document.get? "jobs" = some (.object jobs)) (houter : HasWiring jobs outer)
    (hsound : outer.Sound) (hchildren : HasChildren library file jobs children)
    (hexpand : expand library file = .ok result) :
    ∃ lead w, (∀ site ∈ outer.names, ∃ n, lead site = site ++ List.replicate (n + 1) '-') ∧
      IsWired result w ∧ Splicing.Refines { outer, child := children, lead } w := by
  obtain ⟨-, value, hvalue, hdocument⟩ := expandFrom_eq_ok.mp hexpand
  obtain rfl : Json.object document = value := Except.ok.inj (hload.symm.trans hvalue)
  unfold expandDocument at hdocument
  replace hdocument := eq_ok_of_bind (Json.asObject_eq_ok.mpr rfl) hdocument
  replace hdocument := eq_ok_of_bind (Object.require_eq_ok.mpr hjobs) hdocument
  replace hdocument := eq_ok_of_bind (Json.asObject_eq_ok.mpr rfl) hdocument
  obtain ⟨placed, hplaced, hdocument⟩ := bind_eq_ok.mp hdocument
  obtain ⟨rewiredJobs, hrewired, hdocument⟩ := bind_eq_ok.mp hdocument
  obtain ⟨value, hvalue, hdocument⟩ := bind_eq_ok.mp hdocument
  -- the pass over the jobs, in which the children are expanded with the document open
  have hf : ∀ path child, expandFrom library ([] ++ [Path.normalize file]) path = .ok child →
      expand library path = .ok child :=
    fun path child hchild => expandFrom_of_subset (List.nil_subset _) hchild
  obtain ⟨lead, hplacing⟩ := @exists_placing library file jobs
    { outer, child := children, lead := id } [] outer {} placed hsound houter.names hchildren _ hf jobs
    houter (fun _ hentry => hentry) rfl Placing.nil hplaced
  have hsplicing := hplacing.sound_splicing hsound
  have hwired : IsWired (document.insert "jobs" (.object rewiredJobs))
      (Splicing.result { outer, child := children, lead }) := by
    refine ⟨rewiredJobs, Object.get?_insert_self document "jobs" _, ?_⟩
    have hw := hasWiring_rewireJobs (hplacing.isName_sites hsplicing) hplacing.jobs hrewired
    rwa [hplacing.rewire_eq hsound] at hw
  have hforeign : ∀ pair ∈ outputsBinding placed.sites, IsForeign pair.1 :=
    isForeign_outputs fun site hsite => hsound.isName site.name (hplacing.sites site hsite).1
  obtain ⟨result', rfl, hresult⟩ := hwired.substitute hforeign hvalue
  obtain rfl : result' = result := Json.object.inj (Json.asObject_eq_ok.mp hdocument)
  exact ⟨lead, _, hplacing.leads, hresult, hsplicing.refines⟩

/-- The jobs of a small document: a call site between a job that it needs and one that needs it. -/
def releaseJobs : Object := [
  ("prepare", .object []),
  ("verify", .object [(callProperty, .string "verify"), ("needs", .string "prepare")]),
  ("deploy", .object [("needs", .string (Template.placeholder (jobReference "verify")))])]

/-- The jobs of the pipeline that it calls. -/
def verifyJobs : Object := [
  ("compile", .object []),
  ("test", .object [("needs", Json.ofTexts ["compile"])])]

/-- Both documents. -/
def releaseLibrary : Library := .ofDocuments
  [("release", .object [("jobs", .object releaseJobs)]),
    ("verify", .object [("jobs", .object verifyJobs)])] []

/-- Their graphs. -/
def releaseWiring : Wiring := [("prepare", []), ("verify", ["prepare"]), ("deploy", ["verify"])]

def verifyWiring : Wiring := [("compile", []), ("test", ["compile"])]

def releaseChildren (name : Text) : Option Wiring :=
  if name = "verify" then some verifyWiring else none

/-- The pipeline calls nothing, so it stays as it is. -/
theorem expandFrom_verify {opened : List Text} (hopened : ("verify" : Text) ∉ opened) :
    expandFrom releaseLibrary opened "verify" = .ok [("jobs", .object verifyJobs)] := by
  refine expandFrom_eq_ok.mpr ⟨hopened, _, rfl, ?_⟩
  refine expandDocument_mono (f := fun path => .error (.unparsable path)) (fun _ _ h => nomatch h) ?_
  decide +kernel

theorem hasWiring_verify : HasWiring verifyJobs verifyWiring :=
  .cons ⟨rfl, _, [], rfl, rfl, .nil⟩ (.cons ⟨rfl, _, ["compile"], rfl, rfl,
    .cons ⟨by decide, .inl rfl⟩ .nil⟩ .nil)

theorem hasWiring_release : HasWiring releaseJobs releaseWiring :=
  .cons ⟨rfl, _, [], rfl, rfl, .nil⟩ (.cons ⟨rfl, _, ["prepare"], rfl, rfl,
    .cons ⟨by decide, .inl rfl⟩ .nil⟩ (.cons ⟨rfl, _, _, rfl, rfl,
      .cons ⟨by decide, .inr rfl⟩ .nil⟩ .nil))

theorem sound_verify : verifyWiring.Sound :=
  .of_rank verifyWiring.names.idxOf (by decide) (by decide) (by decide)

theorem sound_release : releaseWiring.Sound :=
  .of_rank releaseWiring.names.idxOf (by decide) (by decide) (by decide)

theorem hasChildren_release : HasChildren releaseLibrary "release" releaseJobs releaseChildren where
  own := by
    intro name fields hmem hcall
    simp only [releaseJobs, List.mem_cons, Prod.mk.injEq, List.not_mem_nil, or_false] at hmem
    rcases hmem with ⟨rfl, -⟩ | ⟨rfl, h⟩ | ⟨rfl, -⟩
    · decide
    · cases h
      cases hcall
    · decide
  site := by
    intro name fields target child hmem hcall hchild
    simp only [releaseJobs, List.mem_cons, Prod.mk.injEq, List.not_mem_nil, or_false] at hmem
    rcases hmem with ⟨rfl, h⟩ | ⟨rfl, h⟩ | ⟨rfl, h⟩
    · cases h
      cases hcall
    · cases h
      cases hcall
      have hpath : calledPath "release" "verify" = "verify" := by decide +kernel
      rw [hpath, expand, expandFrom_verify List.not_mem_nil] at hchild
      cases hchild
      exact ⟨verifyWiring, rfl, ⟨verifyJobs, rfl, hasWiring_verify⟩, sound_verify, by decide⟩
    · cases h
      cases hcall

theorem expand_refines_release : ∃ result lead w, expand releaseLibrary "release" = .ok result ∧
    IsWired result w ∧
    Splicing.Refines { outer := releaseWiring, child := releaseChildren, lead } w := by
  let f := fun path : Text =>
    if path = "verify" then Except.ok [(("jobs" : Text), Json.object verifyJobs)]
    else .error (Error.unparsable path)
  have hrun : (expandDocument "release" f (.object [("jobs", .object releaseJobs)])).toBool = true := by
    decide +kernel
  cases hexpand : expandDocument "release" f (.object [("jobs", .object releaseJobs)]) with
  | error error =>
    rw [hexpand] at hrun
    cases hrun
  | ok result =>
    have hresult : expand releaseLibrary "release" = .ok result := by
      refine expandFrom_eq_ok.mpr ⟨List.not_mem_nil, _, rfl, ?_⟩
      refine expandDocument_mono (fun path child hchild => ?_) hexpand
      by_cases hpath : path = "verify"
      · rw [hpath] at hchild ⊢
        cases hchild
        exact expandFrom_verify (by decide +kernel)
      · have herror : f path = .error (Error.unparsable path) := if_neg hpath
        rw [herror] at hchild
        cases hchild
    obtain ⟨lead, w, -, hwired, hrefines⟩ := expand_refines rfl rfl hasWiring_release sound_release
      hasChildren_release hresult
    exact ⟨result, lead, w, hresult, hwired, hrefines⟩

end CachedWorkflow
