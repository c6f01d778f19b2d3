import CachedWorkflow.Proofs.Job.Cycle
import CachedWorkflow.Proofs.Job.Graph

/-!
# Proofs: which lists of jobs have a graph

`JobGraph.ofJobs` decides its input exactly: an unknown need is reported before anything else and is
the first one of the declaration, a cycle is reported if and only if there is one, and otherwise there
is a graph (`ofJobs_decides`).
-/

namespace CachedWorkflow

open Relation

variable {jobs : List Job} {passthrough : List Text}

/-- A need that names no listed job and is not passed through. -/
def IsUnknown (jobs : List Job) (passthrough : List Text) (need : Text) : Prop :=
  need ∉ jobs.map Job.name ∧ need ∉ passthrough

/-- The first unknown need of the first job that has one. -/
def IsFirstUnknown (jobs : List Job) (passthrough : List Text) (job need : Text) : Prop :=
  ∃ before owner after front back, jobs = before ++ owner :: after ∧ owner.name = job ∧
    owner.settings.needs = front ++ need :: back ∧ IsUnknown jobs passthrough need ∧
    (∀ other ∈ before, ∀ n ∈ other.settings.needs, ¬ IsUnknown jobs passthrough n) ∧
    ∀ n ∈ front, ¬ IsUnknown jobs passthrough n

/-- Some job has an unknown need. -/
def HasUnknown (jobs : List Job) (passthrough : List Text) : Prop :=
  ∃ job ∈ jobs, ∃ need ∈ job.settings.needs, IsUnknown jobs passthrough need

/-- The listed job `a` needs the listed job `b`. -/
def Needs (jobs : List Job) (a b : Text) : Prop :=
  ∃ job ∈ jobs, job.name = a ∧ b ∈ job.settings.needs ∧ b ∈ jobs.map Job.name

/-- Some job needs itself, directly or through others. -/
def HasCycle (jobs : List Job) : Prop := ∃ a, TransGen (Needs jobs) a a

/-! ## Unknown needs -/

theorem isUnknown_iff {need : Text} :
    IsUnknown jobs passthrough need ↔ ownerOf jobs need = none ∧ need ∉ passthrough := by
  rw [IsUnknown, ownerOf_eq_none_iff, List.mem_map]
  simp

theorem resolveNeeds_eq_error {job : Text} {needs : List Text} {e : Error} :
    resolveNeeds jobs passthrough job needs = .error e ↔
      ∃ front need back, needs = front ++ need :: back ∧ IsUnknown jobs passthrough need ∧
        (∀ n ∈ front, ¬ IsUnknown jobs passthrough n) ∧ e = .unknownDependency job need := by
  induction needs with
  | nil =>
    constructor
    · intro h
      cases h
    · rintro ⟨front, need, back, hsplit, -⟩
      simp at hsplit
  | cons head rest ih =>
    by_cases hunknown : IsUnknown jobs passthrough head
    · obtain ⟨howner, hpass⟩ := isUnknown_iff.mp hunknown
      have hresult : resolveNeeds jobs passthrough job (head :: rest)
          = .error (.unknownDependency job head) := by
        simp only [resolveNeeds, howner, if_neg hpass]
      rw [hresult]
      constructor
      · intro h
        cases h
        exact ⟨[], head, rest, rfl, hunknown, by simp, rfl⟩
      · rintro ⟨front, need, back, hsplit, -, hfront, rfl⟩
        cases front with
        | nil => cases hsplit; rfl
        | cons first front =>
          cases hsplit
          exact absurd hunknown (hfront head List.mem_cons_self)
    · have hresult : resolveNeeds jobs passthrough job (head :: rest) = .error e ↔
          resolveNeeds jobs passthrough job rest = .error e := by
        cases howner : ownerOf jobs head with
        | some i =>
          rw [resolveNeeds, howner]
          cases resolveNeeds jobs passthrough job rest <;> simp [Except.map]
        | none =>
          have hpass : head ∈ passthrough := by
            by_contra hpass
            exact hunknown (isUnknown_iff.mpr ⟨howner, hpass⟩)
          simp only [resolveNeeds, howner, if_pos hpass]
      rw [hresult, ih]
      constructor
      · rintro ⟨front, need, back, rfl, hneed, hfront, rfl⟩
        exact ⟨head :: front, need, back, rfl, hneed,
          List.forall_mem_cons.mpr ⟨hunknown, hfront⟩, rfl⟩
      · rintro ⟨front, need, back, hsplit, hneed, hfront, rfl⟩
        cases front with
        | nil =>
          cases hsplit
          exact absurd hneed hunknown
        | cons first front =>
          cases hsplit
          exact ⟨front, need, back, rfl, hneed, (List.forall_mem_cons.mp hfront).2, rfl⟩

/-- Needs are resolved if none of them is unknown. -/
theorem exists_resolveNeeds_iff {job : Text} {needs : List Text} :
    (∃ positions, resolveNeeds jobs passthrough job needs = .ok positions) ↔
      ∀ n ∈ needs, ¬ IsUnknown jobs passthrough n := by
  constructor
  · rintro ⟨positions, h⟩ n hn hunknown
    obtain ⟨howner, hpass⟩ := isUnknown_iff.mp hunknown
    exact hpass ((resolveNeeds_eq_ok h).2 n hn howner)
  · intro hknown
    cases h : resolveNeeds jobs passthrough job needs with
    | ok positions => exact ⟨positions, rfl⟩
    | error e =>
      obtain ⟨front, need, back, rfl, hunknown, -⟩ := resolveNeeds_eq_error.mp h
      exact absurd hunknown (hknown need (List.mem_append_right _ List.mem_cons_self))

theorem mapM_resolveNeeds_eq_error {e : Error} :
    (jobs.mapM fun job => resolveNeeds jobs passthrough job.name job.settings.needs) = .error e ↔
      ∃ job need, IsFirstUnknown jobs passthrough job need ∧ e = .unknownDependency job need := by
  rw [mapM_eq_error]
  simp only [resolveNeeds_eq_error, exists_resolveNeeds_iff]
  constructor
  · rintro ⟨before, owner, after, hjobs, ⟨front, need, back, hneeds, hunknown, hfront, rfl⟩, hbefore⟩
    exact ⟨owner.name, need,
      ⟨before, owner, after, front, back, hjobs, rfl, hneeds, hunknown, hbefore, hfront⟩, rfl⟩
  · rintro ⟨_, need,
      ⟨before, owner, after, front, back, hjobs, rfl, hneeds, hunknown, hbefore, hfront⟩, rfl⟩
    exact ⟨before, owner, after, hjobs, ⟨front, need, back, hneeds, hunknown, hfront, rfl⟩, hbefore⟩

theorem mapM_resolveNeeds_of_not_hasUnknown (h : ¬ HasUnknown jobs passthrough) :
    (jobs.mapM fun job => resolveNeeds jobs passthrough job.name job.settings.needs)
      = .ok (needPositions jobs) := by
  cases hdeps : jobs.mapM fun job => resolveNeeds jobs passthrough job.name job.settings.needs with
  | ok dependencies => rw [(mapM_resolveNeeds_eq_ok hdeps).1]
  | error e =>
    obtain ⟨job, need, ⟨before, owner, after, front, back, rfl, -, hneeds, hunknown, -⟩, -⟩ :=
      mapM_resolveNeeds_eq_error.mp hdeps
    refine absurd ⟨owner, ?_, need, ?_, hunknown⟩ h
    · exact List.mem_append_right _ List.mem_cons_self
    · rw [hneeds]
      exact List.mem_append_right _ List.mem_cons_self

/-- If some need is unknown, one of them is the first. -/
theorem exists_isFirstUnknown_iff :
    (∃ job need, IsFirstUnknown jobs passthrough job need) ↔ HasUnknown jobs passthrough := by
  constructor
  · rintro ⟨job, need, before, owner, after, front, back, rfl, -, hneeds, hunknown, -⟩
    refine ⟨owner, List.mem_append_right _ List.mem_cons_self, need, ?_, hunknown⟩
    rw [hneeds]
    exact List.mem_append_right _ List.mem_cons_self
  · rintro ⟨job, hjob, need, hneed, hunknown⟩
    cases h : jobs.mapM fun job => resolveNeeds jobs passthrough job.name job.settings.needs with
    | ok dependencies =>
      obtain ⟨howner, hpass⟩ := isUnknown_iff.mp hunknown
      exact absurd ((mapM_resolveNeeds_eq_ok h).2 job hjob need hneed howner) hpass
    | error e =>
      obtain ⟨first, need, hfirst, -⟩ := mapM_resolveNeeds_eq_error.mp h
      exact ⟨first, need, hfirst⟩

/-! ## Cycles -/

theorem nameAt_eq {i : Nat} {job : Job} (h : jobs[i]? = some job) : nameAt jobs i = job.name := by
  rw [nameAt, h, Option.map_some, Option.getD_some]

theorem needs_of_dependsOn {i j : Nat} (h : Order.DependsOn (needPositions jobs) i j) :
    Needs jobs (nameAt jobs i) (nameAt jobs j) := by
  obtain ⟨job, hjob, need, hneed, howner⟩ := mem_dependenciesOf_needPositions.mp h
  obtain ⟨other, hother, rfl⟩ := ownerOf_eq_some howner
  rw [nameAt_eq hjob, nameAt_eq hother]
  exact ⟨job, List.mem_of_getElem? hjob, rfl, hneed, List.mem_map_of_mem (List.mem_of_getElem? hother)⟩

theorem dependsOn_of_needs (hnames : (jobs.map Job.name).Nodup) {a b : Text} (h : Needs jobs a b) :
    ∃ i j, ownerOf jobs a = some i ∧ ownerOf jobs b = some j ∧
      Order.DependsOn (needPositions jobs) i j := by
  obtain ⟨job, hjob, rfl, hneed, hlisted⟩ := h
  obtain ⟨other, hother, rfl⟩ := List.mem_map.mp hlisted
  obtain ⟨i, hi⟩ := List.mem_iff_getElem?.mp hjob
  obtain ⟨j, hj⟩ := List.mem_iff_getElem?.mp hother
  have howner := ownerOf_name hnames hj
  exact ⟨i, j, ownerOf_name hnames hi, howner,
    mem_dependenciesOf_needPositions.mpr ⟨job, hi, other.name, hneed, howner⟩⟩

theorem transGen_dependsOn_of_needs (hnames : (jobs.map Job.name).Nodup) {a b : Text}
    (h : TransGen (Needs jobs) a b) :
    ∃ i j, ownerOf jobs a = some i ∧ ownerOf jobs b = some j ∧
      TransGen (Order.DependsOn (needPositions jobs)) i j := by
  induction h with
  | single h =>
    obtain ⟨i, j, hi, hj, hij⟩ := dependsOn_of_needs hnames h
    exact ⟨i, j, hi, hj, .single hij⟩
  | tail _ h ih =>
    obtain ⟨i, j, hi, hj, hij⟩ := ih
    obtain ⟨j', k, hj', hk, hjk⟩ := dependsOn_of_needs hnames h
    obtain rfl : j = j' := Option.some.inj (hj.symm.trans hj')
    exact ⟨i, k, hi, hk, hij.tail hjk⟩

theorem isLoop_map_nameAt (hnames : (jobs.map Job.name).Nodup) {loop : List Nat}
    (h : IsLoop (Order.DependsOn (needPositions jobs)) loop) :
    IsLoop (Needs jobs) (loop.map (nameAt jobs)) := by
  refine h.map (fun i j => needs_of_dependsOn) fun i hi j hj hname => ?_
  -- every position of the loop depends on another one, so it is the position of a job
  have hjob : ∀ i ∈ loop, ∃ job, jobs[i]? = some job := fun i hi => by
    obtain ⟨_, hdep⟩ := h.exists_of_mem hi
    obtain ⟨job, hjob, -⟩ := mem_dependenciesOf_needPositions.mp hdep
    exact ⟨job, hjob⟩
  obtain ⟨a, ha⟩ := hjob i hi
  obtain ⟨b, hb⟩ := hjob j hj
  rw [nameAt_eq ha, nameAt_eq hb] at hname
  have howner := ownerOf_name hnames ha
  rw [hname, ownerOf_name hnames hb] at howner
  exact (Option.some.inj howner).symm

/-- The search over the needs succeeds if and only if there is no cycle. -/
theorem exists_topological_iff (hnames : (jobs.map Job.name).Nodup) :
    (∃ order, Order.topological (needPositions jobs) = .ok order) ↔ ¬ HasCycle jobs := by
  have hbound := bounded_needPositions jobs
  constructor
  · rintro ⟨order, h⟩ ⟨a, hcycle⟩
    obtain ⟨i, j, hi, hj, hij⟩ := transGen_dependsOn_of_needs hnames hcycle
    obtain rfl : i = j := Option.some.inj (hi.symm.trans hj)
    exact (Order.topological_sorted hbound h).acyclic
      (fun i hlt => (Order.mem_topological hbound h).mpr hlt) i hij
  · intro hacyclic
    cases h : Order.topological (needPositions jobs) with
    | ok order => exact ⟨order, rfl⟩
    | error loop =>
      have hloop := isLoop_map_nameAt hnames (Order.isLoop_of_topological h)
      exact absurd hloop.exists_transGen hacyclic

/-- Otherwise it finds a loop. -/
theorem exists_topological_error_iff (hnames : (jobs.map Job.name).Nodup) :
    (∃ loop, Order.topological (needPositions jobs) = .error loop) ↔ HasCycle jobs := by
  rw [← not_iff_not, ← exists_topological_iff hnames]
  cases Order.topological (needPositions jobs) <;> simp

/-! ## The decision -/

namespace JobGraph

/-- The graph of jobs without unknown needs is up to the search for an order. -/
theorem ofJobs_of_not_hasUnknown (h : ¬ HasUnknown jobs passthrough) :
    ofJobs jobs passthrough = match Order.topological (needPositions jobs) with
      | .error cycle => .error (.cycle (cycle.map (nameAt jobs)))
      | .ok order => .ok ⟨jobs, needPositions jobs, order,
          order.foldl (spreadForce jobs (needPositions jobs)) []⟩ := by
  rw [ofJobs, mapM_resolveNeeds_of_not_hasUnknown h]
  rfl

theorem ofJobs_eq_unknownDependency_iff {job need : Text} :
    ofJobs jobs passthrough = .error (.unknownDependency job need) ↔
      IsFirstUnknown jobs passthrough job need := by
  constructor
  · intro h
    rw [ofJobs, bind_eq_error] at h
    rcases h with h | ⟨dependencies, -, h⟩
    · obtain ⟨job', need', hfirst, heq⟩ := mapM_resolveNeeds_eq_error.mp h
      cases heq
      exact hfirst
    · cases htop : Order.topological dependencies <;> simp [htop] at h
  · intro h
    rw [ofJobs, bind_eq_error]
    exact .inl (mapM_resolveNeeds_eq_error.mpr ⟨job, need, h, rfl⟩)

/-- A graph or a cycle is only found where no need is unknown. -/
theorem not_hasUnknown_of_ofJobs (h : ∀ job need,
    ofJobs jobs passthrough ≠ .error (.unknownDependency job need)) :
    ¬ HasUnknown jobs passthrough := by
  intro hunknown
  obtain ⟨job, need, hfirst⟩ := exists_isFirstUnknown_iff.mpr hunknown
  exact h job need (ofJobs_eq_unknownDependency_iff.mpr hfirst)

/-- A cycle that is reported is the loop that the search has found, by names. -/
theorem ofJobs_eq_cycle_iff {chain : List Text} :
    ofJobs jobs passthrough = .error (.cycle chain) ↔ ¬ HasUnknown jobs passthrough ∧
      ∃ loop, Order.topological (needPositions jobs) = .error loop ∧
        chain = loop.map (nameAt jobs) := by
  constructor
  · intro h
    have hnone : ¬ HasUnknown jobs passthrough := not_hasUnknown_of_ofJobs (by simp [h])
    refine ⟨hnone, ?_⟩
    rw [ofJobs_of_not_hasUnknown hnone] at h
    cases hfound : Order.topological (needPositions jobs) with
    | ok order =>
      rw [hfound] at h
      cases h
    | error loop =>
      rw [hfound] at h
      cases h
      exact ⟨loop, rfl, rfl⟩
  · rintro ⟨hnone, loop, hfound, rfl⟩
    rw [ofJobs_of_not_hasUnknown hnone, hfound]

theorem exists_ofJobs_eq_ok_iff :
    (∃ graph, ofJobs jobs passthrough = .ok graph) ↔ ¬ HasUnknown jobs passthrough ∧
      ∃ order, Order.topological (needPositions jobs) = .ok order := by
  constructor
  · rintro ⟨graph, h⟩
    have hnone : ¬ HasUnknown jobs passthrough := not_hasUnknown_of_ofJobs (by simp [h])
    refine ⟨hnone, ?_⟩
    rw [ofJobs_of_not_hasUnknown hnone] at h
    cases hfound : Order.topological (needPositions jobs) with
    | ok order => exact ⟨order, rfl⟩
    | error loop =>
      rw [hfound] at h
      cases h
  · rintro ⟨hnone, order, hfound⟩
    rw [ofJobs_of_not_hasUnknown hnone, hfound]
    exact ⟨_, rfl⟩

/-- The outcome for jobs with distinct names: the first unknown need if there is one, whether or not
there are cycles; otherwise a loop of needs if there is one; otherwise a graph whose order lists each
job once, after the jobs that it needs. -/
theorem ofJobs_decides (hnames : (jobs.map Job.name).Nodup) (passthrough : List Text) :
    (∀ job need, ofJobs jobs passthrough = .error (.unknownDependency job need) ↔
      IsFirstUnknown jobs passthrough job need) ∧
    ((∃ job need, ofJobs jobs passthrough = .error (.unknownDependency job need)) ↔
      HasUnknown jobs passthrough) ∧
    ((∃ chain, ofJobs jobs passthrough = .error (.cycle chain)) ↔
      ¬ HasUnknown jobs passthrough ∧ HasCycle jobs) ∧
    (∀ chain, ofJobs jobs passthrough = .error (.cycle chain) → IsLoop (Needs jobs) chain) ∧
    ((∃ graph, ofJobs jobs passthrough = .ok graph) ↔
      ¬ HasUnknown jobs passthrough ∧ ¬ HasCycle jobs) ∧
    ∀ graph, ofJobs jobs passthrough = .ok graph → graph.topological.Perm jobs ∧
      ∀ done job rest, graph.topological = done ++ job :: rest →
        ∀ d ∈ jobs, d.name ∈ job.settings.needs → d ∈ done := by
  refine ⟨fun job need => ofJobs_eq_unknownDependency_iff, ?_, ?_, ?_, ?_, ?_⟩
  · simp only [ofJobs_eq_unknownDependency_iff]
    exact exists_isFirstUnknown_iff
  · rw [← exists_topological_error_iff hnames]
    simp only [ofJobs_eq_cycle_iff]
    constructor
    · rintro ⟨-, hnone, loop, hfound, -⟩
      exact ⟨hnone, loop, hfound⟩
    · rintro ⟨hnone, loop, hfound⟩
      exact ⟨_, hnone, loop, hfound, rfl⟩
  · intro chain h
    obtain ⟨-, loop, hfound, rfl⟩ := ofJobs_eq_cycle_iff.mp h
    exact isLoop_map_nameAt hnames (Order.isLoop_of_topological hfound)
  · rw [exists_ofJobs_eq_ok_iff, exists_topological_iff hnames]
  · intro graph h
    obtain ⟨rfl, hbuilt⟩ := built_of_ofJobs h
    refine ⟨hbuilt.perm_topological hnames, fun done job rest hsplit d hd hneed => ?_⟩
    have hjob : job ∈ graph.jobs :=
      hbuilt.mem_topological.mp (hsplit ▸ List.mem_append_right _ List.mem_cons_self)
    exact hbuilt.needs_before hnames hsplit d ((hbuilt.mem_pipelineNeeds hnames hjob).mpr ⟨hd, hneed⟩)

/-- Three jobs of which each needs the next one, and another job that needs the first. -/
def ring : List Job :=
  [⟨"deploy", { needs := ["lint"] }⟩, ⟨"lint", { needs := ["setup", "test"] }⟩,
    ⟨"test", { needs := ["build"] }⟩, ⟨"build", { needs := ["lint"] }⟩]

/-- Unless what is not listed is passed through, it is reported although there is a cycle. -/
theorem ofJobs_decides_ring :
    IsFirstUnknown ring [] "lint" "setup" ∧ HasCycle ring ∧
      IsLoop (Needs ring) ["lint", "test", "build", "lint"] := by
  have hnames : (ring.map Job.name).Nodup := by decide
  have hunknown : ofJobs ring [] = .error (.unknownDependency "lint" "setup") := by decide +kernel
  have hcycle : ofJobs ring ["setup"] = .error (.cycle ["lint", "test", "build", "lint"]) := by
    decide +kernel
  obtain ⟨hfirst, -⟩ := ofJobs_decides hnames []
  obtain ⟨-, -, hexists, hloop, -⟩ := ofJobs_decides hnames ["setup"]
  exact ⟨(hfirst "lint" "setup").mp hunknown, (hexists.mp ⟨_, hcycle⟩).2, hloop _ hcycle⟩

end JobGraph

end CachedWorkflow
