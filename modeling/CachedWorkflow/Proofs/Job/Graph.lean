import CachedWorkflow.Job.Graph
import CachedWorkflow.Proofs.Job.Order

/-!
# Proofs: the job graph

What a graph that has been built says about its jobs, by their names instead of their positions: the
jobs come after those that they need (`Built.needs_before`), and a job is forced exactly if it is
forced by itself or needs a forced one (`Built.isForced_iff_hasForce_or`). Names are known to be distinct
wherever a graph is made from a document; where a lemma does not ask for it, a name stands for the job that
owns it.
-/

namespace CachedWorkflow

/-! ## Owners of names -/

theorem lastIndex?_eq_some {α : Type} {p : α → Bool} {l : List α} {i : Nat}
    (h : lastIndex? p l = some i) : ∃ a, l[i]? = some a ∧ p a = true := by
  induction l generalizing i with
  | nil => cases h
  | cons a rest ih =>
    rw [lastIndex?] at h
    cases hrest : lastIndex? p rest with
    | some j =>
      rw [hrest] at h
      cases h
      obtain ⟨b, hb, hp⟩ := ih hrest
      exact ⟨b, by rw [List.getElem?_cons_succ, hb], hp⟩
    | none =>
      rw [hrest] at h
      obtain ⟨hp, rfl⟩ : p a = true ∧ 0 = i := by simpa using h
      exact ⟨a, rfl, hp⟩

theorem lastIndex?_eq_none_iff {α : Type} {p : α → Bool} {l : List α} :
    lastIndex? p l = none ↔ ∀ a ∈ l, p a = false := by
  induction l with
  | nil => simp [lastIndex?]
  | cons a rest ih =>
    rw [lastIndex?, List.forall_mem_cons]
    cases hrest : lastIndex? p rest with
    | some j =>
      have hno : ¬ ∀ b ∈ rest, p b = false := by rw [← ih, hrest]; simp
      simp [hno]
    | none =>
      have hall := ih.mp hrest
      cases hp : p a with
      | true => simp
      | false => simpa using hall

theorem ownerOf_eq_some {jobs : List Job} {name : Text} {i : Nat} (h : ownerOf jobs name = some i) :
    ∃ job, jobs[i]? = some job ∧ job.name = name := by
  obtain ⟨job, hjob, hname⟩ := lastIndex?_eq_some h
  exact ⟨job, hjob, by simpa using hname⟩

theorem ownerOf_eq_none_iff {jobs : List Job} {name : Text} :
    ownerOf jobs name = none ↔ ∀ job ∈ jobs, job.name ≠ name := by
  rw [ownerOf, lastIndex?_eq_none_iff]
  simp

theorem JobGraph.contains_iff {graph : JobGraph} {name : Text} :
    graph.contains name = true ↔ ∃ job ∈ graph.jobs, job.name = name := by
  rw [JobGraph.contains, Option.isSome_iff_ne_none, ne_eq, ownerOf_eq_none_iff]
  simp

/-- Of jobs with distinct names each owns its name. -/
theorem ownerOf_name {jobs : List Job} (hnames : (jobs.map Job.name).Nodup) {i : Nat} {job : Job}
    (h : jobs[i]? = some job) : ownerOf jobs job.name = some i := by
  cases howner : ownerOf jobs job.name with
  | none => exact absurd rfl (ownerOf_eq_none_iff.mp howner job (List.mem_of_getElem? h))
  | some j =>
    obtain ⟨other, hother, hname⟩ := ownerOf_eq_some howner
    have hlt : j < (jobs.map Job.name).length := by
      rw [List.length_map]
      exact (List.getElem?_eq_some_iff.mp hother).1
    have heq : (jobs.map Job.name)[j]? = (jobs.map Job.name)[i]? := by
      rw [List.getElem?_map, List.getElem?_map, hother, h, Option.map_some, Option.map_some, hname]
    rw [(List.getElem?_inj hlt hnames).mp heq]

/-! ## Needs -/

/-- Needs that are resolved name pipeline jobs, or jobs that are passed through. -/
theorem resolveNeeds_eq_ok {jobs : List Job} {passthrough : List Text} {job : Text}
    {needs : List Text} {positions : List Nat}
    (h : resolveNeeds jobs passthrough job needs = .ok positions) :
    positions = needs.filterMap (ownerOf jobs) ∧
      ∀ need ∈ needs, ownerOf jobs need = none → need ∈ passthrough := by
  induction needs generalizing positions with
  | nil => cases h; exact ⟨rfl, by simp⟩
  | cons need rest ih =>
    rw [resolveNeeds] at h
    cases howner : ownerOf jobs need with
    | some i =>
      rw [howner] at h
      obtain ⟨tail, htail, rfl⟩ := map_eq_ok.mp h
      obtain ⟨rfl, hrest⟩ := ih htail
      refine ⟨by rw [List.filterMap_cons_some howner], fun n hn hnone => ?_⟩
      rcases List.mem_cons.mp hn with rfl | hn
      · rw [howner] at hnone
        cases hnone
      · exact hrest n hn hnone
    | none =>
      rw [howner] at h
      by_cases hpass : need ∈ passthrough
      · simp only [hpass, if_true] at h
        obtain ⟨rfl, hrest⟩ := ih h
        refine ⟨by rw [List.filterMap_cons_none howner], fun n hn hnone => ?_⟩
        rcases List.mem_cons.mp hn with rfl | hn
        · exact hpass
        · exact hrest n hn hnone
      · simp only [hpass, if_false] at h
        cases h

/-- The pipeline jobs among the needs of each job. -/
def needPositions (jobs : List Job) : List (List Nat) :=
  jobs.map fun job => job.settings.needs.filterMap (ownerOf jobs)

theorem mapM_resolveNeeds_eq_ok {jobs : List Job} {passthrough : List Text}
    {dependencies : List (List Nat)}
    (h : (jobs.mapM fun job => resolveNeeds jobs passthrough job.name job.settings.needs)
      = .ok dependencies) :
    dependencies = needPositions jobs ∧ ∀ job ∈ jobs, ∀ need ∈ job.settings.needs,
      ownerOf jobs need = none → need ∈ passthrough := by
  have hresolved := mapM_eq_ok.mp h
  refine ⟨?_, fun job hjob need hneed hnone => ?_⟩
  · rw [needPositions, ← List.forall₂_eq_eq_eq, List.forall₂_map_right_iff]
    exact (hresolved.imp fun job positions hj => (resolveNeeds_eq_ok hj).1).flip
  · obtain ⟨positions, -, hpositions⟩ := exists_of_mem_left hresolved hjob
    exact (resolveNeeds_eq_ok hpositions).2 need hneed hnone

theorem mem_dependenciesOf_needPositions {jobs : List Job} {i j : Nat} :
    j ∈ Order.dependenciesOf (needPositions jobs) i ↔
      ∃ job, jobs[i]? = some job ∧ ∃ need ∈ job.settings.needs, ownerOf jobs need = some j := by
  rw [Order.dependenciesOf, needPositions, List.getElem?_map]
  cases hjob : jobs[i]? with
  | none => simp
  | some job => simp

theorem bounded_needPositions (jobs : List Job) : Order.Bounded (needPositions jobs) := by
  intro i d hd
  obtain ⟨job, -, need, -, howner⟩ := mem_dependenciesOf_needPositions.mp hd
  obtain ⟨owner, howner, -⟩ := ownerOf_eq_some howner
  rw [needPositions, List.length_map]
  exact (List.getElem?_eq_some_iff.mp howner).1

/-! ## Force -/

theorem mem_spreadForce {jobs : List Job} {dependencies : List (List Nat)} {forced : List Nat}
    {i j : Nat} : j ∈ spreadForce jobs dependencies forced i ↔
      j ∈ forced ∨ j = i ∧ ((∃ job, jobs[i]? = some job ∧ job.settings.force = true) ∨
        ∃ d ∈ Order.dependenciesOf dependencies i, d ∈ forced) := by
  rw [spreadForce]
  have hcond : (jobs[i]?.any (·.settings.force) ||
      (Order.dependenciesOf dependencies i).any (· ∈ forced)) = true ↔
      (∃ job, jobs[i]? = some job ∧ job.settings.force = true) ∨
        ∃ d ∈ Order.dependenciesOf dependencies i, d ∈ forced := by
    simp [Option.any_eq_true]
  by_cases h : (jobs[i]?.any (·.settings.force) ||
      (Order.dependenciesOf dependencies i).any (· ∈ forced)) = true
  · rw [if_pos h, List.mem_cons, or_comm, and_iff_left (hcond.mp h)]
  · rw [if_neg h]
    exact ⟨.inl, fun hj => hj.resolve_right fun hnew => h (hcond.mpr hnew.2)⟩

/-- Going through a sorted order, a position is found to be forced exactly if it is so by itself or
depends on one that is. -/
theorem mem_foldl_spreadForce {jobs : List Job} {dependencies : List (List Nat)} {order : List Nat}
    (hsorted : Order.Sorted dependencies order) {i : Nat} :
    i ∈ order.foldl (spreadForce jobs dependencies) [] ↔
      i ∈ order ∧ ((∃ job, jobs[i]? = some job ∧ job.settings.force = true) ∨
        ∃ d ∈ Order.dependenciesOf dependencies i,
          d ∈ order.foldl (spreadForce jobs dependencies) []) := by
  induction order using List.reverseRecOn generalizing i with
  | nil => simp
  | append_singleton done node ih =>
    obtain ⟨hdone, hfresh, hdeps⟩ := hsorted.of_append_singleton
    rw [List.foldl_append, List.foldl_cons, List.foldl_nil]
    -- what `node` adds is no dependency of what is done
    have hcause : ∀ j ∈ done ++ [node],
        ((∃ d ∈ Order.dependenciesOf dependencies j, d ∈ spreadForce jobs dependencies
            (done.foldl (spreadForce jobs dependencies) []) node) ↔
          ∃ d ∈ Order.dependenciesOf dependencies j,
            d ∈ done.foldl (spreadForce jobs dependencies) []) := by
      intro j hj
      refine exists_congr fun d => and_congr_right fun hd => ?_
      have hne : d ≠ node := by
        rintro rfl
        rcases List.mem_append.mp hj with hj | hj
        · exact hfresh (hdone.mem hj hd)
        · exact hfresh (hdeps _ (List.mem_singleton.mp hj ▸ hd))
      rw [mem_spreadForce, or_iff_left fun h => hne h.1]
    rw [mem_spreadForce, ih hdone, List.mem_append, List.mem_singleton]
    constructor
    · rintro (⟨hmem, hi⟩ | ⟨rfl, hi⟩)
      · exact ⟨.inl hmem, hi.imp_right (hcause i (List.mem_append_left _ hmem)).mpr⟩
      · exact ⟨.inr rfl, hi.imp_right (hcause i (List.mem_append_right _ List.mem_cons_self)).mpr⟩
    · rintro ⟨hmem | rfl, hi⟩
      · exact .inl ⟨hmem, hi.imp_right (hcause i (List.mem_append_left _ hmem)).mp⟩
      · exact .inr ⟨rfl, hi.imp_right (hcause i (List.mem_append_right _ List.mem_cons_self)).mp⟩

/-! ## Graphs that have been built -/

namespace JobGraph

/-- What is known of a graph that has been built: its dependencies are its needs, those that are no
pipeline jobs are passed through, its order has all positions, dependencies first, and force has been
spread in this order. -/
structure Built (graph : JobGraph) (passthrough : List Text) : Prop where
  dependencies : graph.dependencies
    = graph.jobs.map fun job => job.settings.needs.filterMap (ownerOf graph.jobs)
  known : ∀ job ∈ graph.jobs, ∀ need ∈ job.settings.needs,
    ownerOf graph.jobs need = none → need ∈ passthrough
  sorted : Order.Sorted graph.dependencies graph.order
  mem_order : ∀ i, i ∈ graph.order ↔ i < graph.jobs.length
  forced : graph.forced = graph.order.foldl (spreadForce graph.jobs graph.dependencies) []

theorem built_of_ofJobs {jobs : List Job} {passthrough : List Text} {graph : JobGraph}
    (h : ofJobs jobs passthrough = .ok graph) : graph.jobs = jobs ∧ graph.Built passthrough := by
  obtain ⟨dependencies, hdeps, h⟩ := bind_eq_ok.mp h
  obtain ⟨rfl, hknown⟩ := mapM_resolveNeeds_eq_ok hdeps
  cases horder : Order.topological (needPositions jobs) with
  | error cycle =>
    rw [horder] at h
    cases h
  | ok order =>
    rw [horder] at h
    cases h
    have hbound := bounded_needPositions jobs
    refine ⟨rfl, rfl, hknown, Order.topological_sorted hbound horder, fun i => ?_, rfl⟩
    rw [Order.mem_topological hbound horder, needPositions, List.length_map]

/-- The job that owns the name has force set. -/
def HasForce (graph : JobGraph) (name : Text) : Prop :=
  ∃ settings, graph.get? name = some settings ∧ settings.force = true

namespace Built

variable {graph : JobGraph} {passthrough : List Text}

theorem dependenciesOf_eq (h : graph.Built passthrough) {i : Nat} {job : Job}
    (hjob : graph.jobs[i]? = some job) :
    Order.dependenciesOf graph.dependencies i
      = job.settings.needs.filterMap (ownerOf graph.jobs) := by
  rw [Order.dependenciesOf, h.dependencies, List.getElem?_map, hjob, Option.map_some,
    Option.getD_some]

theorem mem_pipelineNeeds (h : graph.Built passthrough)
    (hnames : (graph.jobs.map Job.name).Nodup) {job d : Job} (hjob : job ∈ graph.jobs) :
    d ∈ graph.pipelineNeeds job.name ↔ d ∈ graph.jobs ∧ d.name ∈ job.settings.needs := by
  obtain ⟨i, hi⟩ := List.mem_iff_getElem?.mp hjob
  rw [pipelineNeeds, ownerOf_name hnames hi]
  simp only [h.dependenciesOf_eq hi, List.mem_filterMap]
  constructor
  · rintro ⟨j, ⟨need, hneed, howner⟩, hd⟩
    obtain ⟨d', hd', rfl⟩ := ownerOf_eq_some howner
    obtain rfl : d' = d := Option.some.inj (hd'.symm.trans hd)
    exact ⟨List.mem_of_getElem? hd, hneed⟩
  · rintro ⟨hd, hneed⟩
    obtain ⟨j, hj⟩ := List.mem_iff_getElem?.mp hd
    exact ⟨j, ⟨d.name, hneed, ownerOf_name hnames hj⟩, hj⟩

/-- A job that is needed owns its name, also where other jobs have the same name. -/
theorem ownerOf_dependency (h : graph.Built passthrough) {i j : Nat}
    (hj : j ∈ Order.dependenciesOf graph.dependencies i) :
    ∃ d, graph.jobs[j]? = some d ∧ ownerOf graph.jobs d.name = some j := by
  have hdependencies : graph.dependencies = needPositions graph.jobs := h.dependencies
  rw [hdependencies] at hj
  obtain ⟨job, -, need, -, howner⟩ := mem_dependenciesOf_needPositions.mp hj
  obtain ⟨d, hd, rfl⟩ := ownerOf_eq_some howner
  exact ⟨d, hd, howner⟩

theorem get?_eq (hnames : (graph.jobs.map Job.name).Nodup) {job : Job} (hjob : job ∈ graph.jobs) :
    graph.get? job.name = some job.settings := by
  obtain ⟨i, hi⟩ := List.mem_iff_getElem?.mp hjob
  rw [get?, ownerOf_name hnames hi, Option.bind_eq_bind, Option.bind_some, hi, Option.map_some]

/-- The owner of a name is forced exactly if its position is. -/
theorem isForced_iff_mem_forced {name : Text} {i : Nat} (howner : ownerOf graph.jobs name = some i) :
    graph.isForced name = true ↔ i ∈ graph.forced := by
  rw [isForced, howner]
  simp

/-- A name is forced exactly if its owner has force set or needs a job whose name is forced. -/
theorem isForced_iff_hasForce_or (h : graph.Built passthrough) (name : Text) :
    graph.isForced name = true ↔ graph.HasForce name ∨
      ∃ d ∈ graph.pipelineNeeds name, graph.isForced d.name = true := by
  cases howner : ownerOf graph.jobs name with
  | none =>
    -- nobody owns the name
    simp [isForced, HasForce, get?, pipelineNeeds, howner]
  | some i =>
    obtain ⟨job, hjob, -⟩ := ownerOf_eq_some howner
    have hmem : i ∈ graph.order := (h.mem_order i).mpr (List.getElem?_eq_some_iff.mp hjob).1
    have hforce : graph.HasForce name ↔ ∃ job, graph.jobs[i]? = some job ∧ job.settings.force = true := by
      simp [HasForce, get?, howner, hjob]
    rw [isForced_iff_mem_forced howner, h.forced, mem_foldl_spreadForce h.sorted, and_iff_right hmem,
      ← h.forced, hforce]
    refine or_congr Iff.rfl ?_
    rw [pipelineNeeds, howner]
    simp only [List.mem_filterMap]
    constructor
    · rintro ⟨j, hj, hforced⟩
      obtain ⟨d, hd, hownerd⟩ := h.ownerOf_dependency hj
      exact ⟨d, ⟨j, hj, hd⟩, (isForced_iff_mem_forced hownerd).mpr hforced⟩
    · rintro ⟨d, ⟨j, hj, hd⟩, hforced⟩
      obtain ⟨d', hd', hownerd⟩ := h.ownerOf_dependency hj
      obtain rfl : d' = d := Option.some.inj (hd'.symm.trans hd)
      exact ⟨j, hj, (isForced_iff_mem_forced hownerd).mp hforced⟩

/-- A job with a name of its own is forced exactly if it is forced by itself or needs a forced job. -/
theorem isForced_iff (h : graph.Built passthrough) (hnames : (graph.jobs.map Job.name).Nodup)
    {job : Job} (hjob : job ∈ graph.jobs) :
    graph.isForced job.name = true ↔ job.settings.force = true ∨
      ∃ d ∈ graph.pipelineNeeds job.name, graph.isForced d.name = true := by
  rw [h.isForced_iff_hasForce_or, HasForce, get?_eq hnames hjob]
  simp

theorem mem_topological (h : graph.Built passthrough) {job : Job} :
    job ∈ graph.topological ↔ job ∈ graph.jobs := by
  rw [topological, List.mem_filterMap]
  constructor
  · rintro ⟨i, -, hi⟩
    exact List.mem_of_getElem? hi
  · intro hjob
    obtain ⟨i, hi⟩ := List.mem_iff_getElem?.mp hjob
    exact ⟨i, (h.mem_order i).mpr (List.getElem?_eq_some_iff.mp hi).1, hi⟩

/-- In the order of the graph every job stands after the jobs that it needs. -/
theorem needs_before (h : graph.Built passthrough) (hnames : (graph.jobs.map Job.name).Nodup)
    {done rest : List Job} {job : Job} (hsplit : graph.topological = done ++ job :: rest) :
    ∀ d ∈ graph.pipelineNeeds job.name, d ∈ done := by
  obtain ⟨front, back, horder, hfront, hback⟩ := List.filterMap_eq_append_iff.mp hsplit
  obtain ⟨skipped, i, back', rfl, hskipped, hi, -⟩ := List.filterMap_eq_cons_iff.mp hback
  intro d hd
  rw [pipelineNeeds, ownerOf_name hnames hi] at hd
  obtain ⟨j, hj, hjd⟩ := List.mem_filterMap.mp hd
  have hdone : j ∈ front ++ skipped :=
    h.sorted.before (front ++ skipped) i back' (by simp [horder]) j hj
  rw [← hfront, List.mem_filterMap]
  refine ⟨j, (List.mem_append.mp hdone).resolve_right fun hmem => ?_, hjd⟩
  rw [hskipped j hmem] at hjd
  cases hjd

/-- What holds of a name if it holds of all that its owner needs, holds of every name. -/
theorem induction_on_pipelineNeeds (h : graph.Built passthrough) {motive : Text → Prop}
    (step : ∀ name, (∀ d ∈ graph.pipelineNeeds name, motive d.name) → motive name) (name : Text) :
    motive name := by
  have hpositions : ∀ i ∈ graph.order, ∀ name, ownerOf graph.jobs name = some i → motive name := by
    -- what a position depends on stands before it in the order of the graph
    refine h.sorted.induction fun i _ ih name howner => step name fun d hd => ?_
    rw [pipelineNeeds, howner] at hd
    obtain ⟨j, hj, hjob⟩ := List.mem_filterMap.mp hd
    obtain ⟨d', hd', hownerd⟩ := h.ownerOf_dependency hj
    obtain rfl : d' = d := Option.some.inj (hd'.symm.trans hjob)
    exact ih j hj d'.name hownerd
  cases howner : ownerOf graph.jobs name with
  | none =>
    refine step name fun d hd => ?_
    rw [pipelineNeeds, howner] at hd
    cases hd
  | some i =>
    obtain ⟨job, hjob, -⟩ := ownerOf_eq_some howner
    exact hpositions i ((h.mem_order i).mpr (List.getElem?_eq_some_iff.mp hjob).1) name howner

/-- What holds of a job if it holds of all jobs that it needs, holds of every job of the graph. -/
theorem induction_on_needs (h : graph.Built passthrough) (hnames : (graph.jobs.map Job.name).Nodup)
    {motive : Job → Prop} (step : ∀ job ∈ graph.jobs,
      (∀ d ∈ graph.pipelineNeeds job.name, motive d) → motive job) : ∀ job ∈ graph.jobs, motive job := by
  suffices hall : ∀ name, ∀ job ∈ graph.jobs, job.name = name → motive job from
    fun job hjob => hall job.name job hjob rfl
  refine h.induction_on_pipelineNeeds ?_
  rintro name ih job hjob rfl
  refine step job hjob fun d hd => ?_
  exact ih d hd d ((h.mem_pipelineNeeds hnames hjob).mp hd).1 rfl

/-- The names in the order of the graph are distinct. -/
theorem nodup_topological (h : graph.Built passthrough) (hnames : (graph.jobs.map Job.name).Nodup) :
    (graph.topological.map Job.name).Nodup := by
  rw [topological, List.map_filterMap]
  refine List.Nodup.filterMap ?_ h.sorted.nodup
  intro i j name hi hj
  obtain ⟨a, ha, rfl⟩ := Option.map_eq_some_iff.mp hi
  obtain ⟨b, hb, hname⟩ := Option.map_eq_some_iff.mp hj
  have := ownerOf_name hnames ha
  rw [← hname, ownerOf_name hnames hb] at this
  exact (Option.some.inj this).symm

/-- The order of the graph lists every job once. -/
theorem perm_topological (h : graph.Built passthrough) (hnames : (graph.jobs.map Job.name).Nodup) :
    graph.topological.Perm graph.jobs :=
  (List.perm_ext_iff_of_nodup (h.nodup_topological hnames).of_map hnames.of_map).mpr fun _ =>
    h.mem_topological

/-- The settings of a name are those of a job that owns it. -/
theorem exists_owner_of_get? {name : Text} {settings : JobSettings} (h : graph.get? name = some settings) :
    ∃ i job, ownerOf graph.jobs name = some i ∧ graph.jobs[i]? = some job ∧ job.name = name ∧
      job.settings = settings := by
  obtain ⟨i, howner, hi⟩ := Option.bind_eq_some_iff.mp h
  obtain ⟨job, hjob, hname⟩ := ownerOf_eq_some howner
  rw [hjob] at hi
  exact ⟨i, job, howner, hjob, hname, Option.some.inj hi⟩

/-- The names of the jobs that the owner of a name needs are those of its needs that name a job, in their
order. -/
theorem names_pipelineNeeds (h : graph.Built passthrough) {name : Text} {settings : JobSettings}
    (hsettings : graph.get? name = some settings) : (graph.pipelineNeeds name).map Job.name
      = settings.needs.filter (· ∈ graph.jobs.map Job.name) := by
  obtain ⟨i, job, howner, hi, -, rfl⟩ := exists_owner_of_get? hsettings
  rw [pipelineNeeds, howner]
  simp only [h.dependenciesOf_eq hi, List.filterMap_filterMap, List.map_filterMap]
  rw [← List.filterMap_eq_filter]
  refine List.filterMap_congr fun need _ => ?_
  cases howner : ownerOf graph.jobs need with
  | none =>
    have hnone := ownerOf_eq_none_iff.mp howner
    have hmem : need ∉ graph.jobs.map Job.name := fun hmem => by
      obtain ⟨other, hother, rfl⟩ := List.mem_map.mp hmem
      exact hnone other hother rfl
    simp [Option.guard, hmem]
  | some j =>
    obtain ⟨other, hother, rfl⟩ := ownerOf_eq_some howner
    have hmem : other.name ∈ graph.jobs.map Job.name :=
      List.mem_map_of_mem (List.mem_of_getElem? hother)
    simp only [Option.bind_some, hother, Option.map_some, Option.guard, hmem, decide_true, if_true]

theorem map_pipelineNeeds (h : graph.Built passthrough) (hnames : (graph.jobs.map Job.name).Nodup)
    {job : Job} (hjob : job ∈ graph.jobs) : (graph.pipelineNeeds job.name).map Job.name
      = job.settings.needs.filter (· ∈ graph.jobs.map Job.name) :=
  h.names_pipelineNeeds (get?_eq hnames hjob)

end Built

end JobGraph

end CachedWorkflow
