import CachedWorkflow.Proofs.Text.Names
import CachedWorkflow.Workflow.Gate

/-!
# Proofs: references to the initialization job

The only outputs of the initialization job that generated texts refer to are those that they are meant
to. A reference has three dots, which no job identifier has, so counting dots tells where one may
stand (`RefersTo.eq`, `not_refersTo`).
-/

namespace CachedWorkflow

theorem validateJobId_eq_ok {id : Text} (h : validateJobId id = .ok ()) : IsName id := by
  cases id with
  | nil => cases h
  | cons c rest =>
    rw [validateJobId] at h
    split at h
    · next hc =>
      obtain ⟨hstart, hrest⟩ := Bool.and_eq_true_iff.mp hc
      refine ⟨List.cons_ne_nil _ _, fun d hd => ?_⟩
      rcases List.mem_cons.mp hd with rfl | hd
      · rw [isJobIdStart, Bool.or_eq_true] at hstart
        rcases hstart with halpha | hunder
        · simp [isJobIdChar, Char.isAlphanum, halpha]
        · simp [isJobIdChar, hunder]
      · exact List.all_eq_true.mp hrest d hd
    · cases h

/-! ## References -/

/-- A text refers to an output of the job `init`: the output is the longest name that follows. -/
def RefersTo (init text output : Text) : Prop :=
  ∃ before after, text = before ++ initOutput init output ++ after ∧
    (∀ c ∈ output, isJobIdChar c = true) ∧ ∀ c ∈ after.head?, isJobIdChar c = false

variable {init : Text}

/-- What stands before the name of an output in a reference. -/
theorem initOutput_eq (init output : Text) :
    initOutput init output = "needs" ++ '.' :: (init ++ '.' :: ("outputs" ++ '.' :: output)) := by
  have hneeds : ("needs." : Text) = "needs" ++ ['.'] := rfl
  have houtputs : (".outputs." : Text) = '.' :: ("outputs" ++ ['.']) := rfl
  unfold initOutput
  simp only [hneeds, houtputs, List.append_assoc, List.cons_append, List.nil_append]

theorem count_dot_of_name {name : Text} (h : ∀ c ∈ name, isJobIdChar c = true) :
    name.count '.' = 0 := by
  rw [List.count_eq_zero]
  intro hmem
  have := h '.' hmem
  cases this

theorem count_dot_initOutput (hinit : IsName init) {output : Text}
    (houtput : ∀ c ∈ output, isJobIdChar c = true) : (initOutput init output).count '.' = 3 := by
  have h1 : ("needs" : Text).count '.' = 0 := by decide
  have h2 : ("outputs" : Text).count '.' = 0 := by decide
  rw [initOutput_eq]
  simp only [List.count_append, List.count_cons, beq_self_eq_true, if_true, h1, h2,
    count_dot_of_name hinit.chars, count_dot_of_name houtput]

/-- A text with fewer than three dots has no reference. -/
theorem not_refersTo (hinit : IsName init) {text output : Text} (h : text.count '.' < 3) :
    ¬ RefersTo init text output := by
  rintro ⟨before, after, rfl, houtput, -⟩
  simp only [List.count_append, count_dot_initOutput hinit houtput] at h
  omega

theorem eq_of_append_dot {a b r s : Text} (ha : a.count '.' = 0) (hb : b.count '.' = 0)
    (h : a ++ '.' :: r = b ++ '.' :: s) : a = b ∧ r = s := by
  have hna : ∀ c ∈ a, (c != '.') = true := fun c hc => by
    rw [bne_iff_ne]
    rintro rfl
    exact List.count_eq_zero.mp ha hc
  have hnb : ∀ c ∈ b, (c != '.') = true := fun c hc => by
    rw [bne_iff_ne]
    rintro rfl
    exact List.count_eq_zero.mp hb hc
  have hab : a = b := by
    have := congrArg (List.takeWhile (· != '.')) h
    rwa [List.takeWhile_append_of_pos hna, List.takeWhile_append_of_pos hnb,
      List.takeWhile_cons_of_neg (by decide), List.takeWhile_cons_of_neg (by decide),
      List.append_nil, List.append_nil] at this
  subst hab
  exact ⟨rfl, (List.cons.inj (List.append_cancel_left h)).2⟩

/-- A text that has no dots but those of one reference refers to nothing else. -/
theorem RefersTo.eq (hinit : IsName init) {before after output other : Text}
    (houtput : ∀ c ∈ output, isJobIdChar c = true) (hbefore : before.count '.' = 0)
    (hafter : after.count '.' = 0) (hend : ∀ c ∈ after.head?, isJobIdChar c = false)
    (h : RefersTo init (before ++ initOutput init output ++ after) other) : other = output := by
  obtain ⟨before', after', heq, hother, hend'⟩ := h
  have hcount := congrArg (List.count '.') heq
  simp only [List.count_append, count_dot_initOutput hinit houtput,
    count_dot_initOutput hinit hother] at hcount
  have hneeds : ("needs" : Text).count '.' = 0 := by decide
  have hbefore' : before'.count '.' = 0 := by omega
  rw [initOutput_eq, initOutput_eq] at heq
  simp only [List.append_assoc, List.cons_append] at heq
  rw [← List.append_assoc before, ← List.append_assoc before'] at heq
  obtain ⟨-, htail⟩ := eq_of_append_dot (by rw [List.count_append]; omega)
    (by rw [List.count_append]; omega) heq
  have htail' := (List.cons.inj (List.append_cancel_left htail)).2
  have hnames := (List.cons.inj (List.append_cancel_left htail')).2
  exact (run_append_inj houtput hother hend hend' hnames).1.symm

/-- A reference does not run over a blank. -/
theorem RefersTo.split (hinit : IsName init) {a b output : Text}
    (h : RefersTo init (a ++ ' ' :: b) output) : RefersTo init a output ∨ RefersTo init b output := by
  obtain ⟨before, after, heq, houtput, hend⟩ := h
  have hblank : ' ' ∉ initOutput init output := by
    rw [initOutput_eq]
    simp only [List.mem_append, List.mem_cons, not_or]
    exact ⟨by decide, by decide, hinit.not_mem rfl, by decide, by decide, by decide,
      fun hmem => by cases houtput ' ' hmem⟩
  rcases List.append_eq_append_iff.mp heq with ⟨t, hleft, hright⟩ | ⟨t, hleft, hright⟩
  · cases t with
    | nil =>
      rw [List.append_nil] at hleft
      exact .inl ⟨before, [], by rw [List.append_nil, hleft], houtput, by simp⟩
    | cons c t =>
      obtain ⟨rfl, rfl⟩ := List.cons.inj hright
      rcases List.append_eq_append_iff.mp hleft with ⟨s, hs, hrest⟩ | ⟨s, hs, hrest⟩
      · exact absurd (by rw [hrest]; simp) hblank
      · cases s with
        | nil => exact absurd (by rw [← List.nil_append (initOutput _ _), ← hrest]; simp) hblank
        | cons d s =>
          obtain ⟨-, rfl⟩ := List.cons.inj hrest
          exact .inr ⟨s, after, rfl, houtput, hend⟩
  · refine .inl ⟨before, t, hleft, houtput, fun c hc => ?_⟩
    cases t with
    | nil => cases hc
    | cons d t => exact hend c (by rw [hright]; exact hc)

/-! ## Clauses -/

theorem count_dot_needs_result {job : Text} (hjob : IsName job) (before after : Text)
    (hbefore : before.count '.' = 1) (hafter : after.count '.' = 1) :
    (before ++ job ++ after).count '.' = 2 := by
  simp only [List.count_append, hbefore, hafter, count_dot_of_name hjob.chars]

theorem append_blank (a job b c d : Text) :
    a ++ job ++ (b ++ ' ' :: c) ++ job ++ d = a ++ job ++ b ++ ' ' :: (c ++ job ++ d) := by simp

/-- A clause that the compiler makes, of names only. -/
def Clause.IsGenerated (init : Text) : Clause → Prop
  | .always => True
  | .initialized id => IsName id
  | .finished job => IsName job
  | .needsBuild id job => id = init ∧ IsName job
  | .authored _ => False

/-- The only generated clause that refers to an output of the initialization job is the one that asks
whether a job needs to be built. -/
theorem Clause.IsGenerated.refersTo (hinit : IsName init) {clause : Clause} {output : Text}
    (hclause : clause.IsGenerated init) (h : RefersTo init clause.toText output) :
    ∃ job, clause = .needsBuild init job ∧ output = needsBuildOutput job := by
  cases clause with
  | always => exact absurd h (not_refersTo hinit (by decide))
  | initialized id =>
    have hcount : (Clause.initialized id).toText.count '.' = 2 :=
      count_dot_needs_result hclause "(needs." ".result == 'success')" (by decide) (by decide)
    exact absurd h (not_refersTo hinit (by omega))
  | finished job =>
    have hleft := count_dot_needs_result hclause "(needs." ".result == 'success' ||"
      (by decide) (by decide)
    have hright := count_dot_needs_result hclause "needs." ".result == 'skipped')"
      (by decide) (by decide)
    have hsplit : (Clause.finished job).toText
        = ("(needs." ++ job ++ ".result == 'success' ||") ++ ' '
          :: ("needs." ++ job ++ ".result == 'skipped')") :=
      append_blank "(needs." job ".result == 'success' ||" "needs." ".result == 'skipped')"
    rw [hsplit] at h
    rcases h.split hinit with h | h
    · exact absurd h (not_refersTo hinit (by omega))
    · exact absurd h (not_refersTo hinit (by omega))
  | needsBuild id job =>
    obtain ⟨rfl, hname⟩ := hclause
    refine ⟨job, rfl, ?_⟩
    have hlead : ∀ c ∈ ("needs-build-" : Text), isJobIdChar c = true := by decide
    have houtput : ∀ c ∈ needsBuildOutput job, isJobIdChar c = true := fun c hc =>
      (List.mem_append.mp hc).elim (hlead c) (hname.chars c)
    exact h.eq hinit houtput (by decide) (by decide) (by decide)
  | authored condition => exact hclause.elim

/-- The clauses that the compiler makes; the condition of the author comes after them. -/
theorem gateClauses_eq (config : Configuration) (job : Text) (needs : List Text) (forced : Bool)
    (authored : Option Text) :
    gateClauses config job needs forced authored
      = gateClauses config job needs forced none ++ (authored.map Clause.authored).toList := by
  simp only [gateClauses, Option.map_none, Option.toList_none, List.append_nil]

/-- The clause that asks whether a job needs to be built is there unless the job is forced. -/
theorem needsBuild_mem_gateClauses {config : Configuration} {job : Text} {needs : List Text}
    {forced : Bool} {id other : Text} :
    Clause.needsBuild id other ∈ gateClauses config job needs forced none ↔
      forced = false ∧ id = config.initJobId ∧ other = job := by
  cases forced <;> simp [gateClauses]

theorem isGenerated_of_mem_gateClauses {config : Configuration} {job : Text} {needs : List Text}
    {forced : Bool} (hinit : IsName config.initJobId) (hjob : IsName job)
    (hneeds : ∀ need ∈ needs, IsName need) :
    ∀ clause ∈ gateClauses config job needs forced none, clause.IsGenerated config.initJobId := by
  intro clause hclause
  simp only [gateClauses, List.mem_append, List.mem_cons, List.not_mem_nil, or_false, List.mem_map,
    Option.map_none, Option.toList_none] at hclause
  rcases hclause with ((rfl | rfl) | ⟨need, hneed, rfl⟩) | hbuild
  · exact trivial
  · exact hinit
  · exact hneeds need hneed
  · cases forced with
    | true => simp at hbuild
    | false =>
      obtain rfl := List.mem_singleton.mp hbuild
      exact ⟨rfl, hjob⟩

/-- What the generated clauses of a gate refer to. -/
theorem refersTo_of_mem_gateClauses {config : Configuration} {job : Text} {needs : List Text}
    {forced : Bool} (hinit : IsName config.initJobId) (hjob : IsName job)
    (hneeds : ∀ need ∈ needs, IsName need) {clause : Clause} {output : Text}
    (hclause : clause ∈ gateClauses config job needs forced none)
    (h : RefersTo config.initJobId clause.toText output) :
    forced = false ∧ output = needsBuildOutput job := by
  have hgenerated := isGenerated_of_mem_gateClauses hinit hjob hneeds clause hclause
  obtain ⟨other, rfl, rfl⟩ := hgenerated.refersTo hinit h
  obtain ⟨hforced, -, rfl⟩ := needsBuild_mem_gateClauses.mp hclause
  exact ⟨hforced, rfl⟩

end CachedWorkflow
