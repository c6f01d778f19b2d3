import CachedWorkflow.Proofs.Job.Graph
import Mathlib.Logic.Relation

/-!
# Proofs: force

Force is spread once over the order of the graph, and this finds all that is upstream: a name is forced
exactly if needs lead from it to a name whose owner has force set (`isForced_iff_exists_upstream`). Jobs
may have the same name, and may need a job more than once.
-/

namespace CachedWorkflow.JobGraph

open Relation

/-- The owner of a name needs a job with the next name. -/
def NeedsNext (graph : JobGraph) (name next : Text) : Prop :=
  ∃ d ∈ graph.pipelineNeeds name, d.name = next

namespace Built

variable {graph : JobGraph} {passthrough : List Text}

/-- A name that is forced leads to the reason for it. The induction is on what the owner needs. -/
theorem exists_upstream_of_isForced (h : graph.Built passthrough) (name : Text)
    (hforced : graph.isForced name = true) :
    ∃ upstream, ReflTransGen graph.NeedsNext name upstream ∧ graph.HasForce upstream := by
  induction name using h.induction_on_pipelineNeeds with
  | step name ih =>
    rcases (h.isForced_iff_hasForce_or name).mp hforced with hown | ⟨d, hd, hforcedd⟩
    · exact ⟨name, ReflTransGen.refl, hown⟩
    · obtain ⟨upstream, hreach, hforce⟩ := ih d hd hforcedd
      have hstep : graph.NeedsNext name d.name := ⟨d, hd, rfl⟩
      exact ⟨upstream, ReflTransGen.head hstep hreach, hforce⟩

/-- Force comes down along needs, from the end of a chain to its beginning. -/
theorem isForced_of_upstream (h : graph.Built passthrough) {name upstream : Text}
    (hreach : ReflTransGen graph.NeedsNext name upstream) (hforce : graph.HasForce upstream) :
    graph.isForced name = true := by
  induction hreach using ReflTransGen.head_induction_on with
  | refl => exact (h.isForced_iff_hasForce_or upstream).mpr (.inl hforce)
  | @head name next hstep _ ih =>
    obtain ⟨d, hd, rfl⟩ := hstep
    exact (h.isForced_iff_hasForce_or name).mpr (.inr ⟨d, hd, ih⟩)

end Built

/-- A name is forced exactly if needs lead from it, in any number of steps, to a name whose owner has force
set. -/
theorem isForced_iff_exists_upstream {jobs : List Job} {passthrough : List Text} {graph : JobGraph}
    (hgraph : ofJobs jobs passthrough = .ok graph) (name : Text) :
    graph.isForced name = true ↔
      ∃ upstream, ReflTransGen graph.NeedsNext name upstream ∧ graph.HasForce upstream := by
  obtain ⟨-, hbuilt⟩ := built_of_ofJobs hgraph
  constructor
  · intro hforced
    exact hbuilt.exists_upstream_of_isForced name hforced
  · rintro ⟨upstream, hreach, hforce⟩
    exact hbuilt.isForced_of_upstream hreach hforce

/-- Two jobs have one name. The second one owns it and has force set, and it is needed through another job
that is needed twice. -/
def releaseJobs : List Job :=
  [⟨"build", {}⟩, ⟨"deploy", { needs := ["test", "approve", "test"] }⟩, ⟨"test", { needs := ["build"] }⟩,
    ⟨"build", { force := true }⟩]

theorem isForced_iff_exists_upstream_releaseJobs :
    ∃ graph, ofJobs releaseJobs ["approve"] = .ok graph ∧ graph.isForced "deploy" = true ∧
      ∃ upstream, ReflTransGen graph.NeedsNext "deploy" upstream ∧ graph.HasForce upstream := by
  have hok : (ofJobs releaseJobs ["approve"]).toBool = true := by decide +kernel
  obtain ⟨graph, hgraph⟩ := toBool_eq_true.mp hok
  have hforced : ((ofJobs releaseJobs ["approve"]).toOption.any (·.isForced "deploy")) = true := by
    decide +kernel
  rw [hgraph] at hforced
  exact ⟨graph, hgraph, hforced, (isForced_iff_exists_upstream hgraph "deploy").mp hforced⟩

end CachedWorkflow.JobGraph
