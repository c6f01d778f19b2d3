/-!
# Dependencies first

A list of dependencies per position is put into an order in which every position comes after the
positions that it depends on, by a depth-first search that also finds the first cycle on its way.
-/

namespace CachedWorkflow.Order

variable (dependencies : List (List Nat))

/-- The positions that `node` depends on. -/
def dependenciesOf (node : Nat) : List Nat := (dependencies[node]?).getD []

/-- The positions that are not on the path yet. -/
def unvisited (path : List Nat) : List Nat :=
  (List.range dependencies.length).filter (· ∉ path)

theorem length_unvisited_cons_lt {path : List Nat} {node : Nat} (hnode : node < dependencies.length)
    (hpath : node ∉ path) :
    (unvisited dependencies (node :: path)).length < (unvisited dependencies path).length := by
  have hsub : unvisited dependencies (node :: path)
      = (unvisited dependencies path).filter (· ≠ node) := by
    simp only [unvisited, List.filter_filter]
    refine List.filter_congr fun i _ => ?_
    simp [not_or]
  rw [hsub]
  refine List.length_filter_lt_length_iff_exists.mpr ⟨node, ?_, by simp⟩
  simp [unvisited, hnode, hpath]

/-- Visits a position: first all that it depends on, then itself. `path` lists the positions that
are being visited, the last one first, and `finished` those that are done, in order. A position that
is met while it is being visited closes a cycle, which is the failure: each of its elements depends
on the next one, and the last element is the first again. -/
def visit (path finished : List Nat) (node : Nat) : Except (List Nat) (List Nat) :=
  if node ∈ finished then .ok finished
  else if _ : node ∈ path then
    .error ((path.takeWhile (· ≠ node) ++ [node]).reverse ++ [node])
  else if _ : node < dependencies.length then do
    let finished ← (dependenciesOf dependencies node).foldlM (visit (node :: path)) finished
    .ok (finished ++ [node])
  else .ok finished
termination_by (unvisited dependencies path).length
decreasing_by exact length_unvisited_cons_lt dependencies ‹_› ‹_›

/-- All positions, each after those that it depends on, or the first cycle that is found. -/
def topological : Except (List Nat) (List Nat) :=
  (List.range dependencies.length).foldlM (visit dependencies []) []

end CachedWorkflow.Order
