import CachedWorkflow.Proofs.Job.Order
import Mathlib.Data.List.Chain
import Mathlib.Logic.Relation

/-!
# Proofs: cycles

The search for an order fails exactly if some position depends on itself through others, and what it
reports then is a loop of distinct positions (`isLoop_of_topological`). The other direction is that
an order with dependencies first leaves no room for a loop (`Sorted.acyclic`).
-/

namespace CachedWorkflow

open Relation

/-- A list that follows `r` from its first element through distinct elements back to the first. -/
def IsLoop {α : Type} (r : α → α → Prop) (loop : List α) : Prop :=
  ∃ first rest, loop = first :: rest ++ [first] ∧ (first :: rest).Nodup ∧ loop.IsChain r

section Loop

variable {α β : Type} {r : α → α → Prop} {loop : List α}

/-- A list that follows `r` leads from its first element to its last. -/
theorem transGen_of_isChain {first last : α} {between : List α}
    (h : (first :: between ++ [last]).IsChain r) : TransGen r first last := by
  obtain ⟨next, tail, htail⟩ : ∃ next tail, between ++ [last] = next :: tail :=
    List.exists_cons_of_ne_nil (by simp)
  rw [List.cons_append, htail, List.isChain_cons_cons] at h
  have hlast : (next :: tail).getLast (List.cons_ne_nil _ _) = last := by
    simp only [← htail, List.getLast_append_singleton]
  have hrest : ReflTransGen r next last :=
    List.relationReflTransGen_of_exists_isChain_cons tail h.2 hlast
  exact TransGen.head' h.1 hrest

theorem IsLoop.exists_transGen (h : IsLoop r loop) : ∃ a, TransGen r a a := by
  obtain ⟨first, rest, rfl, -, hchain⟩ := h
  exact ⟨first, transGen_of_isChain hchain⟩

/-- A loop has a successor for each of its elements. -/
theorem IsLoop.exists_of_mem (h : IsLoop r loop) {a : α} (ha : a ∈ loop) : ∃ b, r a b := by
  obtain ⟨first, rest, rfl, -, hchain⟩ := h
  -- the last element is also the first one
  have hmem : a ∈ first :: rest := by
    rcases List.mem_append.mp ha with ha | ha
    · exact ha
    · exact List.mem_singleton.mp ha ▸ List.mem_cons_self
  obtain ⟨before, after, hsplit⟩ := List.append_of_mem hmem
  rw [hsplit, List.append_assoc, List.cons_append] at hchain
  obtain ⟨next, tail, htail⟩ : ∃ next tail, after ++ [first] = next :: tail :=
    List.exists_cons_of_ne_nil (by simp)
  rw [htail] at hchain
  exact ⟨next, (List.isChain_cons_cons.mp hchain.right_of_append).1⟩

theorem IsLoop.map {s : β → β → Prop} {f : α → β} (h : IsLoop r loop)
    (hstep : ∀ a b, r a b → s (f a) (f b)) (hinj : ∀ a ∈ loop, ∀ b ∈ loop, f a = f b → a = b) :
    IsLoop s (loop.map f) := by
  obtain ⟨first, rest, rfl, hnodup, hchain⟩ := h
  refine ⟨f first, rest.map f, by simp, ?_, List.isChain_map_of_isChain f hstep hchain⟩
  rw [← List.map_cons]
  exact hnodup.map_on fun a ha b hb =>
    hinj a (List.mem_append_left _ ha) b (List.mem_append_left _ hb)

end Loop

namespace Order

variable {dependencies : List (List Nat)}

/-- `b` is one of the positions that `a` depends on. -/
def DependsOn (dependencies : List (List Nat)) (a b : Nat) : Prop :=
  b ∈ dependenciesOf dependencies a

theorem DependsOn.lt_length {a b : Nat} (h : DependsOn dependencies a b) :
    a < dependencies.length := by
  by_contra hge
  rw [DependsOn, dependenciesOf, List.getElem?_eq_none (Nat.le_of_not_lt hge)] at h
  cases h

/-- The part of the path up to a position that is met again leads back to this position. -/
theorem isLoop_of_mem_path {path : List Nat} {node : Nat} (hnode : node ∈ path)
    (hnodup : path.Nodup) (hpath : (node :: path).IsChain fun a b => DependsOn dependencies b a) :
    IsLoop (DependsOn dependencies)
      ((path.takeWhile (· ≠ node) ++ [node]).reverse ++ [node]) := by
  obtain ⟨recent, older, rfl⟩ := List.append_of_mem hnode
  obtain ⟨hrecent, -, hdisjoint⟩ := List.nodup_append.mp hnodup
  have hfresh : node ∉ recent := fun hmem => hdisjoint node hmem node List.mem_cons_self rfl
  have htake : (recent ++ node :: older).takeWhile (· ≠ node) = recent := by
    have hall : ∀ a ∈ recent, decide (a ≠ node) = true := fun a ha =>
      decide_eq_true fun h => hfresh (h ▸ ha)
    rw [List.takeWhile_append_of_pos hall, List.takeWhile_cons_of_neg (by simp), List.append_nil]
  rw [htake]
  refine ⟨node, recent.reverse, by simp, ?_, ?_⟩
  · rw [List.nodup_cons, List.mem_reverse, List.nodup_reverse]
    exact ⟨hfresh, hrecent⟩
  · -- read backwards, the loop is the beginning of the path
    have hback : (node :: (recent ++ [node])).IsChain fun a b => DependsOn dependencies b a :=
      hpath.prefix ⟨older, by simp⟩
    rw [← List.isChain_reverse] at hback
    simpa using hback

/-- A visit that fails reports a loop, if each position of the path depends on the one visited after
it. The induction is on the positions that are not on the path. -/
theorem isLoop_of_visit (path finished : List Nat) (node : Nat) {loop : List Nat}
    (h : visit dependencies path finished node = .error loop) (hnodup : path.Nodup)
    (hpath : (node :: path).IsChain fun a b => DependsOn dependencies b a) :
    IsLoop (DependsOn dependencies) loop := by
  induction path, finished, node using visit.induct dependencies with
  | case1 path finished node hdone =>
    rw [visit, if_pos hdone] at h
    cases h
  | case2 path finished node hdone hmem =>
    rw [visit, if_neg hdone, dif_pos hmem] at h
    cases h
    exact isLoop_of_mem_path hmem hnodup hpath
  | case3 path finished node hdone hfresh hlt ih =>
    rw [visit, if_neg hdone, dif_neg hfresh, dif_pos hlt, bind_eq_error] at h
    rcases h with h | ⟨below, -, h⟩
    · obtain ⟨d, hd, finished', hvisit⟩ := exists_of_foldlM_eq_error h
      exact ih finished' d hvisit (List.nodup_cons.mpr ⟨hfresh, hnodup⟩)
        (List.isChain_cons_cons.mpr ⟨hd, hpath⟩)
    · cases h
  | case4 path finished node hdone hfresh hlt =>
    rw [visit, if_neg hdone, dif_neg hfresh, dif_neg hlt] at h
    cases h

/-- What the search reports when it fails is a loop. -/
theorem isLoop_of_topological {loop : List Nat} (h : topological dependencies = .error loop) :
    IsLoop (DependsOn dependencies) loop := by
  obtain ⟨node, -, finished, hvisit⟩ := exists_of_foldlM_eq_error h
  exact isLoop_of_visit [] finished node hvisit List.nodup_nil (List.isChain_singleton node)

/-- In a sorted order a dependency has the smaller index. -/
theorem Sorted.idxOf_lt {order : List Nat} (h : Sorted dependencies order) {a b : Nat}
    (ha : a ∈ order) (hab : DependsOn dependencies a b) : order.idxOf b < order.idxOf a := by
  obtain ⟨done, rest, rfl⟩ := List.append_of_mem ha
  have hb : b ∈ done := h.before done a rest rfl b hab
  have hfresh : a ∉ done := fun hmem =>
    (List.nodup_append.mp h.nodup).2.2 a hmem a List.mem_cons_self rfl
  have hfirst : (done ++ a :: rest).idxOf b = done.idxOf b := List.idxOf_append_of_mem hb
  have hsecond : (done ++ a :: rest).idxOf a = done.length := by
    rw [List.idxOf_append_of_notMem hfresh, List.idxOf_cons_self, Nat.add_zero]
  rw [hfirst, hsecond]
  exact List.idxOf_lt_length_of_mem hb

/-- A sorted order of all positions leaves no position that depends on itself through others. -/
theorem Sorted.acyclic {order : List Nat} (h : Sorted dependencies order)
    (hall : ∀ i < dependencies.length, i ∈ order) (a : Nat) :
    ¬ TransGen (DependsOn dependencies) a a := by
  have hlt : ∀ b, TransGen (DependsOn dependencies) a b → order.idxOf b < order.idxOf a := by
    intro b hb
    induction hb with
    | single hab => exact h.idxOf_lt (hall a hab.lt_length) hab
    | tail _ hbc ih => exact (h.idxOf_lt (hall _ hbc.lt_length) hbc).trans ih
  exact fun hself => Nat.lt_irrefl _ (hlt a hself)

end Order

end CachedWorkflow
