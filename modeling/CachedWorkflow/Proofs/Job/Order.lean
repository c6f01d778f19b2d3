import CachedWorkflow.Job.Order
import CachedWorkflow.Proofs.Outcome
import Mathlib.Data.List.Nodup
import Mathlib.Data.List.Infix

/-!
# Proofs: dependencies first

A search that does not fail lists every position once, each after the positions that it depends on
(`topological_sorted`, `mem_topological`). The invariant of a visit (`Extends`) is that the order only
grows, that it stays sorted, and that nothing on the path is finished.
-/

namespace CachedWorkflow.Order

variable {dependencies : List (List Nat)}

/-- All dependencies are positions of the list. -/
def Bounded (dependencies : List (List Nat)) : Prop :=
  ∀ node, ∀ d ∈ dependenciesOf dependencies node, d < dependencies.length

/-- An order that lists no position twice, and each after the positions that it depends on. -/
structure Sorted (dependencies : List (List Nat)) (order : List Nat) : Prop where
  nodup : order.Nodup
  before : ∀ done node rest, order = done ++ node :: rest →
    ∀ d ∈ dependenciesOf dependencies node, d ∈ done

theorem Sorted.nil : Sorted dependencies [] :=
  ⟨List.nodup_nil, fun done node rest h => by simp at h⟩

theorem Sorted.mem {order : List Nat} (h : Sorted dependencies order) {node d : Nat}
    (hnode : node ∈ order) (hd : d ∈ dependenciesOf dependencies node) : d ∈ order := by
  obtain ⟨done, rest, rfl⟩ := List.append_of_mem hnode
  exact List.mem_append_left _ (h.before done node rest rfl d hd)

/-- A position whose dependencies are done may come next. -/
theorem Sorted.append_singleton {order : List Nat} {node : Nat} (h : Sorted dependencies order)
    (hnode : node ∉ order) (hdone : ∀ d ∈ dependenciesOf dependencies node, d ∈ order) :
    Sorted dependencies (order ++ [node]) := by
  refine ⟨List.nodup_append.mpr ⟨h.nodup, List.nodup_singleton node, ?_⟩, ?_⟩
  · rintro a ha b hb rfl
    exact hnode (List.mem_singleton.mp hb ▸ ha)
  · intro done a rest hsplit d hd
    rcases List.eq_nil_or_concat rest with rfl | ⟨rest, z, rfl⟩
    · obtain ⟨rfl, hlast⟩ := List.append_inj' hsplit rfl
      cases hlast
      exact hdone d hd
    · have hsplit' : order ++ [node] = (done ++ a :: rest) ++ [z] := by simpa using hsplit
      obtain ⟨horder, -⟩ := List.append_inj' hsplit' rfl
      exact h.before done a rest horder d hd

/-- The last position is new, and its dependencies are done. -/
theorem Sorted.of_append_singleton {order : List Nat} {node : Nat}
    (h : Sorted dependencies (order ++ [node])) : Sorted dependencies order ∧ node ∉ order ∧
      ∀ d ∈ dependenciesOf dependencies node, d ∈ order := by
  obtain ⟨hnodup, -, hdisjoint⟩ := List.nodup_append.mp h.nodup
  refine ⟨⟨hnodup, fun done a rest hsplit => ?_⟩, fun hmem => ?_, h.before order node [] rfl⟩
  · refine h.before done a (rest ++ [node]) ?_
    rw [hsplit, List.append_assoc, List.cons_append]
  · exact hdisjoint node hmem node (List.mem_singleton_self node) rfl

/-- What holds of a position if it holds of all its dependencies holds of every position of the order. -/
theorem Sorted.induction {order : List Nat} (h : Sorted dependencies order) {motive : Nat → Prop}
    (step : ∀ node ∈ order, (∀ d ∈ dependenciesOf dependencies node, motive d) → motive node) :
    ∀ node ∈ order, motive node := by
  induction order using List.reverseRecOn with
  | nil => simp
  | append_singleton done last ih =>
    obtain ⟨hdone, -, hdeps⟩ := h.of_append_singleton
    have hbefore : ∀ node ∈ done, motive node :=
      ih hdone fun node hnode => step node (List.mem_append_left [last] hnode)
    have hlast : motive last := step last (by simp) fun d hd => hbefore d (hdeps d hd)
    rw [List.forall_mem_append, List.forall_mem_singleton]
    exact ⟨hbefore, hlast⟩

/-- What a visit under a path does to the order of what is finished. -/
structure Extends (dependencies : List (List Nat)) (path finished finished' : List Nat) : Prop where
  sorted : Sorted dependencies finished'
  grows : finished <+: finished'
  avoids : ∀ p ∈ path, p ∉ finished → p ∉ finished'
  bounded : ∀ i ∈ finished', i ∈ finished ∨ i < dependencies.length

theorem Extends.refl {path finished : List Nat} (h : Sorted dependencies finished) :
    Extends dependencies path finished finished :=
  ⟨h, List.prefix_refl finished, fun _ _ hp => hp, fun _ hi => .inl hi⟩

theorem Extends.trans {path a b c : List Nat} (hab : Extends dependencies path a b)
    (hbc : Extends dependencies path b c) : Extends dependencies path a c where
  sorted := hbc.sorted
  grows := hab.grows.trans hbc.grows
  avoids p hp ha := hbc.avoids p hp (hab.avoids p hp ha)
  bounded i hi := (hbc.bounded i hi).elim (hab.bounded i) .inr

/-- The claim for one visit. -/
def VisitSpec (dependencies : List (List Nat)) (path finished : List Nat) (node : Nat) : Prop :=
  ∀ finished', visit dependencies path finished node = .ok finished' →
    Sorted dependencies finished →
    Extends dependencies path finished finished' ∧ (node < dependencies.length → node ∈ finished')

/-- Visits one after the other, if each of them is as claimed. -/
theorem foldlM_visit {path finished finished' nodes : List Nat}
    (hvisit : ∀ finished node, VisitSpec dependencies path finished node)
    (h : nodes.foldlM (visit dependencies path) finished = .ok finished')
    (hsorted : Sorted dependencies finished) :
    Extends dependencies path finished finished' ∧
      ∀ node ∈ nodes, node < dependencies.length → node ∈ finished' := by
  refine foldlM_induction (motive := fun seen b => Extends dependencies path finished b ∧
    ∀ node ∈ seen, node < dependencies.length → node ∈ b) h ⟨.refl hsorted, by simp⟩ ?_
  rintro seen node rest b b' - ⟨hext, hseen⟩ hstep
  obtain ⟨hext', hnode⟩ := hvisit b node b' hstep hext.sorted
  refine ⟨hext.trans hext', fun i hi hlt => ?_⟩
  rcases List.mem_append.mp hi with hi | hi
  · exact hext'.grows.subset (hseen i hi hlt)
  · rw [List.mem_singleton.mp hi] at hlt ⊢
    exact hnode hlt

/-- Every visit finishes its node, keeps the order sorted and finishes nothing on the path. The
induction is on the positions that are not on the path. -/
theorem visit_spec (hbound : Bounded dependencies) (path finished : List Nat) (node : Nat) :
    VisitSpec dependencies path finished node := by
  induction path, finished, node using visit.induct dependencies with
  | case1 path finished node hdone =>
    intro finished' h hsorted
    rw [visit, if_pos hdone] at h
    cases h
    exact ⟨.refl hsorted, fun _ => hdone⟩
  | case2 path finished node hdone hpath =>
    intro finished' h
    rw [visit, if_neg hdone, dif_pos hpath] at h
    cases h
  | case3 path finished node hdone hpath hlt ih =>
    intro finished' h hsorted
    rw [visit, if_neg hdone, dif_neg hpath, dif_pos hlt, bind_eq_ok] at h
    obtain ⟨below, hbelow, h⟩ := h
    cases h
    obtain ⟨hext, hall⟩ := foldlM_visit ih hbelow hsorted
    have hdeps : ∀ d ∈ dependenciesOf dependencies node, d ∈ below := fun d hd =>
      hall d hd (hbound node d hd)
    have hnode : node ∉ below := hext.avoids node List.mem_cons_self hdone
    refine ⟨⟨hext.sorted.append_singleton hnode hdeps, ?_, ?_, ?_⟩, fun _ => by simp⟩
    · exact hext.grows.trans (List.prefix_append below [node])
    · intro p hp hfresh hmem
      rcases List.mem_append.mp hmem with hmem | hmem
      · exact hext.avoids p (List.mem_cons_of_mem _ hp) hfresh hmem
      · exact hpath (List.mem_singleton.mp hmem ▸ hp)
    · intro i hi
      rcases List.mem_append.mp hi with hi | hi
      · exact hext.bounded i hi
      · exact .inr (List.mem_singleton.mp hi ▸ hlt)
  | case4 path finished node hdone hpath hlt =>
    intro finished' h hsorted
    rw [visit, if_neg hdone, dif_neg hpath, dif_neg hlt] at h
    cases h
    exact ⟨.refl hsorted, fun h => absurd h hlt⟩

theorem topological_extends (hbound : Bounded dependencies) {order : List Nat}
    (h : topological dependencies = .ok order) :
    Extends dependencies [] [] order ∧ ∀ i < dependencies.length, i ∈ order := by
  obtain ⟨hext, hall⟩ := foldlM_visit (visit_spec hbound []) h .nil
  exact ⟨hext, fun i hi => hall i (List.mem_range.mpr hi) hi⟩

/-- The order that the search finds is sorted. -/
theorem topological_sorted (hbound : Bounded dependencies) {order : List Nat}
    (h : topological dependencies = .ok order) : Sorted dependencies order :=
  (topological_extends hbound h).1.sorted

/-- The order that the search finds has all positions. -/
theorem mem_topological (hbound : Bounded dependencies) {order : List Nat}
    (h : topological dependencies = .ok order) {i : Nat} : i ∈ order ↔ i < dependencies.length := by
  obtain ⟨hext, hall⟩ := topological_extends hbound h
  exact ⟨fun hi => (hext.bounded i hi).resolve_left List.not_mem_nil, hall i⟩

end CachedWorkflow.Order
