import CachedWorkflow.Path
import CachedWorkflow.Template.Token
import Mathlib.Data.List.Infix

/-!
# Proofs: paths

The segments of a path are parts of it, and normalizing a path makes no new ones. So the normal form of
a path without an opening has none either (`hasOpening_normalize`).
-/

namespace CachedWorkflow

/-! ## Parts of a text -/

theorem prefix_of_prefix_append_cons {p a b : Text} {c : Char} (h : p <+: a ++ c :: b)
    (hc : c ∉ p) : p <+: a := by
  induction a generalizing p with
  | nil =>
    cases p with
    | nil => exact List.prefix_rfl
    | cons d p =>
      obtain ⟨rfl, -⟩ := List.cons_prefix_cons.mp h
      exact absurd List.mem_cons_self hc
  | cons x a ih =>
    cases p with
    | nil => exact List.nil_prefix
    | cons d p =>
      obtain ⟨rfl, htail⟩ := List.cons_prefix_cons.mp h
      exact List.cons_prefix_cons.mpr ⟨rfl, ih htail fun hmem => hc (List.mem_cons_of_mem _ hmem)⟩

/-- What stands in a text on both sides of a character that it does not have stands on one side. -/
theorem infix_of_infix_append_cons {p a b : Text} {c : Char} (h : p <:+: a ++ c :: b)
    (hc : c ∉ p) : p <:+: a ∨ p <:+: b := by
  induction a with
  | nil =>
    rcases List.infix_cons_iff.mp h with h | h
    · exact .inl (prefix_of_prefix_append_cons (a := []) h hc).isInfix
    · exact .inr h
  | cons x a ih =>
    rcases List.infix_cons_iff.mp h with h | h
    · exact .inl (prefix_of_prefix_append_cons (a := x :: a) h hc).isInfix
    · rcases ih h with h | h
      · exact .inl (List.infix_cons h)
      · exact .inr h

theorem Template.hasOpening_iff {text : Text} :
    hasOpening text = true ↔ opening <:+: text := by
  fun_induction hasOpening text with
  | case1 rest => exact ⟨fun _ => ⟨[], rest, rfl⟩, fun _ => rfl⟩
  | case2 c rest hne ih =>
    rw [ih, List.infix_cons_iff]
    refine ⟨.inr, fun h => h.resolve_left ?_⟩
    rintro ⟨tail, htail⟩
    obtain ⟨rfl, rfl⟩ := List.cons.inj htail
    exact hne tail rfl rfl
  | case3 => simp [opening]

namespace Path

/-! ## Segments -/

/-- The segments with the slashes between them are the path. -/
theorem segmentsFrom_join (inside : Bool) (path : Text) :
    (segmentsFrom inside path).1 ++ (segmentsFrom inside path).2.flatMap ('/' :: ·) = path := by
  fun_induction segmentsFrom inside path <;> simp_all

theorem infix_of_mem_segments {path segment : Text} (h : segment ∈ segments path) :
    segment <:+: path := by
  have hjoin := segmentsFrom_join false path
  rw [segments] at h
  rcases List.mem_cons.mp h with rfl | h
  · exact ⟨[], _, hjoin⟩
  · obtain ⟨front, back, hsplit⟩ := List.append_of_mem h
    rw [hsplit, List.flatMap_append, List.flatMap_cons] at hjoin
    refine ⟨(segmentsFrom false path).1 ++ front.flatMap ('/' :: ·) ++ ['/'],
      back.flatMap ('/' :: ·), Eq.trans ?_ hjoin⟩
    simp

/-! ## Normal forms -/

/-- A segment that is taken into account is put behind the others, undoes the last one or does nothing. -/
theorem push_sublist (absolute : Bool) (stack : List Text) (segment : Text) :
    (push absolute stack segment).reverse.Sublist (stack.reverse ++ [segment]) := by
  have hkeep : stack.reverse.Sublist (stack.reverse ++ [segment]) := List.sublist_append_left _ _
  have hput : (segment :: stack).reverse.Sublist (stack.reverse ++ [segment]) := by
    rw [List.reverse_cons]
  unfold push
  by_cases hidle : segment = [] ∨ segment = ['.']
  · rwa [if_pos hidle]
  by_cases hup : segment = ['.', '.']
  · rw [if_neg hidle, if_pos hup]
    cases stack with
    | nil => cases absolute with
      | true => exact hkeep
      | false => exact hput
    | cons last below =>
      have hundo : below.reverse.Sublist ((last :: below).reverse ++ [segment]) := by
        rw [List.reverse_cons, List.append_assoc]
        exact List.sublist_append_left _ _
      by_cases hlast : last = ['.', '.']
      · cases absolute with
        | true => simpa only [hlast, if_true] using hkeep
        | false => simpa only [hlast, if_true, Bool.false_eq_true, if_false] using hput
      · simpa only [hlast, if_false] using hundo
  · rwa [if_neg hidle, if_neg hup]

/-- The segments that are left are segments that were taken into account, in their order. -/
theorem foldl_push_sublist (absolute : Bool) (segs stack : List Text) :
    (segs.foldl (push absolute) stack).reverse.Sublist (stack.reverse ++ segs) := by
  induction segs generalizing stack with
  | nil => simp
  | cons segment rest ih =>
    have hsegment := (push_sublist absolute stack segment).append_right rest
    rw [List.append_assoc, List.singleton_append] at hsegment
    exact (ih (push absolute stack segment)).trans hsegment

theorem mem_of_mem_foldl_push {absolute : Bool} {segs : List Text} {part : Text}
    (h : part ∈ segs.foldl (push absolute) []) : part ∈ segs :=
  (foldl_push_sublist absolute segs []).subset (List.mem_reverse.mpr h)

theorem infix_of_infix_intercalate {p : Text} (hp : p ≠ []) (hslash : '/' ∉ p) {parts : List Text}
    (h : p <:+: List.intercalate ['/'] parts) : ∃ part ∈ parts, p <:+: part := by
  induction parts with
  | nil => exact absurd (List.infix_nil.mp h) hp
  | cons part rest ih =>
    cases rest with
    | nil =>
      rw [List.intercalate_singleton] at h
      exact ⟨part, List.mem_cons_self, h⟩
    | cons next rest =>
      rw [List.intercalate_cons_cons, List.append_assoc, List.singleton_append] at h
      rcases infix_of_infix_append_cons h hslash with h | h
      · exact ⟨part, List.mem_cons_self, h⟩
      · obtain ⟨other, hmem, hother⟩ := ih h
        exact ⟨other, List.mem_cons_of_mem _ hmem, hother⟩

/-- The segments that are left of a path, with slashes between them. -/
def remaining (path : Text) : Text :=
  List.intercalate ['/'] ((segments path).foldl (push (isAbsolute path)) []).reverse

theorem normalize_eq (path : Text) :
    normalize path = if isAbsolute path then '/' :: remaining path
      else if (remaining path).isEmpty then ['.'] else remaining path := rfl

/-- The normal form of a path is never empty. -/
theorem normalize_ne_nil (path : Text) : normalize path ≠ [] := by
  rw [normalize_eq]
  split
  · exact List.cons_ne_nil _ _
  · split
    · exact List.cons_ne_nil _ _
    · next hne => simpa using hne

/-- Normalizing a path makes no opening. -/
theorem hasOpening_normalize {path : Text} (h : Template.hasOpening path = false) :
    Template.hasOpening (normalize path) = false := by
  rw [Bool.eq_false_iff, ne_eq, Template.hasOpening_iff] at h ⊢
  have hslash : '/' ∉ Template.opening := by decide
  have hremaining : ¬ Template.opening <:+: remaining path := by
    intro hopening
    obtain ⟨part, hmem, hpart⟩ := infix_of_infix_intercalate (by decide) hslash hopening
    have hsegment := mem_of_mem_foldl_push (List.mem_reverse.mp hmem)
    exact h (hpart.trans (infix_of_mem_segments hsegment))
  rw [normalize_eq]
  intro hopening
  split at hopening
  · rcases infix_of_infix_append_cons (a := []) hopening hslash with hnil | hopening
    · exact absurd (List.infix_nil.mp hnil) (by decide)
    · exact hremaining hopening
  · split at hopening
    · exact absurd hopening (by decide)
    · exact hremaining hopening

end Path

end CachedWorkflow
