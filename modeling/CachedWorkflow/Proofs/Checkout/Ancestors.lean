import CachedWorkflow.Checkout.Cone
import CachedWorkflow.Proofs.Path.Dirname

/-!
# Proofs: the directories that a path is in

Going up from a relative path in normal form takes one segment away at a time, and nothing is left when all
are gone (`iterate_dirname_intercalate`): what is left on the way is in normal form as well, and divided into
the segments that it was made of, although it is divided anew at every step. So the recursion that adds the
directories that a path is in takes at most one step for each segment (`Cone.exists_addsDirIn`), and it ends for
all relative paths (`Cone.addsPaths_foldl`).
-/

namespace CachedWorkflow

namespace Path

/-! ## Up from a path in normal form -/

variable {parts : List Text} {path : Text}

theorem length_intercalate_lt (parts : List Text) {part : Text} (hne : part ≠ []) :
    (List.intercalate ['/'] parts).length < (List.intercalate ['/'] (parts ++ [part])).length := by
  have hpart : 0 < part.length := List.length_pos_iff.mpr hne
  rw [intercalate_concat, List.length_append]
  by_cases hnil : parts = []
  · subst hnil
    exact Nat.lt_of_lt_of_le hpart (Nat.le_add_left _ _)
  · rw [flatMap_slash hnil, List.length_append]
    omega

/-- Each step up takes the last segment away, until there is none. -/
theorem iterate_dirname_intercalate (h : AreSegments parts) (hne : ∀ part ∈ parts, part ≠ []) (k : Nat) :
    dirname^[k] (List.intercalate ['/'] parts) = List.intercalate ['/'] (parts.take (parts.length - k)) := by
  induction parts using List.reverseRecOn generalizing k with
  | nil => simpa using Function.iterate_fixed (f := dirname) rfl k
  | append_singleton parts part ih =>
    have hrest : ∀ other ∈ parts, other ≠ [] := fun other hother => hne other (List.mem_append_left _ hother)
    cases k with
    | zero => rw [Function.iterate_zero_apply, Nat.sub_zero, List.take_length]
    | succ k =>
      have hlength : (parts ++ [part]).length - (k + 1) = parts.length - k := by simp
      rw [Function.iterate_succ_apply, dirname_intercalate h hrest, ih h.of_append hrest k, hlength,
        List.take_append_of_le_length (Nat.sub_le _ _)]

/-- Reduced segments make a path in normal form. -/
theorem normalize_intercalate (h : AreSegments parts) (hreduced : Reduced false parts.reverse)
    (hne : parts ≠ []) : normalize (List.intercalate ['/'] parts) = List.intercalate ['/'] parts := by
  have hnames : ∀ part ∈ parts, part ≠ [] := fun part hpart =>
    hreduced.ne_nil part (List.mem_reverse.mpr hpart)
  have hrelative := isAbsolute_intercalate h hnames
  have hpush := hreduced.foldl_push
  rw [List.reverse_reverse] at hpush
  have hremaining : remaining (List.intercalate ['/'] parts) = List.intercalate ['/'] parts := by
    rw [remaining, hrelative, segments_intercalate hne h, hpush, List.reverse_reverse]
  rw [normalize_eq, hremaining, hrelative, if_neg (by decide), if_neg]
  obtain ⟨init, last, rfl⟩ := (List.eq_nil_or_concat parts).resolve_left hne
  rw [List.concat_eq_append, List.isEmpty_iff, intercalate_concat, List.append_eq_nil_iff]
  exact fun hnil => hnames last (by simp) hnil.2

/-- The normal form of a relative path other than the directory itself is made of its segments, which are what
is left of those of the path. -/
theorem normalize_eq_intercalate (hrelative : isAbsolute path = false) (hne : normalize path ≠ ['.']) :
    normalize path = List.intercalate ['/'] (segments (normalize path)) ∧
      segments (normalize path) = (reducedSegments path).reverse ∧ segments (normalize path) ≠ [] := by
  have hnormal := normalize_eq path
  rw [hrelative, if_neg (by decide)] at hnormal
  by_cases hempty : (remaining path).isEmpty = true
  · rw [if_pos hempty] at hnormal
    exact absurd hnormal hne
  rw [if_neg hempty, remaining_eq] at hnormal
  have hstack : (reducedSegments path).reverse ≠ [] := fun hnil => hempty (by rw [remaining_eq, hnil]; rfl)
  have hsegments : segments (normalize path) = (reducedSegments path).reverse := by
    rw [hnormal, segments_intercalate hstack (areSegments_reducedSegments path)]
  exact ⟨by rw [hsegments, hnormal], hsegments, List.cons_ne_nil _ _⟩

theorem reduced_segments_normalize (hrelative : isAbsolute path = false) (hne : normalize path ≠ ['.']) :
    Reduced false (segments (normalize path)).reverse := by
  rw [(normalize_eq_intercalate hrelative hne).2.1, List.reverse_reverse, ← hrelative]
  exact reduced_reducedSegments path

theorem ne_nil_of_mem_segments_normalize (hrelative : isAbsolute path = false) (hne : normalize path ≠ ['.']) :
    ∀ part ∈ segments (normalize path), part ≠ [] := fun part hpart =>
  (reduced_segments_normalize hrelative hne).ne_nil part (List.mem_reverse.mpr hpart)

/-- Going up from the normal form of a relative path takes its segments away one by one. -/
theorem iterate_dirname_eq (hrelative : isAbsolute path = false) (hne : normalize path ≠ ['.']) (k : Nat) :
    dirname^[k] (normalize path) = List.intercalate ['/']
      ((segments (normalize path)).take ((segments (normalize path)).length - k)) := by
  rw [← iterate_dirname_intercalate (areSegments_segments (normalize path))
    (ne_nil_of_mem_segments_normalize hrelative hne), ← (normalize_eq_intercalate hrelative hne).1]

end Path

/-! ## The recursion of a sparse checkout -/

namespace Cone

/-- The recursion of `Cone.addDir`, with the number of steps up that it takes and no measure. -/
inductive AddsDirIn : Nat → Cone → Text → Bool → Cone → Prop where
  | done {cone : Cone} {dir : Text} {asWhole : Bool} : dir = ['.'] ∨ dir = [] ∨ cone.covers dir = true →
      AddsDirIn 0 cone dir asWhole cone
  | above {steps : Nat} {cone after : Cone} {dir : Text} {asWhole : Bool} :
      ¬ (dir = ['.'] ∨ dir = [] ∨ cone.covers dir = true) →
      AddsDirIn steps cone (Path.dirname dir) false after →
      AddsDirIn (steps + 1) cone dir asWhole (after.addSingle dir asWhole)

/-- The recursion ends with this result. -/
def AddsDir (cone : Cone) (dir : Text) (asWhole : Bool) (after : Cone) : Prop :=
  ∃ steps, AddsDirIn steps cone dir asWhole after

/-- Segments that are not empty are taken away one by one, and at the latest when none is left there is a
result. -/
theorem exists_addsDirIn {parts : List Text} (h : Path.AreSegments parts) (hne : ∀ part ∈ parts, part ≠ [])
    (cone : Cone) (asWhole : Bool) : ∃ steps ≤ parts.length,
      AddsDirIn steps cone (List.intercalate ['/'] parts) asWhole
        (cone.addDir (List.intercalate ['/'] parts) asWhole) := by
  induction parts using List.reverseRecOn generalizing asWhole with
  | nil =>
    refine ⟨0, Nat.le_refl 0, ?_⟩
    rw [Cone.addDir, if_pos (.inr (.inl rfl))]
    exact .done (.inr (.inl rfl))
  | append_singleton parts part ih =>
    have hrest : ∀ other ∈ parts, other ≠ [] := fun other hother => hne other (List.mem_append_left _ hother)
    have hdirname := Path.dirname_intercalate h hrest
    have hlength := Path.length_intercalate_lt parts (hne part (by simp))
    set dir := List.intercalate ['/'] (parts ++ [part])
    rw [Cone.addDir]
    by_cases hstop : dir = ['.'] ∨ dir = [] ∨ cone.covers dir = true
    · rw [if_pos hstop]
      exact ⟨0, Nat.zero_le _, .done hstop⟩
    · obtain ⟨steps, hsteps, habove⟩ := ih h.of_append hrest false
      rw [if_neg hstop, dif_pos (hdirname ▸ hlength)]
      refine ⟨steps + 1, by simpa using hsteps, .above hstop ?_⟩
      rwa [hdirname]

/-- From the normal form of a relative path, or a directory that it is in, the recursion takes at most one step
for each segment that is left. -/
theorem exists_addsDirIn_iterate {path : Text} (hrelative : Path.isAbsolute path = false)
    (hne : Path.normalize path ≠ ['.']) (cone : Cone) (asWhole : Bool) (k : Nat) :
    ∃ steps ≤ (Path.segments (Path.normalize path)).length - k,
      cone.AddsDirIn steps (Path.dirname^[k] (Path.normalize path)) asWhole
        (cone.addDir (Path.dirname^[k] (Path.normalize path)) asWhole) := by
  rw [Path.iterate_dirname_eq hrelative hne]
  obtain ⟨steps, hsteps, hadds⟩ := exists_addsDirIn
    ((Path.areSegments_segments (Path.normalize path)).take
      ((Path.segments (Path.normalize path)).length - k))
    (fun part hpart => Path.ne_nil_of_mem_segments_normalize hrelative hne part (List.mem_of_mem_take hpart))
    cone asWhole
  exact ⟨steps, hsteps.trans (List.length_take_le _ _), hadds⟩

/-- The recursion ends for all declared paths, one after the other. -/
inductive AddsPaths : Cone → List Text → Cone → Prop where
  | nil {cone : Cone} : AddsPaths cone [] cone
  | dir {cone next after : Cone} {path : Text} {paths : List Text} : path.getLast? = some '/' →
      AddsDir cone (Path.normalize path) true next → AddsPaths next paths after →
      AddsPaths cone (path :: paths) after
  | file {cone next after : Cone} {path : Text} {paths : List Text} : path.getLast? ≠ some '/' →
      AddsDir cone (Path.dirname (Path.normalize path)) false next → AddsPaths next paths after →
      AddsPaths cone (path :: paths) after

/-- It does so where the paths are relative. -/
theorem addsPaths_foldl {paths : List Text}
    (hpaths : ∀ path ∈ paths, Path.isAbsolute path = false ∧ Path.normalize path ≠ ['.']) (cone : Cone) :
    AddsPaths cone paths (paths.foldl Cone.addPath cone) := by
  induction paths generalizing cone with
  | nil => exact .nil
  | cons path paths ih =>
    obtain ⟨⟨hrelative, hne⟩, hrest⟩ := List.forall_mem_cons.mp hpaths
    have hafter := ih hrest (cone.addPath path)
    by_cases hslash : path.getLast? = some '/'
    · obtain ⟨steps, -, hadds⟩ := exists_addsDirIn_iterate hrelative hne cone true 0
      have hnext : cone.addPath path = cone.addDir (Path.normalize path) true := if_pos hslash
      exact .dir hslash (hnext ▸ ⟨steps, hadds⟩) hafter
    · obtain ⟨steps, -, hadds⟩ := exists_addsDirIn_iterate hrelative hne cone false 1
      have hnext : cone.addPath path = cone.addDir (Path.dirname (Path.normalize path)) false := if_neg hslash
      exact .file hslash (hnext ▸ ⟨steps, hadds⟩) hafter

end Cone

/-- The patterns of relative paths are those that the recursion ends with. -/
theorem exists_addsPaths_of_sparsePatterns {paths patterns : List Text}
    (hrelative : ∀ path ∈ paths, Path.isAbsolute path = false) (h : sparsePatterns paths = some patterns) :
    ∃ cone, Cone.AddsPaths Cone.root paths cone ∧ patterns = cone.patterns := by
  rw [sparsePatterns, Option.ite_none_left_eq_some] at h
  obtain ⟨hsparse, hpatterns⟩ := h
  refine ⟨_, Cone.addsPaths_foldl (fun path hpath => ⟨hrelative path hpath, fun hdot => hsparse ?_⟩) Cone.root,
    (Option.some.inj hpatterns).symm⟩
  exact List.any_eq_true.mpr ⟨path, hpath, by simp [hdot]⟩

namespace Path

/-- Going up from the normal form of a relative path visits the directories that it is in, the nearest first,
and ends with nothing, where it stays. What is visited is in normal form and divided into the segments that it
is made of, so adding it to a sparse checkout takes at most one step for each of them. -/
theorem iterate_dirname_normalize {path : Text} (hrelative : isAbsolute path = false)
    (hne : normalize path ≠ ['.']) :
    let parts := segments (normalize path)
    (∀ k, dirname^[k] (normalize path) = List.intercalate ['/'] (parts.take (parts.length - k))) ∧
      (∀ k, dirname^[k] (normalize path) = [] ↔ parts.length ≤ k) ∧
      (∀ k < parts.length, normalize (dirname^[k] (normalize path)) = dirname^[k] (normalize path) ∧
        segments (dirname^[k] (normalize path)) = parts.take (parts.length - k)) ∧
      ∀ (cone : Cone) asWhole k, ∃ steps ≤ parts.length - k,
        cone.AddsDirIn steps (dirname^[k] (normalize path)) asWhole
          (cone.addDir (dirname^[k] (normalize path)) asWhole) := by
  intro parts
  have hnonempty : parts ≠ [] := (normalize_eq_intercalate hrelative hne).2.2
  have hsegments : AreSegments parts := areSegments_segments (normalize path)
  have hreduced : Reduced false parts.reverse := reduced_segments_normalize hrelative hne
  have hup : ∀ k, dirname^[k] (normalize path) = List.intercalate ['/'] (parts.take (parts.length - k)) :=
    iterate_dirname_eq hrelative hne
  have hsome : ∀ k < parts.length, parts.take (parts.length - k) ≠ [] := fun k hk => by
    rw [ne_eq, List.take_eq_nil_iff]
    exact not_or.mpr ⟨by omega, hnonempty⟩
  have hnormals : ∀ k < parts.length,
      normalize (dirname^[k] (normalize path)) = dirname^[k] (normalize path) := fun k hk => by
    rw [hup, normalize_intercalate (hsegments.take _) (hreduced.take _) (hsome k hk)]
  refine ⟨hup, fun k => ⟨fun hnil => ?_, fun hk => ?_⟩, fun k hk => ⟨hnormals k hk, ?_⟩,
    Cone.exists_addsDirIn_iterate hrelative hne⟩
  · -- nothing is not in normal form
    by_contra hk
    have hempty := hnormals k (Nat.lt_of_not_le hk)
    rw [hnil] at hempty
    exact normalize_ne_nil [] hempty
  · rw [hup, Nat.sub_eq_zero_of_le hk, List.take_zero]
    rfl
  · rw [hup, segments_intercalate (hsome k hk) (hsegments.take _)]

/-- A path with a placeholder that a slash stands in, and with segments that its normal form leaves out. -/
theorem iterate_dirname_normalize_placeholder :
    (isAbsolute "../$\x7b\x7b 'a/b' \x7d\x7d//c/./d" = false ∧
      normalize "../$\x7b\x7b 'a/b' \x7d\x7d//c/./d" ≠ ['.']) ∧
    (∀ k, dirname^[k] (normalize "../$\x7b\x7b 'a/b' \x7d\x7d//c/./d") = [] ↔ 4 ≤ k) ∧
    dirname^[2] (normalize "../$\x7b\x7b 'a/b' \x7d\x7d//c/./d") = "../$\x7b\x7b 'a/b' \x7d\x7d" := by
  have hpath : isAbsolute "../$\x7b\x7b 'a/b' \x7d\x7d//c/./d" = false ∧
      normalize "../$\x7b\x7b 'a/b' \x7d\x7d//c/./d" ≠ ['.'] := by decide +kernel
  obtain ⟨hup, hnil, -⟩ := iterate_dirname_normalize hpath.1 hpath.2
  have hlength : (segments (normalize "../$\x7b\x7b 'a/b' \x7d\x7d//c/./d")).length = 4 := by decide +kernel
  refine ⟨hpath, fun k => ?_, ?_⟩
  · rw [hnil, hlength]
  · rw [hup]
    decide +kernel

end Path

end CachedWorkflow
