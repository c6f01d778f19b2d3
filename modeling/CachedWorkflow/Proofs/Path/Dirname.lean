import CachedWorkflow.Proofs.Path.Normal

/-!
# Proofs: the path before the last segment

No segment but the last one ends with a slash (`getLast?_of_mem_segments`), as a slash that belongs to a
segment stands inside a placeholder, and this ends before the next slash that divides. So the slashes that are
trimmed from the path before the last segment are those that divide, and what is left are segments again
(`exists_dirname_eq`). Of segments that are not empty one goes at a time (`dirname_intercalate`).
-/

namespace CachedWorkflow.Path

/-! ## The ends of segments -/

/-- What is said of the ends of segments, read from inside or outside a placeholder: before a slash that divides
stands no other slash, and inside a placeholder at least its end. -/
structure EndsClear (inside : Bool) (segment : Text) (others : List Text) : Prop where
  getLast? : others ≠ [] → segment.getLast? ≠ some '/'
  ne_nil : inside = true → others ≠ [] → segment ≠ []
  others_getLast? : ∀ other ∈ others.dropLast, other.getLast? ≠ some '/'

theorem getLast?_cons_ne {c : Char} {text : Text} (h : text.getLast? ≠ some '/') (hc : text = [] → c ≠ '/') :
    (c :: text).getLast? ≠ some '/' := by
  cases text with
  | nil => simpa using hc rfl
  | cons d text => rwa [List.getLast?_cons_cons]

theorem endsClear_segmentsFrom (inside : Bool) (path : Text) :
    EndsClear inside (segmentsFrom inside path).1 (segmentsFrom inside path).2 := by
  fun_induction segmentsFrom inside path with
  | case1 rest segment others hrest ih =>
    rw [hrest] at ih
    refine ⟨fun hne => ?_, (fun h => by cases h), ih.others_getLast?⟩
    have hlast := getLast?_cons_ne (c := '{') (ih.getLast? hne) fun _ => by decide
    rw [List.getLast?_cons_cons, List.getLast?_cons_cons]
    exact hlast
  | case2 rest segment others hrest ih =>
    rw [hrest] at ih
    refine ⟨fun _ => by simp, (fun h => by cases h), ?_⟩
    cases others with
    | nil => simp
    | cons next others =>
      rw [List.dropLast_cons_of_ne_nil (List.cons_ne_nil next others), List.forall_mem_cons]
      exact ⟨ih.getLast? (List.cons_ne_nil next others), ih.others_getLast?⟩
  | case3 rest segment others hrest ih =>
    rw [hrest] at ih
    refine ⟨fun hne => ?_, fun _ _ => List.cons_ne_nil _ _, ih.others_getLast?⟩
    rw [List.getLast?_cons_cons]
    exact getLast?_cons_ne (ih.getLast? hne) fun _ => by decide
  | case4 inside c rest hopening hslash hclosing segment others hrest ih =>
    rw [hrest] at ih
    refine ⟨fun hne => getLast?_cons_ne (ih.getLast? hne) fun hnil => ?_, fun _ _ => List.cons_ne_nil _ _,
      ih.others_getLast?⟩
    -- a slash inside a placeholder is not the last character before one that divides
    rintro rfl
    cases inside with
    | false => exact hslash rfl rfl
    | true => exact ih.ne_nil rfl hne hnil
  | case5 => exact ⟨fun h => absurd rfl h, fun _ h => absurd rfl h, by simp⟩

/-- Only the last segment of a path can end with a slash. -/
theorem getLast?_of_mem_segments (path : Text) : ∀ part ∈ (segments path).dropLast,
    part.getLast? ≠ some '/' := by
  have hclear := endsClear_segmentsFrom false ('/' :: path)
  rw [segmentsFrom] at hclear
  exact hclear.others_getLast?

/-! ## Slashes behind segments -/

theorem trimSlashes_concat (text : Text) : trimSlashes (text ++ ['/']) = trimSlashes text := by
  unfold trimSlashes
  rw [List.reverse_concat, List.dropWhile_cons_of_pos (by decide)]

theorem trimSlashes_eq_self {text : Text} (h : text.getLast? ≠ some '/') : trimSlashes text = text := by
  unfold trimSlashes
  cases hreverse : text.reverse with
  | nil => exact (List.reverse_eq_nil_iff.mp hreverse).symm
  | cons c rest =>
    have hc : c ≠ '/' := by
      rintro rfl
      exact h (by rw [List.getLast?_eq_head?_reverse, hreverse]; rfl)
    rw [List.dropWhile_cons_of_neg (by simpa using hc), ← hreverse, List.reverse_reverse]

/-- Behind the last part there is no slash. -/
theorem intercalate_concat (parts : List Text) (part : Text) :
    List.intercalate ['/'] (parts ++ [part]) = parts.flatMap (· ++ ['/']) ++ part := by
  induction parts with
  | nil => simp
  | cons first rest ih =>
    obtain ⟨next, tail, htail⟩ := List.exists_cons_of_ne_nil (l := rest ++ [part]) (by simp)
    rw [List.cons_append, htail, List.intercalate_cons_cons, ← htail, ih, List.flatMap_cons]
    simp only [List.append_assoc]

theorem flatMap_slash {parts : List Text} (h : parts ≠ []) :
    parts.flatMap (· ++ ['/']) = List.intercalate ['/'] parts ++ ['/'] := by
  obtain ⟨init, last, rfl⟩ := (List.eq_nil_or_concat parts).resolve_left h
  rw [List.concat_eq_append, List.flatMap_append, intercalate_concat, List.append_assoc]
  simp

/-- Without the slashes at the end some segments are left, and if these are none all segments are empty. -/
theorem exists_trimSlashes_eq {parts : List Text} (hparts : ∀ part ∈ parts, part.getLast? ≠ some '/') :
    ∃ front, front <+: parts ∧ trimSlashes (parts.flatMap (· ++ ['/'])) = List.intercalate ['/'] front ∧
      (List.intercalate ['/'] front = [] → ∀ part ∈ parts, part = []) := by
  induction parts using List.reverseRecOn with
  | nil => exact ⟨[], List.nil_prefix, rfl, by simp⟩
  | append_singleton parts part ih =>
    have htext : (parts ++ [part]).flatMap (· ++ ['/']) = (parts.flatMap (· ++ ['/']) ++ part) ++ ['/'] := by
      simp
    rw [htext, trimSlashes_concat]
    by_cases hempty : part = []
    · obtain ⟨front, hfront, htrim, hall⟩ := ih fun other hother =>
        hparts other (List.mem_append_left _ hother)
      refine ⟨front, hfront.trans (List.prefix_append _ _), by rw [hempty, List.append_nil, htrim], ?_⟩
      intro hnil other hother
      rcases List.mem_append.mp hother with hother | hother
      · exact hall hnil other hother
      · rw [List.mem_singleton.mp hother, hempty]
    · have hlast : (parts.flatMap (· ++ ['/']) ++ part).getLast? ≠ some '/' := by
        rw [List.getLast?_append_of_ne_nil _ hempty]
        exact hparts part (List.mem_append_right _ List.mem_cons_self)
      refine ⟨parts ++ [part], List.prefix_rfl, ?_, fun hnil => ?_⟩
      · rw [trimSlashes_eq_self hlast, intercalate_concat]
      · rw [intercalate_concat] at hnil
        exact absurd (List.append_eq_nil_iff.mp hnil).2 hempty

/-! ## The path before the last segment -/

/-- The path before the last segment is made of segments, or of slashes only. -/
theorem exists_dirname_eq (path : Text) : ∃ front, front <+: (segments path).dropLast ∧
    (dirname path = List.intercalate ['/'] front ∨ ∀ c ∈ dirname path, c = '/') := by
  obtain ⟨front, hfront, htrim, hall⟩ := exists_trimSlashes_eq (getLast?_of_mem_segments path)
  refine ⟨front, hfront, ?_⟩
  unfold dirname
  simp only [htrim]
  by_cases hnil : List.intercalate ['/'] front = []
  · refine .inr ?_
    rw [hnil, List.isEmpty_nil, if_pos rfl]
    intro c hc
    obtain ⟨part, hpart, hchar⟩ := List.mem_flatMap.mp hc
    rw [hall hnil part hpart, List.nil_append] at hchar
    exact List.mem_singleton.mp hchar
  · rw [if_neg (by rwa [List.isEmpty_iff])]
    exact .inl rfl

/-- Before the last of segments that are not empty stand the others. -/
theorem dirname_intercalate {parts : List Text} {part : Text} (h : AreSegments (parts ++ [part]))
    (hne : ∀ other ∈ parts, other ≠ []) :
    dirname (List.intercalate ['/'] (parts ++ [part])) = List.intercalate ['/'] parts := by
  have hsegments := segments_intercalate (by simp) h
  have hclear := getLast?_of_mem_segments (List.intercalate ['/'] (parts ++ [part]))
  unfold dirname
  rw [hsegments, List.dropLast_concat] at hclear
  simp only [hsegments, List.dropLast_concat]
  rcases List.eq_nil_or_concat parts with rfl | ⟨init, last, rfl⟩
  · rfl
  rw [List.concat_eq_append] at hclear hne ⊢
  have hlastne : last ≠ [] := hne last (by simp)
  have htext : (List.intercalate ['/'] (init ++ [last])).getLast? ≠ some '/' := by
    rw [intercalate_concat, List.getLast?_append_of_ne_nil _ hlastne]
    exact hclear last (by simp)
  rw [flatMap_slash (by simp), trimSlashes_concat, trimSlashes_eq_self htext, if_neg]
  rw [List.isEmpty_iff, intercalate_concat, List.append_eq_nil_iff]
  exact fun hnil => hlastne hnil.2

end CachedWorkflow.Path
