import CachedWorkflow.Proofs.Path

/-!
# Proofs: normal forms of paths

Segments can be put together again: a path made of them, with a slash between each two, is divided into
the same segments (`segments_intercalate`). The segments of a normal form are reduced, which means that
taking them into account one by one changes nothing (`Reduced.foldl_push`). So the normal form of a normal
form is the same (`normalize_normalize`).
-/

namespace CachedWorkflow.Path

/-! ## Segments put together -/

/-- Read from inside or outside a placeholder, nothing divides the text. -/
def IsWhole (inside : Bool) (segment : Text) : Prop := segmentsFrom inside segment = (segment, [])

/-- Read from inside or outside a placeholder, the text ends where a slash divides. -/
def Closes (inside : Bool) (segment : Text) : Prop :=
  ∀ rest, segmentsFrom inside (segment ++ '/' :: rest) = (segment, segments rest)

/-- A character that is no slash and begins neither an opening nor a closing belongs to the segment. -/
theorem segmentsFrom_cons {inside : Bool} {c : Char} {rest : Text}
    (hopening : inside = false → ¬ Template.opening <+: c :: rest) (hslash : inside = false → c ≠ '/')
    (hclosing : inside = true → ¬ Template.closing <+: c :: rest) :
    segmentsFrom inside (c :: rest)
      = (c :: (segmentsFrom inside rest).1, (segmentsFrom inside rest).2) := by
  rw [segmentsFrom]
  · rintro rest' rfl rfl rfl
    exact hopening rfl ⟨rest', rfl⟩
  · rintro rfl rfl
    exact hslash rfl rfl
  · rintro rest' rfl rfl rfl
    exact hclosing rfl ⟨rest', rfl⟩

theorem segmentsFrom_outside_cons {c : Char} {rest : Text} (hopening : ¬ Template.opening <+: c :: rest)
    (hslash : c ≠ '/') : segmentsFrom false (c :: rest)
      = (c :: (segmentsFrom false rest).1, (segmentsFrom false rest).2) :=
  segmentsFrom_cons (fun _ => hopening) (fun _ => hslash) fun h => by cases h

theorem segmentsFrom_inside_cons {c : Char} {rest : Text} (hclosing : ¬ Template.closing <+: c :: rest) :
    segmentsFrom true (c :: rest) = (c :: (segmentsFrom true rest).1, (segmentsFrom true rest).2) :=
  segmentsFrom_cons (fun h => by cases h) (fun h => by cases h) fun _ => hclosing

theorem prefix_segmentsFrom (inside : Bool) (path : Text) : (segmentsFrom inside path).1 <+: path :=
  ⟨_, segmentsFrom_join inside path⟩

/-- What a path is divided into, read from inside or outside a placeholder. -/
structure Divided (inside : Bool) (segment : Text) (others : List Text) : Prop where
  whole : IsWhole inside segment
  closes : others ≠ [] → Closes inside segment
  others_whole : ∀ other ∈ others, IsWhole false other
  others_close : ∀ other ∈ others.dropLast, Closes false other

section

variable {inside : Bool} {segment : Text} {others : List Text}

theorem Divided.nil : Divided inside [] [] := by
  refine ⟨?_, fun h => absurd rfl h, by simp, by simp⟩
  rw [IsWhole, segmentsFrom]

/-- An opening belongs to the segment that it begins in. -/
theorem Divided.opening (h : Divided true segment others) :
    Divided false ('$' :: '{' :: '{' :: segment) others := by
  refine ⟨?_, fun hne rest => ?_, h.others_whole, h.others_close⟩
  · have hwhole := h.whole
    unfold IsWhole at hwhole ⊢
    rw [segmentsFrom, hwhole]
  · rw [List.cons_append, List.cons_append, List.cons_append, segmentsFrom, h.closes hne rest]

/-- A closing belongs to the segment that it ends in. -/
theorem Divided.closing (h : Divided false segment others) :
    Divided true ('}' :: '}' :: segment) others := by
  refine ⟨?_, fun hne rest => ?_, h.others_whole, h.others_close⟩
  · have hwhole := h.whole
    unfold IsWhole at hwhole ⊢
    rw [segmentsFrom, hwhole]
  · rw [List.cons_append, List.cons_append, segmentsFrom, h.closes hne rest]

/-- A slash outside placeholders begins a new segment. -/
theorem Divided.slash (h : Divided false segment others) : Divided false [] (segment :: others) := by
  refine ⟨?_, fun _ rest => ?_, List.forall_mem_cons.mpr ⟨h.whole, h.others_whole⟩, ?_⟩
  · rw [IsWhole, segmentsFrom]
  · rw [List.nil_append, segmentsFrom]
    rfl
  · cases others with
    | nil => simp
    | cons next others =>
      rw [List.dropLast_cons_of_ne_nil (List.cons_ne_nil next others), List.forall_mem_cons]
      exact ⟨h.closes (List.cons_ne_nil next others), h.others_close⟩

/-- Any other character belongs to the segment that it begins. -/
theorem Divided.char (h : Divided inside segment others) {c : Char} {path : Text}
    (hstart : segment <+: path) (hopening : inside = false → ¬ Template.opening <+: c :: path)
    (hslash : inside = false → c ≠ '/') (hclosing : inside = true → ¬ Template.closing <+: c :: path) :
    Divided inside (c :: segment) others := by
  have hbegins : c :: segment <+: c :: path := (List.prefix_cons_inj c).mpr hstart
  refine ⟨?_, fun hne rest => ?_, h.others_whole, h.others_close⟩
  · have hwhole := h.whole
    unfold IsWhole at hwhole ⊢
    rw [segmentsFrom_cons (fun hin hop => hopening hin (hop.trans hbegins)) hslash
      (fun hin hcl => hclosing hin (hcl.trans hbegins)), hwhole]
  · -- neither an opening nor a closing goes across a slash
    have hkeep : ∀ text, '/' ∉ text → text <+: c :: segment ++ '/' :: rest → text <+: c :: path :=
      fun text hnot htext => (prefix_of_prefix_append_cons htext hnot).trans hbegins
    have hcons : segmentsFrom inside (c :: (segment ++ '/' :: rest)) = _ := segmentsFrom_cons
      (fun hin hop => hopening hin (hkeep _ (by decide) hop)) hslash
      (fun hin hcl => hclosing hin (hkeep _ (by decide) hcl))
    rw [List.cons_append, hcons, h.closes hne rest]

end

theorem divided_segmentsFrom (inside : Bool) (path : Text) :
    Divided inside (segmentsFrom inside path).1 (segmentsFrom inside path).2 := by
  fun_induction segmentsFrom inside path with
  | case1 rest segment others hrest ih =>
    rw [hrest] at ih
    exact ih.opening
  | case2 rest segment others hrest ih =>
    rw [hrest] at ih
    exact ih.slash
  | case3 rest segment others hrest ih =>
    rw [hrest] at ih
    exact ih.closing
  | case4 inside c rest hopening hslash hclosing segment others hrest ih =>
    have hstart := prefix_segmentsFrom inside rest
    rw [hrest] at ih hstart
    refine ih.char hstart ?_ (fun hin hc => hslash hin hc) ?_
    · rintro rfl ⟨tail, htail⟩
      obtain ⟨rfl, hrest'⟩ := List.cons.inj htail
      exact hopening tail rfl rfl hrest'.symm
    · rintro rfl ⟨tail, htail⟩
      obtain ⟨rfl, hrest'⟩ := List.cons.inj htail
      exact hclosing tail rfl rfl hrest'.symm
  | case5 => exact .nil

/-- The segments of a path, one after the other: all are whole, and all but the last close. -/
structure AreSegments (parts : List Text) : Prop where
  whole : ∀ part ∈ parts, IsWhole false part
  close : ∀ part ∈ parts.dropLast, Closes false part

theorem areSegments_segments (path : Text) : AreSegments (segments path) := by
  have hdivided := (divided_segmentsFrom false path).slash
  exact ⟨hdivided.others_whole, hdivided.others_close⟩

theorem AreSegments.of_append {parts others : List Text} (h : AreSegments (parts ++ others)) :
    AreSegments parts := by
  refine ⟨fun part hpart => h.whole part (List.mem_append_left _ hpart), fun part hpart => h.close part ?_⟩
  cases others with
  | nil => rwa [List.append_nil]
  | cons next others =>
    rw [List.dropLast_append_cons]
    exact List.mem_append_left _ (List.mem_of_mem_dropLast hpart)

theorem AreSegments.take {parts : List Text} (h : AreSegments parts) (n : Nat) : AreSegments (parts.take n) := by
  rw [← List.take_append_drop n parts] at h
  exact h.of_append

/-- Segments are found again in the path that is made of them. -/
theorem segments_intercalate {parts : List Text} (hne : parts ≠ []) (h : AreSegments parts) :
    segments (List.intercalate ['/'] parts) = parts := by
  induction parts with
  | nil => exact absurd rfl hne
  | cons part rest ih =>
    cases rest with
    | nil =>
      have hwhole : segmentsFrom false part = (part, []) := h.whole part List.mem_cons_self
      rw [List.intercalate_singleton, segments, hwhole]
    | cons next rest =>
      have hne' : next :: rest ≠ [] := List.cons_ne_nil next rest
      obtain ⟨hcloses, hrest⟩ : Closes false part ∧ ∀ other ∈ (next :: rest).dropLast,
          Closes false other := by
        have hclose := h.close
        rwa [List.dropLast_cons_of_ne_nil hne', List.forall_mem_cons] at hclose
      have hsegments := ih hne' ⟨fun other hother => h.whole other (List.mem_cons_of_mem _ hother), hrest⟩
      rw [List.intercalate_cons_cons, List.append_assoc, List.singleton_append, segments,
        hcloses, hsegments]

/-! ## Reduced segments -/

/-- The segments of a normal form, last first: none is empty or a single dot, and two dots stand at the
beginning of a relative path only. -/
inductive Reduced (absolute : Bool) : List Text → Prop where
  | nil : Reduced absolute []
  | name {part : Text} {below : List Text} : part ≠ [] → part ≠ ['.'] → part ≠ ['.', '.'] →
      Reduced absolute below → Reduced absolute (part :: below)
  | up {below : List Text} : absolute = false → (∀ part ∈ below, part = ['.', '.']) →
      Reduced absolute below → Reduced absolute (['.', '.'] :: below)

section

variable {absolute : Bool} {stack : List Text}

theorem Reduced.ne_nil (h : Reduced absolute stack) : ∀ part ∈ stack, part ≠ [] := by
  induction h with
  | nil => simp
  | name hne _ _ _ ih => exact List.forall_mem_cons.mpr ⟨hne, ih⟩
  | up _ _ _ ih => exact List.forall_mem_cons.mpr ⟨by decide, ih⟩

theorem Reduced.ne_dot (h : Reduced absolute stack) : ∀ part ∈ stack, part ≠ ['.'] := by
  induction h with
  | nil => simp
  | name _ hne _ _ ih => exact List.forall_mem_cons.mpr ⟨hne, ih⟩
  | up _ _ _ ih => exact List.forall_mem_cons.mpr ⟨by decide, ih⟩

theorem Reduced.of_append {above : List Text} (h : Reduced absolute (above ++ stack)) :
    Reduced absolute stack := by
  induction above with
  | nil => exact h
  | cons part above ih =>
    cases h with
    | name _ _ _ hbelow => exact ih hbelow
    | up _ _ hbelow => exact ih hbelow

/-- The first segments of a normal form are those of one. -/
theorem Reduced.take {parts : List Text} (h : Reduced absolute parts.reverse) (n : Nat) :
    Reduced absolute (parts.take n).reverse := by
  rw [← List.take_append_drop n parts, List.reverse_append] at h
  exact h.of_append

/-- Taking one more segment into account keeps the segments reduced. -/
theorem Reduced.push (h : Reduced absolute stack) (segment : Text) :
    Reduced absolute (push absolute stack segment) := by
  unfold Path.push
  by_cases hidle : segment = [] ∨ segment = ['.']
  · rw [if_pos hidle]
    exact h
  rw [if_neg hidle]
  obtain ⟨hempty, hdot⟩ := not_or.mp hidle
  by_cases hup : segment = ['.', '.']
  · rw [if_pos hup]
    cases h with
    | nil =>
      cases absolute with
      | true => exact .nil
      | false => exact hup ▸ .up rfl (by simp) .nil
    | @name part below hne hne' hname hbelow =>
      simp only [hname, if_false]
      exact hbelow
    | @up below habsolute hall hbelow =>
      simp only [habsolute, if_true, Bool.false_eq_true, if_false]
      rw [hup]
      exact .up rfl (List.forall_mem_cons.mpr ⟨rfl, hall⟩) (habsolute ▸ .up habsolute hall hbelow)
  · rw [if_neg hup]
    exact .name hempty hdot hup h

theorem Reduced.foldl (h : Reduced absolute stack) (parts : List Text) :
    Reduced absolute (parts.foldl (Path.push absolute) stack) := by
  induction parts generalizing stack with
  | nil => exact h
  | cons part rest ih => exact ih (h.push part)

/-- Reduced segments are what they are taken into account as. -/
theorem Reduced.foldl_push (h : Reduced absolute stack) :
    stack.reverse.foldl (Path.push absolute) [] = stack := by
  induction h with
  | nil => rfl
  | @name part below hempty hdot hup _ ih =>
    rw [List.reverse_cons, List.foldl_append, ih, List.foldl_cons, List.foldl_nil]
    unfold Path.push
    rw [if_neg (not_or.mpr ⟨hempty, hdot⟩), if_neg hup]
  | @up below habsolute hall _ ih =>
    rw [List.reverse_cons, List.foldl_append, ih, List.foldl_cons, List.foldl_nil]
    unfold Path.push
    rw [if_neg (by decide), if_pos rfl]
    cases below with
    | nil => simp only [habsolute, Bool.false_eq_true, if_false]
    | cons last below =>
      have hlast : last = ['.', '.'] := hall last List.mem_cons_self
      simp only [hlast, habsolute, if_true, Bool.false_eq_true, if_false]

end

/-! ## Normal forms -/

/-- The segments of the normal form of a path, last first. -/
def reducedSegments (path : Text) : List Text := (segments path).foldl (push (isAbsolute path)) []

theorem reduced_reducedSegments (path : Text) : Reduced (isAbsolute path) (reducedSegments path) :=
  Reduced.nil.foldl _

theorem remaining_eq (path : Text) :
    remaining path = List.intercalate ['/'] (reducedSegments path).reverse := rfl

theorem tail_push_subset {absolute : Bool} {stack : List Text} {segment : Text} :
    (push absolute stack segment).tail ⊆ stack := by
  unfold push
  split
  · exact List.tail_subset stack
  split
  · split
    · split <;> simp
    · split
      · split
        · exact List.tail_subset _
        · exact List.Subset.refl _
      · exact List.Subset.trans (List.tail_subset _) (List.subset_cons_self _ _)
  · exact List.Subset.refl stack

/-- What is left of the segments of a path are segments of a path. -/
theorem areSegments_reducedSegments (path : Text) : AreSegments (reducedSegments path).reverse := by
  obtain ⟨hwhole, hclose⟩ := areSegments_segments path
  have hmem : ∀ part ∈ reducedSegments path, part ∈ segments path := fun part => mem_of_mem_foldl_push
  refine ⟨fun part hpart => hwhole part (hmem part (List.mem_reverse.mp hpart)), fun part hpart => ?_⟩
  rw [List.dropLast_reverse, List.mem_reverse, reducedSegments] at hpart
  -- the last segment of the path has only been put on top
  rcases List.eq_nil_or_concat (segments path) with hnil | ⟨init, last, hsplit⟩
  · rw [hnil] at hpart
    cases hpart
  · rw [hsplit, List.concat_eq_append, List.foldl_append, List.foldl_cons, List.foldl_nil] at hpart
    rw [hsplit, List.concat_eq_append, List.dropLast_concat] at hclose
    exact hclose part (mem_of_mem_foldl_push (tail_push_subset hpart))

theorem isAbsolute_eq_false_of_isWhole {segment rest : Text} (h : IsWhole false segment)
    (hne : segment ≠ []) : isAbsolute (segment ++ rest) = false := by
  cases segment with
  | nil => exact absurd rfl hne
  | cons c segment =>
    have hc : c ≠ '/' := by
      rintro rfl
      unfold IsWhole at h
      rw [segmentsFrom] at h
      cases h
    simp [isAbsolute, hc]

theorem segments_slash (path : Text) : segments ('/' :: path) = [] :: segments path := by
  rw [segments, segmentsFrom]
  rfl

/-- What is left of the segments of a path is what is left of them in the path made of them. -/
theorem foldl_push_segments_remaining (path : Text) : (segments (remaining path)).foldl
    (push (isAbsolute path)) [] = reducedSegments path := by
  have hreduced := reduced_reducedSegments path
  by_cases hnil : reducedSegments path = []
  · rw [remaining_eq, hnil]
    rfl
  · have hne : (reducedSegments path).reverse ≠ [] := by rwa [ne_eq, List.reverse_eq_nil_iff]
    rw [remaining_eq, segments_intercalate hne (areSegments_reducedSegments path),
      hreduced.foldl_push]

/-- Segments begin a relative path if the first one is not empty. -/
theorem isAbsolute_intercalate {parts : List Text} (h : AreSegments parts) (hne : ∀ part ∈ parts, part ≠ []) :
    isAbsolute (List.intercalate ['/'] parts) = false := by
  cases parts with
  | nil => rfl
  | cons part rest =>
    have hrelative : ∀ tail, isAbsolute (part ++ tail) = false := fun tail =>
      isAbsolute_eq_false_of_isWhole (h.whole part List.mem_cons_self) (hne part List.mem_cons_self)
    cases rest with
    | nil =>
      rw [List.intercalate_singleton, ← List.append_nil part]
      exact hrelative []
    | cons next rest =>
      rw [List.intercalate_cons_cons, List.append_assoc]
      exact hrelative _

theorem isAbsolute_remaining (path : Text) : isAbsolute (remaining path) = false :=
  isAbsolute_intercalate (areSegments_reducedSegments path) fun part hpart =>
    (reduced_reducedSegments path).ne_nil part (List.mem_reverse.mp hpart)

/-- The normal form of a path is its own normal form. -/
theorem normalize_normalize (path : Text) : normalize (normalize path) = normalize path := by
  have hsame := foldl_push_segments_remaining path
  rw [normalize_eq path]
  by_cases habsolute : isAbsolute path = true
  · have hagain : remaining ('/' :: remaining path) = remaining path := by
      have hsegments : segments ('/' :: remaining path) = [] :: segments (remaining path) :=
        segments_slash _
      rw [habsolute] at hsame
      rw [remaining, hsegments, List.foldl_cons]
      exact congrArg (fun stack : List Text => List.intercalate ['/'] stack.reverse) hsame
    rw [if_pos habsolute, normalize_eq, hagain]
    exact if_pos rfl
  · rw [if_neg habsolute]
    by_cases hempty : (remaining path).isEmpty = true
    · rw [if_pos hempty]
      decide +kernel
    · rw [if_neg hempty]
      have hagain : remaining (remaining path) = remaining path := by
        rw [Bool.not_eq_true] at habsolute
        rw [remaining, isAbsolute_remaining, ← habsolute, hsame, ← remaining_eq]
      rw [normalize_eq, isAbsolute_remaining, hagain, if_neg (by decide), if_neg hempty]

end CachedWorkflow.Path
