import CachedWorkflow.Proofs.Path.Normal

/-!
# Proofs: what paths mean

A path leads from one directory to another, segment by segment (`act`). Its normal form leads to the
same one, from every directory, and it is the only normal form that does: two paths that are both
absolute or both relative have the same normal form exactly if they lead to the same directory from
everywhere (`normalize_canonical`). From a directory deep enough a relative path shows how far up it
goes, and a name that it does not have shows what is left of the way down.
-/

namespace CachedWorkflow

/-- The name of a file or directory. -/
structure IsFileName (name : Text) : Prop where
  ne_nil : name ≠ []
  ne_dot : name ≠ ['.']
  ne_up : name ≠ ['.', '.']
  not_mem : '/' ∉ name

namespace Path

/-- Where a segment leads from a directory, which is listed by its names from the root. -/
def enter (dir : List Text) (segment : Text) : List Text :=
  if segment = [] ∨ segment = ['.'] then dir
  else if segment = ['.', '.'] then dir.dropLast
  else dir ++ [segment]

/-- Where a path leads from a directory. -/
def act (path : Text) (dir : List Text) : List Text :=
  (segments path).foldl enter (if isAbsolute path then [] else dir)

theorem enter_name {dir : List Text} {segment : Text} (hne : segment ≠ []) (hdot : segment ≠ ['.'])
    (hup : segment ≠ ['.', '.']) : enter dir segment = dir ++ [segment] := by
  unfold enter
  rw [if_neg (not_or.mpr ⟨hne, hdot⟩), if_neg hup]

theorem enter_up (dir : List Text) : enter dir ['.', '.'] = dir.dropLast := by
  unfold enter
  rw [if_neg (by decide), if_pos rfl]

/-! ## Reduced segments -/

section

variable {absolute : Bool} {stack : List Text}

/-- Taking a segment into account leads where the segment does. An absolute path starts at the root. -/
theorem Reduced.foldl_enter_push (h : Reduced absolute stack) {dir : List Text}
    (hdir : absolute = true → dir = []) (segment : Text) :
    (Path.push absolute stack segment).reverse.foldl enter dir
      = enter (stack.reverse.foldl enter dir) segment := by
  unfold Path.push
  by_cases hidle : segment = [] ∨ segment = ['.']
  · rw [if_pos hidle, enter, if_pos hidle]
  obtain ⟨hempty, hdot⟩ := not_or.mp hidle
  by_cases hup : segment = ['.', '.']
  · subst hup
    rw [if_neg hidle, if_pos rfl]
    cases h with
    | nil =>
      cases absolute with
      | true =>
        rw [hdir rfl]
        rfl
      | false => rfl
    | @name part below hne hne' hname _ =>
      simp only [hname, if_false]
      rw [List.reverse_cons, List.foldl_append, List.foldl_cons, List.foldl_nil,
        enter_name hne hne' hname, enter_up, List.dropLast_concat]
    | @up below habsolute _ _ =>
      simp only [habsolute, if_true, Bool.false_eq_true, if_false]
      rw [List.reverse_cons (a := ['.', '.']), List.foldl_append]
      rfl
  · rw [if_neg hidle, if_neg hup, List.reverse_cons, List.foldl_append]
    rfl

theorem Reduced.foldl_enter (h : Reduced absolute stack) {dir : List Text}
    (hdir : absolute = true → dir = []) (parts : List Text) :
    (parts.foldl (Path.push absolute) stack).reverse.foldl enter dir
      = parts.foldl enter (stack.reverse.foldl enter dir) := by
  induction parts generalizing stack with
  | nil => rfl
  | cons part rest ih =>
    rw [List.foldl_cons, ih (h.push part), h.foldl_enter_push hdir, List.foldl_cons]

/-- Reduced segments lead up some times, which an absolute path does not, and then down by names. -/
theorem Reduced.exists_eq (h : Reduced absolute stack) : ∃ ups names,
    stack.reverse = List.replicate ups ['.', '.'] ++ names ∧ (absolute = true → ups = 0) ∧
      ∀ name ∈ names, name ≠ [] ∧ name ≠ ['.'] ∧ name ≠ ['.', '.'] := by
  induction h with
  | nil => exact ⟨0, [], rfl, fun _ => rfl, by simp⟩
  | @name part below hne hdot hup _ ih =>
    obtain ⟨ups, names, heq, habsolute, hnames⟩ := ih
    refine ⟨ups, names ++ [part], ?_, habsolute, ?_⟩
    · rw [List.reverse_cons, heq, List.append_assoc]
    · intro name hname
      rcases List.mem_append.mp hname with hname | hname
      · exact hnames name hname
      · rw [List.mem_singleton.mp hname]
        exact ⟨hne, hdot, hup⟩
  | @up below habsolute hall _ _ =>
    refine ⟨below.length + 1, [], ?_, fun htrue => ?_, by simp⟩
    · rw [List.append_nil, List.reverse_eq_iff, List.reverse_replicate, List.eq_replicate_iff]
      exact ⟨rfl, List.forall_mem_cons.mpr ⟨rfl, hall⟩⟩
    · rw [habsolute] at htrue
      cases htrue

end

theorem foldl_enter_up (ups : Nat) (dir : List Text) :
    (List.replicate ups ['.', '.']).foldl enter dir = dir.take (dir.length - ups) := by
  induction ups generalizing dir with
  | zero => simp
  | succ ups ih =>
    rw [List.replicate_succ, List.foldl_cons, enter_up, ih, List.dropLast_eq_take, List.take_take,
      List.length_take]
    congr 1
    omega

theorem foldl_enter_names {names : List Text}
    (hnames : ∀ name ∈ names, name ≠ [] ∧ name ≠ ['.'] ∧ name ≠ ['.', '.']) (dir : List Text) :
    names.foldl enter dir = dir ++ names := by
  induction names generalizing dir with
  | nil => simp
  | cons name rest ih =>
    obtain ⟨⟨hne, hdot, hup⟩, hrest⟩ := List.forall_mem_cons.mp hnames
    rw [List.foldl_cons, enter_name hne hdot hup, ih hrest, List.append_assoc, List.singleton_append]

/-- There is always one more name. -/
theorem exists_isFileName_not_mem (names : List Text) : ∃ name, IsFileName name ∧ name ∉ names := by
  -- one that is longer than all the names
  have hlength : ∀ name ∈ names, name.length ≤ names.flatten.length := fun name hname =>
    (List.sublist_flatten_of_mem hname).length_le
  have hchars : ∀ c ∈ List.replicate (names.flatten.length + 1) 'a', c = 'a' :=
    fun c hc => List.eq_of_mem_replicate hc
  refine ⟨List.replicate (names.flatten.length + 1) 'a', ⟨?_, ?_, ?_, ?_⟩, fun hmem => ?_⟩
  · exact List.cons_ne_nil _ _
  · rintro heq
    exact absurd (hchars '.' (by rw [heq]; decide)) (by decide)
  · rintro heq
    exact absurd (hchars '.' (by rw [heq]; decide)) (by decide)
  · exact fun hslash => absurd (hchars '/' hslash) (by decide)
  · have hle := hlength _ hmem
    rw [List.length_replicate] at hle
    omega

/-- Reduced segments that lead to the same directory from everywhere are the same. -/
theorem Reduced.eq_of_foldl_enter {absolute : Bool} {stack stack' : List Text}
    (h : Reduced absolute stack) (h' : Reduced absolute stack')
    (hsame : ∀ dir, (∀ name ∈ dir, IsFileName name) → (absolute = true → dir = []) →
      stack.reverse.foldl enter dir = stack'.reverse.foldl enter dir) : stack = stack' := by
  obtain ⟨ups, names, heq, hups, hnames⟩ := h.exists_eq
  obtain ⟨ups', names', heq', hups', hnames'⟩ := h'.exists_eq
  rw [heq, heq'] at hsame
  simp only [List.foldl_append, foldl_enter_up, foldl_enter_names hnames,
    foldl_enter_names hnames'] at hsame
  suffices hparts : ups = ups' ∧ names = names' by
    rw [← List.reverse_inj, heq, heq', hparts.1, hparts.2]
  cases absolute with
  | true =>
    have hroot := hsame [] (by simp) fun _ => rfl
    simp only [List.take_nil, List.nil_append] at hroot
    exact ⟨(hups rfl).trans (hups' rfl).symm, hroot⟩
  | false =>
    -- a directory deep enough, of a name that is on neither way down
    obtain ⟨fresh, hfresh, hnot⟩ := exists_isFileName_not_mem (names ++ names')
    rw [List.mem_append, not_or] at hnot
    have hdeep := hsame (List.replicate (ups + ups') fresh)
      (fun name hname => List.eq_of_mem_replicate hname ▸ hfresh) (fun hfalse => by cases hfalse)
    simp only [List.length_replicate, List.take_replicate] at hdeep
    have hcount := congrArg (List.count fresh) hdeep
    simp only [List.count_append, List.count_replicate_self, List.count_eq_zero.mpr hnot.1,
      List.count_eq_zero.mpr hnot.2] at hcount
    obtain rfl : ups = ups' := by omega
    exact ⟨rfl, List.append_cancel_left hdeep⟩

/-! ## Paths -/

/-- A path leads where what is left of its segments leads. -/
theorem act_eq (path : Text) (dir : List Text) : act path dir
    = (reducedSegments path).reverse.foldl enter (if isAbsolute path then [] else dir) := by
  have hroot : isAbsolute path = true → (if isAbsolute path then [] else dir) = ([] : List Text) :=
    fun habsolute => if_pos habsolute
  rw [reducedSegments, Reduced.nil.foldl_enter hroot]
  rfl

theorem isAbsolute_normalize (path : Text) : isAbsolute (normalize path) = isAbsolute path := by
  rw [normalize_eq]
  by_cases habsolute : isAbsolute path = true
  · rw [if_pos habsolute, habsolute]
    rfl
  · rw [if_neg habsolute, Bool.eq_false_iff.mpr habsolute]
    split
    · rfl
    · exact isAbsolute_remaining path

/-- Of a normal form the same segments are left as of the path. -/
theorem reducedSegments_normalize (path : Text) :
    reducedSegments (normalize path) = reducedSegments path := by
  have hsame := foldl_push_segments_remaining path
  rw [reducedSegments, isAbsolute_normalize, normalize_eq]
  by_cases habsolute : isAbsolute path = true
  · rw [if_pos habsolute, segments_slash, List.foldl_cons]
    exact hsame
  · rw [if_neg habsolute]
    split
    · next hempty =>
      rw [List.isEmpty_iff.mp hempty] at hsame
      exact hsame
    · exact hsame

theorem normalize_congr {p q : Text} (habsolute : isAbsolute p = isAbsolute q)
    (hsegments : reducedSegments p = reducedSegments q) : normalize p = normalize q := by
  rw [normalize_eq, normalize_eq, remaining_eq, remaining_eq, habsolute, hsegments]

theorem act_normalize (path : Text) (dir : List Text) : act (normalize path) dir = act path dir := by
  rw [act_eq, act_eq, reducedSegments_normalize, isAbsolute_normalize]

/-- Paths that are both absolute or both relative and lead to the same directory from everywhere have
the same normal form. -/
theorem normalize_eq_of_act {p q : Text} (habsolute : isAbsolute p = isAbsolute q)
    (hact : ∀ dir, (∀ name ∈ dir, IsFileName name) → act p dir = act q dir) :
    normalize p = normalize q := by
  refine normalize_congr habsolute ?_
  have hq : Reduced (isAbsolute p) (reducedSegments q) := habsolute ▸ reduced_reducedSegments q
  refine (reduced_reducedSegments p).eq_of_foldl_enter hq fun dir hdir hroot => ?_
  have hsame := hact dir hdir
  rw [act_eq, act_eq, ← habsolute] at hsame
  by_cases h : isAbsolute p = true
  · rwa [if_pos h, ← hroot h] at hsame
  · rwa [if_neg h] at hsame

/-! ## Paths put together -/

/-- A slash behind a path without an opening divides. -/
theorem segments_append_slash {p : Text} (hp : Template.hasOpening p = false) (q : Text) :
    segments (p ++ '/' :: q) = segments p ++ segments q := by
  suffices hfrom : segmentsFrom false (p ++ '/' :: q)
      = ((segmentsFrom false p).1, (segmentsFrom false p).2 ++ segments q) by
    rw [segments, hfrom]
    rfl
  induction p with
  | nil =>
    rw [List.nil_append, segmentsFrom, segmentsFrom]
    rfl
  | cons c p ih =>
    rw [Bool.eq_false_iff, ne_eq, Template.hasOpening_iff] at hp
    have hrest : Template.hasOpening p = false := by
      rw [Bool.eq_false_iff, ne_eq, Template.hasOpening_iff]
      exact fun hopening => hp (List.infix_cons hopening)
    rw [List.cons_append]
    by_cases hc : c = '/'
    · rw [hc, segmentsFrom, segmentsFrom, ih hrest]
      rfl
    · have hno : ¬ Template.opening <+: c :: p := fun hopening => hp hopening.isInfix
      have hno' : ¬ Template.opening <+: c :: (p ++ '/' :: q) := fun hopening =>
        hno (prefix_of_prefix_append_cons (a := c :: p) hopening (by decide))
      rw [segmentsFrom_outside_cons hno' hc, ih hrest, segmentsFrom_outside_cons hno hc]

theorem isAbsolute_append {p : Text} (hp : p ≠ []) (q : Text) :
    isAbsolute (p ++ q) = isAbsolute p := by
  obtain ⟨c, p, rfl⟩ := List.exists_cons_of_ne_nil hp
  rfl

theorem reducedSegments_append_slash {p : Text} (hne : p ≠ []) (hp : Template.hasOpening p = false)
    (q : Text) : reducedSegments (p ++ '/' :: q)
      = (segments q).foldl (push (isAbsolute p)) (reducedSegments p) := by
  rw [reducedSegments, segments_append_slash hp, isAbsolute_append hne, List.foldl_append]
  rfl

/-- The normal form is the canonical form of what a path means: it leads where the path leads, paths
that are both absolute or both relative have the same one exactly if they lead to the same directory from
everywhere, it is its own normal form, and a path may be normalized before another one is put behind it.
That two paths mean the same already shows in the directories that can be there. -/
theorem normalize_canonical (p q : Text) :
    (∀ dir, act (normalize p) dir = act p dir) ∧
      (normalize p = normalize q ↔
        isAbsolute p = isAbsolute q ∧ ∀ dir, act p dir = act q dir) ∧
      (isAbsolute p = isAbsolute q →
        (∀ dir, (∀ name ∈ dir, IsFileName name) → act p dir = act q dir) → normalize p = normalize q) ∧
      normalize (normalize p) = normalize p ∧
      (p ≠ [] → Template.hasOpening p = false →
        normalize (p ++ "/" ++ q) = normalize (normalize p ++ "/" ++ q)) := by
  refine ⟨act_normalize p, ⟨fun hsame => ⟨?_, fun dir => ?_⟩, fun h => ?_⟩, normalize_eq_of_act,
    normalize_normalize p, fun hne hp => ?_⟩
  · rw [← isAbsolute_normalize p, hsame, isAbsolute_normalize]
  · rw [← act_normalize p, hsame, act_normalize]
  · exact normalize_eq_of_act h.1 fun dir _ => h.2 dir
  · have hslash : ∀ path : Text, path ++ "/" ++ q = path ++ '/' :: q := fun path => by simp
    rw [hslash, hslash]
    refine normalize_congr ?_ ?_
    · rw [isAbsolute_append hne, isAbsolute_append (normalize_ne_nil p), isAbsolute_normalize]
    · rw [reducedSegments_append_slash hne hp,
        reducedSegments_append_slash (normalize_ne_nil p) (hasOpening_normalize hp),
        isAbsolute_normalize, reducedSegments_normalize]

/-- Behind a path that leads up and down, one with a placeholder that is never closed. -/
theorem normalize_canonical_upward :
    ("a//../../b" : Text) ≠ [] ∧ Template.hasOpening "a//../../b" = false ∧
      normalize ("a//../../b" ++ "/" ++ "../$\x7b\x7b c/..")
        = normalize (normalize "a//../../b" ++ "/" ++ "../$\x7b\x7b c/..") ∧
      normalize (normalize "a//../../b" ++ "/" ++ "../$\x7b\x7b c/..") = "../$\x7b\x7b c/.." := by
  obtain ⟨-, -, -, -, hjoin⟩ := normalize_canonical "a//../../b" "../$\x7b\x7b c/.."
  exact ⟨by decide, by decide, hjoin (by decide) (by decide), by decide +kernel⟩

end Path

end CachedWorkflow
