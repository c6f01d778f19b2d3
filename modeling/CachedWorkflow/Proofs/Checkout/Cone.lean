import CachedWorkflow.Proofs.Checkout.Rules

/-!
# Proofs: sparse checkouts

The patterns of a sparse checkout stay readable while they are put together (`Cone.Sound`): the directories
in an included directory are excluded before one of them is included, and nothing is said any more about what
is below a directory that is there as a whole. So a directory is shown if it is included or in a directory
that is there as a whole (`Cone.Sound.showsDir_iff`), whatever has been added before. Adding one more
directory (`Cone.Adds`) keeps the patterns that way.
-/

namespace CachedWorkflow

/-! ## The patterns of two directories -/

section

variable {dir other : List Text}

theorem includePattern_injective : Function.Injective Cone.includePattern := by
  intro text other h
  unfold Cone.includePattern at h
  exact List.append_cancel_left (List.append_cancel_right h)

theorem excludePattern_injective : Function.Injective Cone.excludePattern := by
  intro text other h
  unfold Cone.excludePattern at h
  exact includePattern_injective (List.append_cancel_left (List.append_cancel_right h))

theorem joined_inj (hdir : IsDir dir) (hother : ∀ name ∈ other, '/' ∉ name) (hne : other ≠ []) :
    joined other = joined dir ↔ other = dir :=
  ⟨joined_injective hother hdir.slash_not_mem hne hdir.ne_nil, congrArg joined⟩

theorem includePattern_inj (hdir : IsDir dir) (hother : ∀ name ∈ other, '/' ∉ name) (hne : other ≠ []) :
    Cone.includePattern (joined other) = Cone.includePattern (joined dir) ↔ other = dir :=
  includePattern_injective.eq_iff.trans (joined_inj hdir hother hne)

theorem excludePattern_inj (hdir : IsDir dir) (hother : ∀ name ∈ other, '/' ∉ name) (hne : other ≠ []) :
    Cone.excludePattern (joined other) = Cone.excludePattern (joined dir) ↔ other = dir :=
  excludePattern_injective.eq_iff.trans (joined_inj hdir hother hne)

theorem includePattern_ne_excludePattern (dir other : Text) :
    Cone.includePattern dir ≠ Cone.excludePattern other := by
  intro h
  exact absurd (List.cons.inj h).1 (by decide)

theorem includePattern_not_mem_root (dir : Text) : Cone.includePattern dir ∉ Cone.root.patterns := by
  intro h
  rcases List.mem_cons.mp h with h | h
  · have hlast := congrArg List.getLast? h
    rw [Cone.includePattern, List.getLast?_append] at hlast
    exact absurd (Option.some.inj hlast) (by decide)
  · exact absurd (List.cons.inj (List.mem_singleton.mp h)).1 (by decide)

theorem excludePattern_not_mem_root (dir : Text) : Cone.excludePattern dir ∉ Cone.root.patterns := by
  have hlength : (Cone.excludePattern dir).length = dir.length + 5 := by
    simp only [Cone.excludePattern, Cone.includePattern, List.length_append]
    change 1 + (1 + dir.length + 1) + 2 = dir.length + 5
    omega
  intro h
  rcases List.mem_cons.mp h with h | h
  · rw [h] at hlength
    change 2 = dir.length + 5 at hlength
    omega
  · rw [List.mem_singleton.mp h] at hlength
    change 4 = dir.length + 5 at hlength
    omega

/-- A directory is in another one if the path of this one, with a slash behind, is the beginning. -/
theorem slashed_prefix_joined_iff (hdir : IsDir dir) (hother : IsDir other) :
    slashed dir <+: joined other ↔ dir <+: other ∧ dir ≠ other := by
  have hslashed := slashed_eq hother.ne_nil
  constructor
  · intro h
    refine ⟨(slashed_prefix_iff hdir.slash_not_mem hother.slash_not_mem).mp (h.trans ?_), ?_⟩
    · rw [hslashed]
      exact List.prefix_append _ _
    · rintro rfl
      have hlength := h.length_le
      rw [hslashed, List.length_append, List.length_singleton] at hlength
      omega
  · rintro ⟨⟨more, rfl⟩, hne⟩
    have hmore : more ≠ [] := by
      rintro rfl
      exact hne (List.append_nil dir).symm
    have hjoined : (slashed dir ++ joined more) ++ ['/'] = joined (dir ++ more) ++ ['/'] := by
      rw [← hslashed, slashed_append, slashed_eq hmore, List.append_assoc]
    exact ⟨joined more, List.append_cancel_right hjoined⟩

end

/-! ## What the patterns say -/

/-- A pattern that is made of a directory. -/
def IsMade (pattern : Text) : Prop := ∃ dir, IsDir dir ∧
  (pattern = Cone.includePattern (joined dir) ∨ pattern = Cone.excludePattern (joined dir))

/-- The directories in a directory are excluded before one of them is included. -/
def InOrder (patterns : List Text) : Prop := patterns.Pairwise fun earlier later =>
  ∀ dir name, (∀ part ∈ dir ++ [name], '/' ∉ part) →
    earlier = Cone.includePattern (joined (dir ++ [name])) → later ≠ Cone.excludePattern (joined dir)

/-- Of patterns that are in order it is enough to know which there are. -/
theorem decisionFrom_made {made dir : List Text} {name : Text} (hmade : ∀ pattern ∈ made, IsMade pattern)
    (hordered : InOrder made) (hpath : ∀ part ∈ dir ++ [name], '/' ∉ part) :
    decisionFrom none (Cone.root.patterns ++ made) (dir ++ [name]) true
      = if Cone.includePattern (joined (dir ++ [name])) ∈ made then some true
        else if dir = [] ∨ Cone.excludePattern (joined dir) ∈ made then some false else none := by
  have hdir : ∀ part ∈ dir, '/' ∉ part := fun part hpart => hpath part (List.mem_append_left _ hpart)
  have hname : '/' ∉ name := hpath name (List.mem_append_right _ List.mem_cons_self)
  have hne : dir ++ [name] ≠ [] := by simp
  induction made using List.reverseRecOn with
  | nil =>
    rw [List.append_nil, decisionFrom_root hdir hname]
    simp
  | append_singleton made pattern ih =>
    have hrest := ih (fun p hp => hmade p (List.mem_append_left _ hp)) (List.pairwise_append.mp hordered).1
    rw [← List.append_assoc]
    simp only [List.mem_append, List.mem_singleton]
    obtain ⟨last, hlast, rfl | rfl⟩ := hmade pattern (List.mem_append_right _ List.mem_cons_self)
    · have hsame := includePattern_inj hlast hpath hne
      have hother : Cone.excludePattern (joined dir) ≠ Cone.includePattern (joined last) :=
        (includePattern_ne_excludePattern _ _).symm
      rw [decisionFrom_include hlast hpath hne, hrest]
      simp only [hsame, hother, or_false]
      by_cases h : dir ++ [name] = last
      · simp [h]
      · simp only [h, if_false, or_false]
    · rw [decisionFrom_exclude hlast hdir hname, hrest]
      simp only [includePattern_ne_excludePattern, or_false]
      by_cases h : dir = last
      · -- a directory in it would have been included too early
        have hnot : Cone.includePattern (joined (dir ++ [name])) ∉ made := fun hmem =>
          (List.pairwise_append.mp hordered).2.2 _ hmem _ (List.mem_singleton_self _) dir name hpath rfl
            (by rw [h])
        rw [if_pos h, if_neg hnot, h]
        simp
      · have hother : dir ≠ [] → Cone.excludePattern (joined dir) ≠ Cone.excludePattern (joined last) :=
          fun hdirne heq => h ((excludePattern_inj hlast hdir hdirne).mp heq)
        rw [if_neg h]
        by_cases hroot : dir = []
        · simp [hroot]
        · simp only [hroot, hother hroot, or_false]

namespace Cone

/-- Whether a directory is, or is in, a directory that is there as a whole. -/
def IsCovered (cone : Cone) (dir : List Text) : Prop :=
  ∃ w, IsDir w ∧ joined w ∈ cone.whole ∧ w <+: dir

/-- Whether the pattern that includes a directory is there. -/
def Includes (cone : Cone) (dir : List Text) : Prop := includePattern (joined dir) ∈ cone.patterns

/-- Whether the pattern that excludes the directories in a directory is there. -/
def Excludes (cone : Cone) (dir : List Text) : Prop := excludePattern (joined dir) ∈ cone.patterns

/-- Whether a directory is there: it is included, or in a directory that is there as a whole. -/
def Shows (cone : Cone) (dir : List Text) : Prop := cone.Includes dir ∨ cone.IsCovered dir

/-- A sparse checkout whose patterns can be relied on. -/
structure Sound (cone : Cone) : Prop where
  /-- The first patterns are those of the root, the others are made of directories. -/
  made : ∃ made, cone.patterns = root.patterns ++ made ∧ ∀ pattern ∈ made, IsMade pattern
  whole_dirs : ∀ w ∈ cone.whole, ∃ dir, IsDir dir ∧ w = joined dir
  inOrder : InOrder cone.patterns
  /-- The directories in an included directory are excluded unless it is there as a whole. -/
  excludes_iff : ∀ dir, IsDir dir → (cone.Excludes dir ↔ cone.Includes dir ∧ ¬ cone.IsCovered dir)
  /-- Before a directory is included, those beside it are excluded. -/
  above : ∀ dir name, IsDir dir → IsDir (dir ++ [name]) → cone.Includes (dir ++ [name]) → cone.Excludes dir
  /-- A directory that is there as a whole is included, unless it is in another one. -/
  kept : ∀ w, IsDir w → joined w ∈ cone.whole →
    cone.Includes w ∨ ∃ v, IsDir v ∧ joined v ∈ cone.whole ∧ v <+: w ∧ v ≠ w

section

variable {cone : Cone} {dir other : List Text}

theorem IsCovered.trans (h : cone.IsCovered dir) (hbegins : dir <+: other) : cone.IsCovered other := by
  obtain ⟨w, hw, hmem, hwdir⟩ := h
  exact ⟨w, hw, hmem, hwdir.trans hbegins⟩

theorem prefix_concat_of_ne {name : Text} (h : other <+: dir ++ [name]) (hne : other ≠ dir ++ [name]) :
    other <+: dir := (List.prefix_concat_iff.mp h).resolve_left hne

instance (cone : Cone) (dir : List Text) : Decidable (cone.Includes dir) :=
  inferInstanceAs (Decidable (_ ∈ _))

instance (cone : Cone) (dir : List Text) : Decidable (cone.Excludes dir) :=
  inferInstanceAs (Decidable (_ ∈ _))

/-! ## Patterns below a directory -/

theorem dropBelow_append (below : Text) (patterns more : List Text) :
    dropBelow below (patterns ++ more) = dropBelow below patterns ++ dropBelow below more :=
  List.filter_append _ _

/-- Of the patterns that include directories only those strictly below are dropped. -/
theorem mem_dropBelow_include (hdir : IsDir dir) (hother : ∀ part ∈ other, '/' ∉ part) (hne : other ≠ [])
    (patterns : List Text) : includePattern (joined other) ∈ dropBelow (joined dir) patterns
      ↔ includePattern (joined other) ∈ patterns ∧ (dir <+: other → other = dir) := by
  have hbelow : (includePattern (joined dir)).isPrefixOf (includePattern (joined other)) = true
      ↔ dir <+: other := by
    rw [includePattern_eq hdir.ne_nil, includePattern_eq hne, List.isPrefixOf_iff_prefix,
      List.prefix_cons_inj, slashed_prefix_iff hdir.slash_not_mem hother]
  have hmark : ("!" ++ includePattern (joined dir) : Text).isPrefixOf (includePattern (joined other))
      = false := rfl
  have hsame := includePattern_inj hdir hother hne
  unfold dropBelow
  rw [List.mem_filter]
  simp only [hmark, Bool.not_false, Bool.and_true, Bool.not_eq_true', Bool.eq_false_iff, ne_eq,
    Bool.and_eq_true, hbelow, bne_iff_ne, hsame, not_and, not_not]

/-- Of the patterns that exclude directories that of the directory itself is dropped, too. -/
theorem mem_dropBelow_exclude (hdir : IsDir dir) (hother : ∀ part ∈ other, '/' ∉ part) (hne : other ≠ [])
    (patterns : List Text) : excludePattern (joined other) ∈ dropBelow (joined dir) patterns
      ↔ excludePattern (joined other) ∈ patterns ∧ ¬ dir <+: other := by
  have hbelow : (includePattern (joined dir)).isPrefixOf (excludePattern (joined other)) = false := rfl
  -- a star is the name of no directory
  have hstar : slashed other ++ ['*', '/'] = slashed (other ++ [['*']]) := by
    rw [slashed_append]
    rfl
  have hnames : ∀ part ∈ other ++ [['*']], '/' ∉ part := by
    intro part hpart
    rcases List.mem_append.mp hpart with hpart | hpart
    · exact hother part hpart
    · rw [List.mem_singleton.mp hpart]
      decide
  have hdirne : dir ≠ other ++ [['*']] := by
    intro heq
    have hpart := (hdir.parts ['*'] (heq ▸ List.mem_append_right _ List.mem_cons_self)).chars '*'
    exact absurd (hpart List.mem_cons_self).2 (by decide)
  have hmark : ("!" ++ includePattern (joined dir) : Text).isPrefixOf (excludePattern (joined other)) = true
      ↔ dir <+: other := by
    have hlead : ("!" ++ includePattern (joined dir) : Text) = '!' :: '/' :: slashed dir := by
      rw [includePattern_eq hdir.ne_nil]
      rfl
    rw [hlead, excludePattern_eq hne, List.isPrefixOf_iff_prefix, List.prefix_cons_inj, List.prefix_cons_inj,
      hstar, slashed_prefix_iff hdir.slash_not_mem hnames]
    exact ⟨fun h => prefix_concat_of_ne h hdirne, fun h => h.trans (List.prefix_append _ _)⟩
  unfold dropBelow
  rw [List.mem_filter]
  simp only [hbelow, Bool.false_and, Bool.not_false, Bool.true_and, Bool.not_eq_true', Bool.eq_false_iff,
    ne_eq, hmark]

/-- The patterns of the root are about no other directory. -/
theorem dropBelow_root (hdir : IsDir dir) : dropBelow (joined dir) root.patterns = root.patterns := by
  obtain ⟨c, rest, hjoined⟩ := List.exists_cons_of_ne_nil hdir.joined_ne_nil
  have hc : c ≠ '*' := by
    rintro rfl
    exact hdir.star_not_mem (hjoined ▸ List.mem_cons_self)
  have hlead : includePattern (joined dir) = '/' :: c :: (rest ++ ['/']) := by
    rw [hjoined]
    rfl
  have hbeq : (c == '*') = false := beq_false_of_ne hc
  unfold dropBelow root
  simp only [hlead]
  refine List.filter_eq_self.mpr ?_
  intro pattern hpattern
  rcases List.mem_cons.mp hpattern with rfl | hpattern
  · simp [List.isPrefixOf, hbeq]
  · rw [List.mem_singleton.mp hpattern]
    simp [List.isPrefixOf, hbeq]

/-! ## What is there -/

theorem root_sound : root.Sound := by
  have hcovered : ∀ dir, ¬ root.IsCovered dir := by
    rintro dir ⟨w, -, hw, -⟩
    cases hw
  refine ⟨⟨[], rfl, by simp⟩, by simp [root], ?_, fun dir hdir => ?_, fun dir name _ _ h => ?_, ?_⟩
  · refine List.pairwise_pair.mpr fun dir name _ h => ?_
    exact absurd (h ▸ List.mem_cons_self) (includePattern_not_mem_root (joined (dir ++ [name])))
  · exact iff_of_false (excludePattern_not_mem_root _) fun h => includePattern_not_mem_root _ h.1
  · exact absurd h (includePattern_not_mem_root _)
  · intro w _ hw
    cases hw

namespace Sound

variable (h : cone.Sound)
include h

/-- Which patterns there are decides about a directory. -/
theorem decisionFrom_eq {name : Text} (hpath : ∀ part ∈ dir ++ [name], '/' ∉ part) :
    decisionFrom none cone.patterns (dir ++ [name]) true
      = if cone.Includes (dir ++ [name]) then some true
        else if dir = [] ∨ cone.Excludes dir then some false else none := by
  obtain ⟨made, hpatterns, hmade⟩ := h.made
  have hordered : InOrder made := (List.pairwise_append.mp (hpatterns ▸ h.inOrder)).2.1
  have hincludes : cone.Includes (dir ++ [name]) ↔ includePattern (joined (dir ++ [name])) ∈ made := by
    rw [Includes, hpatterns, List.mem_append, or_iff_right (includePattern_not_mem_root _)]
  have hexcludes : cone.Excludes dir ↔ excludePattern (joined dir) ∈ made := by
    rw [Excludes, hpatterns, List.mem_append, or_iff_right (excludePattern_not_mem_root _)]
  rw [hpatterns, decisionFrom_made hmade hordered hpath]
  simp only [hincludes, hexcludes]

/-- Where a directory is there, those that it is in are. -/
theorem includes_of_concat {name : Text} (hdir : IsDir dir) (hname : IsDir (dir ++ [name]))
    (hincludes : cone.Includes (dir ++ [name])) : cone.Includes dir :=
  ((h.excludes_iff dir hdir).mp (h.above dir name hdir hname hincludes)).1

/-- A directory that is there as a whole is included, unless the one that it is in is covered. -/
theorem includes_or_isCovered {name : Text} (hcovered : cone.IsCovered (dir ++ [name])) :
    cone.Includes (dir ++ [name]) ∨ cone.IsCovered dir := by
  obtain ⟨w, hw, hmem, hbegins⟩ := hcovered
  by_cases heq : w = dir ++ [name]
  · subst heq
    rcases h.kept _ hw hmem with hincludes | ⟨v, hv, hvmem, hvbegins, hne⟩
    · exact .inl hincludes
    · exact .inr ⟨v, hv, hvmem, prefix_concat_of_ne hvbegins hne⟩
  · exact .inr ⟨w, hw, hmem, prefix_concat_of_ne hbegins heq⟩

/-- Only directories whose names have no special characters are included. -/
theorem isDir_of_includes (hdir : ∀ part ∈ dir, '/' ∉ part) (hne : dir ≠ []) (hincludes : cone.Includes dir) :
    IsDir dir := by
  obtain ⟨made, hpatterns, hmade⟩ := h.made
  rw [Includes, hpatterns, List.mem_append, or_iff_right (includePattern_not_mem_root _)] at hincludes
  obtain ⟨other, hother, heq | heq⟩ := hmade _ hincludes
  · exact (includePattern_inj hother hdir hne).mp heq ▸ hother
  · exact absurd heq (includePattern_ne_excludePattern _ _)

theorem isDir_of_excludes (hdir : ∀ part ∈ dir, '/' ∉ part) (hne : dir ≠ []) (hexcludes : cone.Excludes dir) :
    IsDir dir := by
  obtain ⟨made, hpatterns, hmade⟩ := h.made
  rw [Excludes, hpatterns, List.mem_append, or_iff_right (excludePattern_not_mem_root _)] at hexcludes
  obtain ⟨other, hother, heq | heq⟩ := hmade _ hexcludes
  · exact absurd heq.symm (includePattern_ne_excludePattern _ _)
  · exact (excludePattern_inj hother hdir hne).mp heq ▸ hother

/-- The directories that are there: those that are included, and those that are covered. -/
theorem showsDir_iff (hdir : ∀ part ∈ dir, '/' ∉ part) :
    showsDir cone.patterns dir.reverse = true ↔ dir ≠ [] ∧ cone.Shows dir := by
  induction dir using List.reverseRecOn with
  | nil => simp [CachedWorkflow.showsDir]
  | append_singleton dir name ih =>
    have hslash : ∀ part ∈ dir, '/' ∉ part := fun part hpart => hdir part (List.mem_append_left _ hpart)
    have hne : dir ++ [name] ≠ [] := by simp
    have hreverse : (dir ++ [name]).reverse = name :: dir.reverse := List.reverse_concat
    have hdecision := h.decisionFrom_eq hdir
    rw [hreverse, CachedWorkflow.showsDir, ← hreverse, List.reverse_reverse, hdecision, and_iff_right hne]
    by_cases hincludes : cone.Includes (dir ++ [name])
    · rw [if_pos hincludes]
      exact iff_of_true rfl (.inl hincludes)
    rw [if_neg hincludes, Shows, or_iff_right hincludes]
    have hup : cone.IsCovered (dir ++ [name]) → cone.IsCovered dir := fun hcovered =>
      (h.includes_or_isCovered hcovered).resolve_left hincludes
    by_cases hout : dir = [] ∨ cone.Excludes dir
    · rw [if_pos hout]
      refine iff_of_false Bool.false_ne_true fun hcovered => ?_
      have habove := hup hcovered
      rcases hout with rfl | hexcludes
      · obtain ⟨w, hw, -, hbegins⟩ := habove
        exact hw.ne_nil (List.prefix_nil.mp hbegins)
      · have hne' : dir ≠ [] := by
          rintro rfl
          obtain ⟨w, hw, -, hbegins⟩ := habove
          exact hw.ne_nil (List.prefix_nil.mp hbegins)
        exact ((h.excludes_iff dir (h.isDir_of_excludes hslash hne' hexcludes)).mp hexcludes).2 habove
    · obtain ⟨hne', hexcludes⟩ := not_or.mp hout
      rw [if_neg hout, Option.getD_none, ih hslash, and_iff_right hne']
      constructor
      · rintro (hshown | hcovered)
        · have hiff := h.excludes_iff dir (h.isDir_of_includes hslash hne' hshown)
          have hcovered : cone.IsCovered dir := by
            by_contra hnot
            exact hexcludes (hiff.mpr ⟨hshown, hnot⟩)
          exact hcovered.trans (List.prefix_append _ _)
        · exact hcovered.trans (List.prefix_append _ _)
      · exact fun hcovered => .inr (hup hcovered)

end Sound

/-! ## Adding a directory whose parent is there -/

/-- What is added with a directory: the patterns of the directory, or that it is there as a whole and nothing
is said about what is below it. -/
structure Adds (cone after : Cone) (dir : List Text) (asWhole : Bool) : Prop where
  made : ∃ made, after.patterns = root.patterns ++ made ∧ ∀ pattern ∈ made, IsMade pattern
  inOrder : InOrder after.patterns
  whole : after.whole = cone.whole ++ if asWhole then [joined dir] else []
  includes_iff : ∀ other, (∀ part ∈ other, '/' ∉ part) → other ≠ [] →
    (after.Includes other ↔ other = dir ∨ cone.Includes other ∧ ¬ (asWhole = true ∧ dir <+: other))
  excludes_iff : ∀ other, (∀ part ∈ other, '/' ∉ part) → other ≠ [] →
    (after.Excludes other ↔
      other = dir ∧ asWhole = false ∨ cone.Excludes other ∧ ¬ (asWhole = true ∧ dir <+: other))

/-- The directories in the directory that another one is in are excluded. -/
def ExcludesAbove (cone : Cone) (dir : List Text) : Prop :=
  ∀ above name, dir = above ++ [name] → above ≠ [] → cone.Excludes above

theorem addSingle_of_includes (hthere : cone.Includes dir) : cone.addSingle (joined dir) false = cone :=
  if_pos (List.contains_iff_mem.mpr hthere)

theorem addSingle_of_not_includes (hthere : ¬ cone.Includes dir) : cone.addSingle (joined dir) false
    = ⟨cone.patterns ++ [includePattern (joined dir), excludePattern (joined dir)], cone.whole⟩ := by
  have hmade : [includePattern (joined dir), excludePattern (joined dir)]
      = [includePattern (joined dir)] ++ [excludePattern (joined dir)] := rfl
  rw [hmade, ← List.append_assoc]
  exact if_neg (mt List.contains_iff_mem.mp hthere)

theorem addSingle_whole (cone : Cone) (dir : List Text) : cone.addSingle (joined dir) true
    = ⟨if includePattern (joined dir) ∈ dropBelow (joined dir) cone.patterns then
          dropBelow (joined dir) cone.patterns
        else dropBelow (joined dir) cone.patterns ++ [includePattern (joined dir)],
      cone.whole ++ [joined dir]⟩ := by
  unfold addSingle
  simp only [if_true, List.contains_iff_mem, List.append_nil]
  split <;> rfl

namespace Sound

variable (h : cone.Sound)
include h

/-- The directories in a directory are excluded where none of them is included yet. -/
theorem inOrder_append (hdir : IsDir dir) (hthere : ¬ cone.Includes dir) :
    InOrder (cone.patterns ++ [includePattern (joined dir), excludePattern (joined dir)]) := by
  refine List.pairwise_append.mpr ⟨h.inOrder, List.pairwise_pair.mpr ?_, ?_⟩
  · intro other name hparts hincludes hexcludes
    have hother : other ++ [name] = other := by
      have hdir' : other ++ [name] = dir :=
        (includePattern_inj hdir hparts (by simp)).mp hincludes.symm
      have hjoined : joined other = joined dir := (excludePattern_injective hexcludes).symm
      have hne : other ≠ [] := fun hnil => hdir.joined_ne_nil (hjoined ▸ hnil ▸ rfl)
      have hslash : ∀ part ∈ other, '/' ∉ part := fun part hpart => hparts part (List.mem_append_left _ hpart)
      rw [hdir', (joined_inj hdir hslash hne).mp hjoined]
    simp at hother
  · intro earlier hearlier later hlater other name hparts hincludes hexcludes
    have hjoined : joined other = joined dir := by
      rcases List.mem_pair.mp hlater with hlater | hlater
      · exact absurd (hlater.symm.trans hexcludes) (includePattern_ne_excludePattern _ _)
      · exact excludePattern_injective (hexcludes.symm.trans hlater)
    have hne : other ≠ [] := fun hnil => hdir.joined_ne_nil (hjoined ▸ hnil ▸ rfl)
    have hslash : ∀ part ∈ other, '/' ∉ part := fun part hpart => hparts part (List.mem_append_left _ hpart)
    obtain rfl : other = dir := (joined_inj hdir hslash hne).mp hjoined
    have hbelow : cone.Includes (other ++ [name]) := by
      rw [Includes, ← hincludes]
      exact hearlier
    exact hthere (h.includes_of_concat hdir (h.isDir_of_includes hparts (by simp) hbelow) hbelow)

theorem adds_files (hdir : IsDir dir) (hnot : ¬ cone.IsCovered dir) :
    cone.Adds (cone.addSingle (joined dir) false) dir false := by
  by_cases hthere : cone.Includes dir
  · have hexcludes : cone.Excludes dir := (h.excludes_iff dir hdir).mpr ⟨hthere, hnot⟩
    rw [addSingle_of_includes hthere]
    refine ⟨h.made, h.inOrder, by simp, fun other _ _ => ?_, fun other _ _ => ?_⟩
    · simp only [Bool.false_eq_true, false_and, not_false_eq_true, and_true]
      exact ⟨.inr, fun hor => hor.elim (fun heq => heq ▸ hthere) id⟩
    · simp only [Bool.false_eq_true, false_and, not_false_eq_true, and_true]
      exact ⟨.inr, fun hor => hor.elim (fun heq => heq ▸ hexcludes) id⟩
  rw [addSingle_of_not_includes hthere]
  obtain ⟨made, hpatterns, hmade⟩ := h.made
  refine ⟨⟨made ++ [includePattern (joined dir), excludePattern (joined dir)], ?_, ?_⟩,
    h.inOrder_append hdir hthere, by simp, fun other hother hne => ?_, fun other hother hne => ?_⟩
  · rw [← List.append_assoc, ← hpatterns]
  · intro pattern hpattern
    rcases List.mem_append.mp hpattern with hpattern | hpattern
    · exact hmade pattern hpattern
    · exact ⟨dir, hdir, by simpa using hpattern⟩
  · have hsame := includePattern_inj hdir hother hne
    unfold Includes
    simp only [List.mem_append, List.mem_pair, includePattern_ne_excludePattern, or_false, hsame,
      Bool.false_eq_true, false_and, not_false_eq_true, and_true]
    exact or_comm
  · have hsame := excludePattern_inj hdir hother hne
    unfold Excludes
    simp only [List.mem_append, List.mem_pair, (includePattern_ne_excludePattern _ _).symm, false_or, hsame,
      Bool.false_eq_true, false_and, not_false_eq_true, and_true]
    exact or_comm

theorem adds_whole (hdir : IsDir dir) : cone.Adds (cone.addSingle (joined dir) true) dir true := by
  obtain ⟨made, hpatterns, hmade⟩ := h.made
  have hdropped : dropBelow (joined dir) cone.patterns = root.patterns ++ dropBelow (joined dir) made := by
    rw [hpatterns, dropBelow_append, dropBelow_root hdir]
  have hordered : InOrder (dropBelow (joined dir) cone.patterns) := h.inOrder.sublist List.filter_sublist
  have hmade' : ∀ pattern ∈ dropBelow (joined dir) made, IsMade pattern := fun pattern hpattern =>
    hmade pattern (List.mem_of_mem_filter hpattern)
  have hkept : ∀ other, (∀ part ∈ other, '/' ∉ part) → other ≠ [] →
      (other = dir ∨ includePattern (joined other) ∈ dropBelow (joined dir) cone.patterns
        ↔ other = dir ∨ cone.Includes other ∧ ¬ (true = true ∧ dir <+: other)) := by
    intro other hother hne
    rw [mem_dropBelow_include hdir hother hne]
    by_cases heq : other = dir
    · simp [heq]
    · simp only [heq, false_or, true_and, imp_false, Includes]
  rw [addSingle_whole]
  by_cases hthere : includePattern (joined dir) ∈ dropBelow (joined dir) cone.patterns
  · rw [if_pos hthere]
    refine ⟨⟨_, hdropped, hmade'⟩, hordered, rfl, fun other hother hne => ?_, fun other hother hne => ?_⟩
    · rw [← hkept other hother hne]
      exact (or_iff_right_of_imp fun heq => heq ▸ hthere).symm
    · rw [Excludes, mem_dropBelow_exclude hdir hother hne]
      simp [Excludes]
  · rw [if_neg hthere]
    refine ⟨⟨dropBelow (joined dir) made ++ [includePattern (joined dir)], ?_, ?_⟩, ?_, rfl,
      fun other hother hne => ?_, fun other hother hne => ?_⟩
    · rw [hdropped, List.append_assoc]
    · intro pattern hpattern
      rcases List.mem_append.mp hpattern with hpattern | hpattern
      · exact hmade' pattern hpattern
      · exact ⟨dir, hdir, .inl (List.mem_singleton.mp hpattern)⟩
    · refine List.pairwise_append.mpr ⟨hordered, List.pairwise_singleton _ _, ?_⟩
      intro earlier _ later hlater other name _ _ hexcludes
      exact includePattern_ne_excludePattern _ _ ((List.mem_singleton.mp hlater).symm.trans hexcludes)
    · rw [← hkept other hother hne, Includes, List.mem_append, List.mem_singleton,
        includePattern_inj hdir hother hne]
      exact or_comm
    · rw [Excludes, List.mem_append, List.mem_singleton, mem_dropBelow_exclude hdir hother hne,
        or_iff_left (includePattern_ne_excludePattern _ _).symm]
      simp [Excludes]

theorem adds (hdir : IsDir dir) (hnot : ¬ cone.IsCovered dir) (asWhole : Bool) :
    cone.Adds (cone.addSingle (joined dir) asWhole) dir asWhole := by
  cases asWhole with
  | false => exact h.adds_files hdir hnot
  | true => exact h.adds_whole hdir

end Sound

namespace Adds

variable {after : Cone} {asWhole : Bool}

theorem isCovered_iff (h : cone.Adds after dir asWhole) (hdir : IsDir dir) :
    after.IsCovered other ↔ cone.IsCovered other ∨ asWhole = true ∧ dir <+: other := by
  unfold IsCovered
  rw [h.whole]
  constructor
  · rintro ⟨w, hw, hmem, hbegins⟩
    rcases List.mem_append.mp hmem with hmem | hmem
    · exact .inl ⟨w, hw, hmem, hbegins⟩
    · cases asWhole with
      | false => cases hmem
      | true =>
        obtain rfl := (joined_inj hdir hw.slash_not_mem hw.ne_nil).mp (List.mem_singleton.mp hmem)
        exact .inr ⟨rfl, hbegins⟩
  · rintro (⟨w, hw, hmem, hbegins⟩ | ⟨rfl, hbegins⟩)
    · exact ⟨w, hw, List.mem_append_left _ hmem, hbegins⟩
    · exact ⟨dir, hdir, List.mem_append_right _ List.mem_cons_self, hbegins⟩

theorem shows_iff (h : cone.Adds after dir asWhole) (hdir : IsDir dir) (hother : ∀ part ∈ other, '/' ∉ part)
    (hne : other ≠ []) :
    after.Shows other ↔ cone.Shows other ∨ other = dir ∨ asWhole = true ∧ dir <+: other := by
  rw [Shows, Shows, h.includes_iff other hother hne, h.isCovered_iff hdir]
  tauto

/-- The patterns can still be relied on. -/
theorem sound (h : cone.Adds after dir asWhole) (hsound : cone.Sound) (hdir : IsDir dir)
    (hnot : ¬ cone.IsCovered dir) (habove : cone.ExcludesAbove dir) : after.Sound := by
  refine ⟨h.made, ?_, h.inOrder, ?_, ?_, ?_⟩
  · intro w hw
    rw [h.whole] at hw
    rcases List.mem_append.mp hw with hw | hw
    · exact hsound.whole_dirs w hw
    · cases asWhole with
      | false => cases hw
      | true => exact ⟨dir, hdir, List.mem_singleton.mp hw⟩
  · intro other hother
    rw [h.excludes_iff other hother.slash_not_mem hother.ne_nil,
      h.includes_iff other hother.slash_not_mem hother.ne_nil, h.isCovered_iff hdir,
      hsound.excludes_iff other hother]
    by_cases heq : other = dir
    · subst heq
      cases asWhole <;> simp [hnot]
    · simp only [heq, false_and, false_or]
      tauto
  · intro other name hother hname hincludes
    have hslash := hname.slash_not_mem
    rw [h.excludes_iff other hother.slash_not_mem hother.ne_nil]
    rcases (h.includes_iff _ hslash hname.ne_nil).mp hincludes with heq | ⟨hincludes, hbelow⟩
    · have hstrict : ¬ dir <+: other := by
        intro hbegins
        have hlength := hbegins.length_le
        rw [← heq, List.length_append, List.length_singleton] at hlength
        omega
      exact .inr ⟨habove other name heq.symm hother.ne_nil, fun hbegins => hstrict hbegins.2⟩
    · exact .inr ⟨hsound.above other name hother hname hincludes,
        fun hbegins => hbelow ⟨hbegins.1, hbegins.2.trans (List.prefix_append _ _)⟩⟩
  · intro w hw hmem
    rw [h.includes_iff w hw.slash_not_mem hw.ne_nil]
    by_cases heq : w = dir
    · exact .inl (.inl heq)
    have hmem' : joined w ∈ cone.whole := by
      rw [h.whole] at hmem
      rcases List.mem_append.mp hmem with hmem | hmem
      · exact hmem
      · cases asWhole with
        | false => cases hmem
        | true => exact absurd ((joined_inj hdir hw.slash_not_mem hw.ne_nil).mp (List.mem_singleton.mp hmem)) heq
    by_cases hbegins : asWhole = true ∧ dir <+: w
    · -- it is in the directory that is added
      have hjoined : joined dir ∈ after.whole := by
        rw [h.whole, hbegins.1]
        exact List.mem_append_right _ List.mem_cons_self
      exact .inr ⟨dir, hdir, hjoined, hbegins.2, fun hsame => heq hsame.symm⟩
    · rcases hsound.kept w hw hmem' with hincludes | ⟨v, hv, hvmem, hvbegins, hne⟩
      · exact .inl (.inr ⟨hincludes, hbegins⟩)
      · refine .inr ⟨v, hv, ?_, hvbegins, hne⟩
        rw [h.whole]
        exact List.mem_append_left _ hvmem

end Adds

end

end Cone

end CachedWorkflow
