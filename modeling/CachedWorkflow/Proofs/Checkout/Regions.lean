import CachedWorkflow.Proofs.Checkout.Ancestors
import CachedWorkflow.Proofs.Checkout.Cone

/-!
# Proofs: declared regions

A declared path stands for a region of the repository: the directories that it is in, each with its files
only, and everything below it if it ends with a slash (`Declares`). Adding a directory to a sparse checkout
adds the directories that it is in (`Cone.Sound.addDir`). So a sparse checkout holds the declared regions and
nothing else, in whatever order they are declared (`sparsePatterns_exact`).
-/

namespace CachedWorkflow

/-! ## Paths of directories -/

namespace Path

/-- Without an opening every slash divides. -/
theorem slash_not_mem_segments {path : Text} (h : Template.hasOpening path = false) :
    ∀ segment ∈ segments path, '/' ∉ segment := by
  induction path with
  | nil => simp [segments, segmentsFrom]
  | cons c path ih =>
    have hnot : ¬ Template.opening <:+: c :: path := by
      rw [← Template.hasOpening_iff, h]
      decide
    have hrest : Template.hasOpening path = false := by
      rw [Bool.eq_false_iff, ne_eq, Template.hasOpening_iff]
      exact fun hopening => hnot (List.infix_cons hopening)
    by_cases hc : c = '/'
    · rw [hc, segments_slash, List.forall_mem_cons]
      exact ⟨by simp, ih hrest⟩
    · have hfrom : segmentsFrom false (c :: path)
          = (c :: (segmentsFrom false path).1, (segmentsFrom false path).2) :=
        segmentsFrom_outside_cons (fun hopening => hnot hopening.isInfix) hc
      have hsegments := ih hrest
      rw [segments, List.forall_mem_cons] at hsegments
      rw [segments, hfrom, List.forall_mem_cons]
      refine ⟨fun hmem => ?_, hsegments.2⟩
      rcases List.mem_cons.mp hmem with heq | hmem
      · exact hc heq.symm
      · exact hsegments.1 hmem

theorem segments_eq_singleton {name : Text} (h : '/' ∉ name) : segments name = [name] := by
  have hjoin := segmentsFrom_join false name
  have hothers : (segmentsFrom false name).2 = [] := by
    cases hcases : (segmentsFrom false name).2 with
    | nil => rfl
    | cons other others =>
      rw [hcases, List.flatMap_cons] at hjoin
      exact absurd (hjoin ▸ List.mem_append_right _ (List.mem_append_left _ List.mem_cons_self)) h
  rw [hothers, List.flatMap_nil, List.append_nil] at hjoin
  have hsegments : segments name = (segmentsFrom false name).1 :: (segmentsFrom false name).2 := rfl
  rw [hsegments, hjoin, hothers]

/-- The names of a directory are found again in its path. -/
theorem segments_joined {dir : List Text} (h : IsDir dir) : segments (joined dir) = dir := by
  induction dir with
  | nil => exact absurd rfl h.ne_nil
  | cons name rest ih =>
    have hname := h.parts name List.mem_cons_self
    have hsegments : segments name = [name] :=
      segments_eq_singleton fun hslash => (hname.chars '/' hslash).1 rfl
    cases rest with
    | nil => rw [joined, List.intercalate_singleton, hsegments]
    | cons next rest =>
      have hrest := ih ⟨List.cons_ne_nil _ _, fun part hpart => h.parts part (List.mem_cons_of_mem _ hpart)⟩
      have hjoined : joined (name :: next :: rest) = name ++ '/' :: joined (next :: rest) := by
        rw [joined, List.intercalate_cons_cons, List.append_assoc]
        rfl
      rw [hjoined, segments_append_slash hname.hasOpening, hsegments, hrest, List.singleton_append]

/-- The directory that a directory is in is the one without the last name. -/
theorem dirname_joined {dir : List Text} {name : Text} (h : IsDir (dir ++ [name])) :
    dirname (joined (dir ++ [name])) = joined dir := by
  have hparts := areSegments_segments (joined (dir ++ [name]))
  rw [segments_joined h] at hparts
  exact dirname_intercalate hparts fun other hother => (h.parts other (List.mem_append_left _ hother)).ne_nil

theorem length_joined_lt {dir : List Text} {name : Text} (h : IsDir (dir ++ [name])) :
    (joined dir).length < (joined (dir ++ [name])).length :=
  length_intercalate_lt dir (h.parts name (by simp)).ne_nil

end Path

/-! ## Declared paths -/

/-- A path that the patterns of a sparse checkout can be made of. -/
structure IsDeclarable (path : Text) : Prop where
  relative : Path.isAbsolute path = false
  hasOpening : Template.hasOpening path = false
  chars : ∀ c ∈ path, isGlobChar c = false
  ne_dot : Path.normalize path ≠ ['.']

/-- The normal form of such a path is the path of a directory, or of a file as if it were one. -/
theorem IsDeclarable.exists_dir {path : Text} (h : IsDeclarable path) :
    ∃ dir, IsDir dir ∧ Path.normalize path = joined dir ∧ Path.segments (Path.normalize path) = dir := by
  obtain ⟨hnormal, hsegments, hne⟩ := Path.normalize_eq_intercalate h.relative h.ne_dot
  have hreduced := Path.reduced_reducedSegments path
  have hmem : ∀ part ∈ Path.reducedSegments path, part ∈ Path.segments path := fun part =>
    Path.mem_of_mem_foldl_push
  refine ⟨_, ⟨hne, fun part hpart => ?_⟩, hnormal, rfl⟩
  rw [hsegments, List.mem_reverse] at hpart
  have hinside := Path.infix_of_mem_segments (hmem part hpart)
  have hopening := h.hasOpening
  rw [Bool.eq_false_iff, ne_eq, Template.hasOpening_iff] at hopening
  refine ⟨hreduced.ne_nil part hpart, hreduced.ne_dot part hpart, ?_, fun c hc => ⟨?_, ?_⟩⟩
  · rw [Bool.eq_false_iff, ne_eq, Template.hasOpening_iff]
    exact fun hpartOpening => hopening (hpartOpening.trans hinside)
  · rintro rfl
    exact Path.slash_not_mem_segments h.hasOpening part (hmem part hpart) hc
  · exact h.chars c (hinside.subset hc)

/-- Whether a path stands for the files in a directory: these are in a directory on the way to the path, or
below the path if it ends with a slash. -/
def Declares (path : Text) (dir : List Text) : Prop :=
  dir <+: (Path.segments (Path.normalize path)).dropLast ∨
    path.getLast? = some '/' ∧ Path.segments (Path.normalize path) <+: dir

namespace Cone

/-- What is added with a directory and those that it is in. -/
structure AddsRegion (cone after : Cone) (dir : List Text) (asWhole : Bool) : Prop where
  sound : after.Sound
  isCovered_iff : ∀ other, after.IsCovered other ↔ cone.IsCovered other ∨ asWhole = true ∧ dir <+: other
  shows_iff : ∀ other, (∀ part ∈ other, '/' ∉ part) → other ≠ [] →
    (after.Shows other ↔ cone.Shows other ∨ other <+: dir ∨ asWhole = true ∧ dir <+: other)

section

variable {cone : Cone} {dir other : List Text}

theorem Sound.covers_iff (h : cone.Sound) (hdir : IsDir dir) :
    cone.covers (joined dir) = true ↔ cone.IsCovered dir := by
  unfold covers IsCovered
  rw [List.any_eq_true]
  constructor
  · rintro ⟨w, hmem, hcovers⟩
    obtain ⟨names, hnames, rfl⟩ := h.whole_dirs w hmem
    refine ⟨names, hnames, hmem, ?_⟩
    rcases Bool.or_eq_true_iff.mp hcovers with hsame | hbegins
    · rw [(joined_inj hnames hdir.slash_not_mem hdir.ne_nil).mp (eq_of_beq hsame)]
    · rw [List.isPrefixOf_iff_prefix] at hbegins
      have hslashed : slashed names <+: joined dir := (slashed_eq hnames.ne_nil).symm ▸ hbegins
      exact ((slashed_prefix_joined_iff hnames hdir).mp hslashed).1
  · rintro ⟨w, hw, hmem, hbegins⟩
    refine ⟨joined w, hmem, ?_⟩
    rw [Bool.or_eq_true_iff]
    by_cases heq : w = dir
    · exact .inl (heq ▸ BEq.rfl)
    · refine .inr (List.isPrefixOf_iff_prefix.mpr ?_)
      have hslashed := (slashed_prefix_joined_iff hw hdir).mpr ⟨hbegins, heq⟩
      rw [slashed_eq hw.ne_nil] at hslashed
      exact hslashed

/-- The directories that a directory is in are there when it is. -/
theorem Sound.shows_of_prefix (h : cone.Sound) (hother : ∀ part ∈ other, '/' ∉ part)
    (hbegins : dir <+: other) (hne : dir ≠ []) (hshown : cone.Shows other) : cone.Shows dir := by
  induction other using List.reverseRecOn with
  | nil => exact absurd (List.prefix_nil.mp hbegins) hne
  | append_singleton other name ih =>
    by_cases heq : dir = other ++ [name]
    · exact heq ▸ hshown
    have hup := prefix_concat_of_ne hbegins heq
    have hotherne : other ≠ [] := fun hnil => hne (List.prefix_nil.mp (hnil ▸ hup))
    have hslash : ∀ part ∈ other, '/' ∉ part := fun part hpart => hother part (List.mem_append_left _ hpart)
    refine ih hslash hup ?_
    have hincludes : cone.Includes (other ++ [name]) → cone.Shows other := by
      intro hincludes
      have hdir := h.isDir_of_includes hother (by simp) hincludes
      have habove : IsDir other := hdir.of_prefix (List.prefix_append _ _) hotherne
      exact .inl (h.includes_of_concat habove hdir hincludes)
    rcases hshown with hshown | hcovered
    · exact hincludes hshown
    · exact (h.includes_or_isCovered hcovered).elim hincludes .inr

/-- Nothing changes where the directory is covered already. -/
theorem Sound.addsRegion_self (h : cone.Sound) (hdir : IsDir dir) (hcovered : cone.IsCovered dir)
    (asWhole : Bool) : cone.AddsRegion cone dir asWhole := by
  refine ⟨h, fun other => ?_, fun other hother hne => ?_⟩
  · exact (or_iff_left_of_imp fun hbegins => hcovered.trans hbegins.2).symm
  · refine (or_iff_left_of_imp ?_).symm
    rintro (hbegins | ⟨-, hbegins⟩)
    · exact h.shows_of_prefix hdir.slash_not_mem hbegins hne (.inr hcovered)
    · exact .inr (hcovered.trans hbegins)

theorem Sound.addDir (h : cone.Sound) (hdir : ∀ part ∈ dir, IsPart part) (asWhole : Bool)
    (hwhole : asWhole = true → dir ≠ []) :
    cone.AddsRegion (cone.addDir (joined dir) asWhole) dir asWhole := by
  induction dir using List.reverseRecOn generalizing asWhole with
  | nil =>
    have hfiles : asWhole = false := by
      rw [← Bool.not_eq_true]
      exact fun htrue => hwhole htrue rfl
    have hsame : cone.addDir (joined []) asWhole = cone := by
      rw [Cone.addDir]
      exact if_pos (.inr (.inl rfl))
    rw [hsame, hfiles]
    refine ⟨h, fun other => by simp, fun other _ hne => ?_⟩
    simp [hne]
  | append_singleton dir name ih =>
    have hname : IsDir (dir ++ [name]) := ⟨by simp, hdir⟩
    by_cases hcovered : cone.IsCovered (dir ++ [name])
    · have hsame : cone.addDir (joined (dir ++ [name])) asWhole = cone := by
        rw [Cone.addDir]
        exact if_pos (.inr (.inr ((h.covers_iff hname).mpr hcovered)))
      rw [hsame]
      exact h.addsRegion_self hname hcovered asWhole
    -- the directory that it is in comes first
    have hgo : ¬ (joined (dir ++ [name]) = ['.'] ∨ joined (dir ++ [name]) = [] ∨
        cone.covers (joined (dir ++ [name])) = true) := by
      rintro (hdot | hempty | hcovers)
      · exact hname.joined_ne_dot hdot
      · exact hname.joined_ne_nil hempty
      · exact hcovered ((h.covers_iff hname).mp hcovers)
    have hstep : cone.addDir (joined (dir ++ [name])) asWhole
        = (cone.addDir (joined dir) false).addSingle (joined (dir ++ [name])) asWhole := by
      rw [Cone.addDir, if_neg hgo, Path.dirname_joined hname, dif_pos (Path.length_joined_lt hname)]
    have habove := ih (fun part hpart => hdir part (List.mem_append_left _ hpart)) false
      (fun hfalse => by cases hfalse)
    set above := cone.addDir (joined dir) false
    have hnot : ¬ above.IsCovered (dir ++ [name]) := by
      rw [habove.isCovered_iff]
      simp [hcovered]
    have hexcludes : above.ExcludesAbove (dir ++ [name]) := by
      intro other last heq hne
      obtain ⟨rfl, -⟩ := List.append_inj' heq rfl
      have hdir' : IsDir dir := hname.of_prefix (List.prefix_append _ _) hne
      have hshown := (habove.shows_iff dir hdir'.slash_not_mem hne).mpr (.inr (.inl List.prefix_rfl))
      have hnot' : ¬ above.IsCovered dir := fun hcovered' => hnot (hcovered'.trans (List.prefix_append _ _))
      exact (habove.sound.excludes_iff dir hdir').mpr ⟨hshown.resolve_right hnot', hnot'⟩
    have hadds := habove.sound.adds hname hnot asWhole
    rw [hstep]
    refine ⟨hadds.sound habove.sound hname hnot hexcludes, fun other => ?_, fun other hother hne => ?_⟩
    · rw [hadds.isCovered_iff hname, habove.isCovered_iff]
      simp
    · rw [hadds.shows_iff hname hother hne, habove.shows_iff other hother hne, List.prefix_concat_iff]
      simp only [Bool.false_eq_true, false_and, or_false]
      tauto

/-- What is added with a declared path. -/
theorem Sound.addPath (h : cone.Sound) {path : Text} (hpath : IsDeclarable path) :
    (cone.addPath path).Sound ∧ ∀ other, (∀ part ∈ other, '/' ∉ part) → other ≠ [] →
      ((cone.addPath path).Shows other ↔ cone.Shows other ∨ Declares path other) := by
  obtain ⟨dir, hdir, hnormal, hsegments⟩ := hpath.exists_dir
  obtain ⟨init, last, rfl⟩ := (List.eq_nil_or_concat dir).resolve_left hdir.ne_nil
  rw [List.concat_eq_append] at hdir hnormal hsegments
  unfold Cone.addPath Declares
  simp only [hsegments, List.dropLast_concat]
  by_cases hslash : path.getLast? = some '/'
  · rw [if_pos hslash, hnormal]
    have hregion := h.addDir hdir.parts true fun _ => hdir.ne_nil
    refine ⟨hregion.sound, fun other hother hne => ?_⟩
    rw [hregion.shows_iff other hother hne, List.prefix_concat_iff]
    constructor
    · rintro (hshown | (rfl | hbegins) | ⟨-, hbegins⟩)
      · exact .inl hshown
      · exact .inr (.inr ⟨hslash, List.prefix_rfl⟩)
      · exact .inr (.inl hbegins)
      · exact .inr (.inr ⟨hslash, hbegins⟩)
    · rintro (hshown | hbegins | ⟨-, hbegins⟩)
      · exact .inl hshown
      · exact .inr (.inl (.inr hbegins))
      · exact .inr (.inr ⟨rfl, hbegins⟩)
  · rw [if_neg hslash, hnormal, Path.dirname_joined hdir]
    have hinit : ∀ part ∈ init, IsPart part := fun part hpart =>
      hdir.parts part (List.mem_append_left _ hpart)
    have hregion := h.addDir hinit false fun hfalse => by cases hfalse
    refine ⟨hregion.sound, fun other hother hne => ?_⟩
    rw [hregion.shows_iff other hother hne]
    simp [hslash]

theorem Sound.addPaths (h : cone.Sound) {paths : List Text} (hpaths : ∀ path ∈ paths, IsDeclarable path) :
    (paths.foldl Cone.addPath cone).Sound ∧ ∀ other, (∀ part ∈ other, '/' ∉ part) → other ≠ [] →
      ((paths.foldl Cone.addPath cone).Shows other ↔ cone.Shows other ∨ ∃ path ∈ paths, Declares path other) := by
  induction paths generalizing cone with
  | nil => exact ⟨h, fun other _ _ => by simp⟩
  | cons path paths ih =>
    obtain ⟨hpath, hrest⟩ := List.forall_mem_cons.mp hpaths
    obtain ⟨hsound, hshows⟩ := h.addPath hpath
    obtain ⟨hsound', hshows'⟩ := ih hsound hrest
    refine ⟨hsound', fun other hother hne => ?_⟩
    rw [List.foldl_cons, hshows' other hother hne, hshows other hother hne, or_assoc, List.exists_mem_cons_iff]

/-- A file is there if it lies at the root or its directory is there. -/
theorem Sound.showsFile_iff (h : cone.Sound) {name : Text} (hdir : ∀ part ∈ dir, '/' ∉ part)
    (hname : '/' ∉ name) :
    showsFile cone.patterns dir name = true ↔ dir = [] ∨ cone.Shows dir := by
  obtain ⟨made, hpatterns, hmade⟩ := h.made
  have hdecision : decisionFrom none cone.patterns (dir ++ [name]) false = if dir = [] then some true else none := by
    have hsplit : decisionFrom none cone.patterns (dir ++ [name]) false
        = decisionFrom (decisionFrom none root.patterns (dir ++ [name]) false) made (dir ++ [name]) false := by
      rw [hpatterns, decisionFrom, List.foldl_append]
      rfl
    rw [hsplit, decisionFrom_file hmade, decisionFrom_root hdir hname]
    rfl
  unfold showsFile
  rw [hdecision]
  by_cases hroot : dir = []
  · simp [hroot]
  · rw [if_neg hroot, Option.getD_none, h.showsDir_iff hdir, and_iff_right hroot, or_iff_right hroot]

theorem Sound.isSome_read? (h : cone.Sound) : ∀ pattern ∈ cone.patterns, (Rule.read? pattern).isSome := by
  obtain ⟨made, hpatterns, hmade⟩ := h.made
  intro pattern hpattern
  rw [hpatterns] at hpattern
  rcases List.mem_append.mp hpattern with hroot | hpattern
  · have hread : ∀ pattern ∈ root.patterns, (Rule.read? pattern).isSome := by decide
    exact hread pattern hroot
  · obtain ⟨dir, hdir, rfl | rfl⟩ := hmade pattern hpattern
    · rw [read?_includePattern hdir]
      rfl
    · rw [read?_excludePattern hdir]
      rfl

theorem not_shows_root (dir : List Text) : ¬ root.Shows dir := by
  rintro (hincludes | ⟨w, -, hmem, -⟩)
  · exact includePattern_not_mem_root _ hincludes
  · cases hmem

end

end Cone

/-! ## Declared regions -/

/-- The patterns for declared paths, without the question whether anything is left out. -/
theorem sparsePatterns_eq {paths : List Text} (hpaths : ∀ path ∈ paths, IsDeclarable path) :
    sparsePatterns paths = some (paths.foldl Cone.addPath Cone.root).patterns := by
  refine if_neg ?_
  rw [List.any_eq_true]
  rintro ⟨path, hmem, hneeded⟩
  have hpath := hpaths path hmem
  rcases Bool.or_eq_true_iff.mp hneeded with hopening | hdot
  · rw [hpath.hasOpening] at hopening
    cases hopening
  · exact hpath.ne_dot (eq_of_beq hdot)

/-- A sparse checkout holds the declared regions and nothing else: putting it together ends, and the patterns
include a file if it lies at the root, in a directory on the way to a declared path, or below a declared path
that ends with a slash. So it holds every declared file and every file below a declared directory, and the
order in which the paths are declared does not matter. -/
theorem sparsePatterns_exact {paths : List Text} (hpaths : ∀ path ∈ paths, IsDeclarable path) :
    ∃ cone, Cone.AddsPaths Cone.root paths cone ∧ sparsePatterns paths = some cone.patterns ∧
      (∀ pattern ∈ cone.patterns, (Rule.read? pattern).isSome) ∧
      (∀ dir name, (∀ part ∈ dir, IsFileName part) → IsFileName name →
        (showsFile cone.patterns dir name = true ↔ dir = [] ∨ ∃ path ∈ paths, Declares path dir)) ∧
      (∀ path ∈ paths, ∀ dir name, (∀ part ∈ dir, IsFileName part) → IsFileName name →
        Path.segments (Path.normalize path) = dir ++ [name] → showsFile cone.patterns dir name = true) ∧
      (∀ path ∈ paths, path.getLast? = some '/' → ∀ dir name, (∀ part ∈ dir, IsFileName part) →
        IsFileName name → Path.segments (Path.normalize path) <+: dir →
          showsFile cone.patterns dir name = true) ∧
      ∀ paths' : List Text, paths'.Perm paths → ∃ patterns', sparsePatterns paths' = some patterns' ∧
        ∀ dir name, (∀ part ∈ dir, IsFileName part) → IsFileName name →
          showsFile patterns' dir name = showsFile cone.patterns dir name := by
  have hexact : ∀ {paths : List Text}, (∀ path ∈ paths, IsDeclarable path) → ∀ dir name,
      (∀ part ∈ dir, IsFileName part) → IsFileName name →
        (showsFile (paths.foldl Cone.addPath Cone.root).patterns dir name = true
          ↔ dir = [] ∨ ∃ path ∈ paths, Declares path dir) := by
    intro paths hpaths dir name hdir hname
    obtain ⟨hsound, hshows⟩ := Cone.root_sound.addPaths hpaths
    have hslash : ∀ part ∈ dir, '/' ∉ part := fun part hpart => (hdir part hpart).not_mem
    rw [hsound.showsFile_iff hslash hname.not_mem]
    by_cases hroot : dir = []
    · simp [hroot]
    · rw [hshows dir hslash hroot, or_iff_right (Cone.not_shows_root dir)]
  obtain ⟨hsound, -⟩ := Cone.root_sound.addPaths hpaths
  have hends : Cone.AddsPaths Cone.root paths (paths.foldl Cone.addPath Cone.root) :=
    Cone.addsPaths_foldl (fun path hpath => ⟨(hpaths path hpath).relative, (hpaths path hpath).ne_dot⟩) Cone.root
  refine ⟨_, hends, sparsePatterns_eq hpaths, hsound.isSome_read?, hexact hpaths, ?_, ?_, ?_⟩
  · intro path hpath dir name hdir hname hsegments
    refine (hexact hpaths dir name hdir hname).mpr (.inr ⟨path, hpath, .inl ?_⟩)
    rw [hsegments, List.dropLast_concat]
  · intro path hpath hslash dir name hdir hname hbelow
    exact (hexact hpaths dir name hdir hname).mpr (.inr ⟨path, hpath, .inr ⟨hslash, hbelow⟩⟩)
  · intro paths' hperm
    have hpaths' : ∀ path ∈ paths', IsDeclarable path := fun path hpath => hpaths path (hperm.mem_iff.mp hpath)
    refine ⟨_, sparsePatterns_eq hpaths', fun dir name hdir hname => ?_⟩
    rw [Bool.eq_iff_iff, hexact hpaths' dir name hdir hname, hexact hpaths dir name hdir hname]
    simp only [hperm.mem_iff]

/-- A directory that is declared as a whole after one of its files, beside one whose name is longer. -/
theorem sparsePatterns_exact_sources :
    (∀ path ∈ (["src/a/b.rs", "./src//a/", "src/ab/c"] : List Text), IsDeclarable path) ∧
      ∃ patterns, sparsePatterns ["src/a/b.rs", "./src//a/", "src/ab/c"] = some patterns ∧
        showsFile patterns ["src", "a", "deep"] "x" = true ∧
        showsFile patterns ["src", "ab", "deep"] "x" = false := by
  have hpaths : ∀ path ∈ (["src/a/b.rs", "./src//a/", "src/ab/c"] : List Text), IsDeclarable path := by
    intro path hpath
    have hsegments : Path.isAbsolute path = false ∧ Template.hasOpening path = false ∧
        (∀ c ∈ path, isGlobChar c = false) ∧ Path.normalize path ≠ ['.'] := by
      revert path
      decide +kernel
    exact ⟨hsegments.1, hsegments.2.1, hsegments.2.2.1, hsegments.2.2.2⟩
  obtain ⟨cone, -, hpatterns, -, hfiles, -⟩ := sparsePatterns_exact hpaths
  have hname : IsFileName "x" := ⟨by decide, by decide, by decide, by decide⟩
  have hdeep : ∀ dir ∈ ([["src", "a", "deep"], ["src", "ab", "deep"]] : List (List Text)),
      ∀ part ∈ dir, part ≠ [] ∧ part ≠ ['.'] ∧ part ≠ ['.', '.'] ∧ '/' ∉ part := by decide
  have hparts : ∀ dir ∈ ([["src", "a", "deep"], ["src", "ab", "deep"]] : List (List Text)),
      ∀ part ∈ dir, IsFileName part := by
    intro dir hdir part hpart
    obtain ⟨hne, hdot, hup, hslash⟩ := hdeep dir hdir part hpart
    exact ⟨hne, hdot, hup, hslash⟩
  refine ⟨hpaths, cone.patterns, hpatterns, ?_, ?_⟩
  · refine (hfiles _ _ (hparts _ (by simp)) hname).mpr (.inr ⟨"./src//a/", by simp, .inr ?_⟩)
    decide +kernel
  · rw [← Bool.not_eq_true, hfiles _ _ (hparts _ (by simp)) hname]
    unfold Declares
    decide +kernel

end CachedWorkflow
