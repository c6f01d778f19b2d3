import CachedWorkflow.Checkout.Cone
import CachedWorkflow.Proofs.Path.Action
import CachedWorkflow.Proofs.Path.Dirname
import CachedWorkflow.Proofs.Text.Names
import Mathlib.Data.List.Infix

/-!
# Proofs: patterns as rules

The patterns of a sparse checkout are rules about directories and files (`Rule.read?`). The last one that
matches decides; where none does the directory above decides (`showsFile`). The two patterns that are made
of a directory match that directory alone, and the directories directly in it (`matches_includePattern`,
`matches_excludePattern`).
-/

namespace CachedWorkflow

/-! ## Reading patterns -/

/-- The characters with a meaning of their own in patterns. -/
def isGlobChar (c : Char) : Bool := c == '*' || c == '?' || c == '[' || c == '\\'

/-- What can be left of a text when a star has taken its beginning. A star takes no slashes. -/
def starRests : Text → List Text
  | [] => [[]]
  | c :: rest => (c :: rest) :: if c = '/' then [] else starRests rest

/-- Whether a text matches a glob, which has no special characters but stars. -/
def globMatches : (glob text : Text) → Bool
  | [], text => text.isEmpty
  | c :: glob, text =>
    if c = '*' then (starRests text).any (globMatches glob)
    else match text with
      | [] => false
      | d :: rest => c == d && globMatches glob rest

/-- A pattern that is anchored at the root. -/
structure Rule where
  /-- Whether what matches is checked out. -/
  includes : Bool
  /-- Whether only directories match. -/
  onlyDirs : Bool
  /-- The glob for the path from the root. -/
  glob : Text
  deriving DecidableEq, Repr

namespace Rule

/-- The rule of a glob. Globs with special characters other than one star are not read. -/
def ofGlob? (includes onlyDirs : Bool) (glob : Text) : Option Rule :=
  if (glob.all fun c => c == '*' || !isGlobChar c) && glob.count '*' ≤ 1 then
    some ⟨includes, onlyDirs, glob⟩
  else none

/-- Reads a pattern: an exclamation mark excludes, a slash at the beginning anchors the pattern, and one at
the end restricts it to directories. Patterns that are not anchored are not read. -/
def read? (pattern : Text) : Option Rule :=
  let (includes, anchored) := match pattern with
    | '!' :: rest => (false, rest)
    | _ => (true, pattern)
  match anchored with
  | '/' :: rest =>
    if rest.getLast? = some '/' then ofGlob? includes true rest.dropLast
    else ofGlob? includes false rest
  | _ => none

/-- Whether a rule is about a directory or a file, given by the names on the way from the root. -/
def concerns (rule : Rule) (path : List Text) (isDir : Bool) : Bool :=
  (isDir || !rule.onlyDirs) && globMatches rule.glob (List.intercalate ['/'] path)

end Rule

/-- What the patterns say after `before` has been said: the last one that matches decides. -/
def decisionFrom (before : Option Bool) (patterns : List Text) (path : List Text) (isDir : Bool) :
    Option Bool :=
  patterns.foldl (fun decision pattern =>
    match Rule.read? pattern with
    | some rule => if rule.concerns path isDir then some rule.includes else decision
    | none => decision) before

/-- Whether a directory is there, given by the names on the way up to the root. Where no pattern matches
the directory above decides; the root itself matches nothing. -/
def showsDir (patterns : List Text) : List Text → Bool
  | [] => false
  | name :: above =>
    (decisionFrom none patterns (name :: above).reverse true).getD (showsDir patterns above)

/-- Whether the file `name` in a directory is checked out. -/
def showsFile (patterns : List Text) (dir : List Text) (name : Text) : Bool :=
  (decisionFrom none patterns (dir ++ [name]) false).getD (showsDir patterns dir.reverse)

/-! ## Globs -/

theorem globMatches_of_not_mem {glob : Text} (h : '*' ∉ glob) (text : Text) :
    globMatches glob text = (glob == text) := by
  induction glob generalizing text with
  | nil => cases text <;> rfl
  | cons c glob ih =>
    obtain ⟨hc, hglob⟩ := not_or.mp (mt List.mem_cons.mpr h)
    rw [globMatches.eq_def]
    simp only [if_neg (Ne.symm hc)]
    cases text with
    | nil => rfl
    | cons d rest => simp only [ih hglob, List.cons_beq_cons]

theorem nil_mem_starRests_iff {text : Text} : [] ∈ starRests text ↔ '/' ∉ text := by
  induction text with
  | nil => simp [starRests]
  | cons c rest ih =>
    rw [starRests]
    by_cases hc : c = '/'
    · simp [hc]
    · simp [hc, ih, Ne.symm hc]

/-- A star stands for a name. -/
theorem globMatches_star (text : Text) : globMatches ['*'] text = true ↔ '/' ∉ text := by
  have hempty : ∀ rest : Text, globMatches [] rest = true ↔ rest = [] := fun rest => by
    rw [globMatches, List.isEmpty_iff]
  rw [globMatches.eq_def]
  simp only [if_pos, List.any_eq_true, hempty, exists_eq_right, nil_mem_starRests_iff]

/-- What comes first in a glob is there as it is if it has no star. -/
theorem globMatches_append {lead glob : Text} (h : '*' ∉ lead) (text : Text) :
    globMatches (lead ++ glob) text = true ↔ ∃ rest, text = lead ++ rest ∧ globMatches glob rest = true := by
  induction lead generalizing text with
  | nil => simp
  | cons c lead ih =>
    obtain ⟨hc, hlead⟩ := not_or.mp (mt List.mem_cons.mpr h)
    rw [List.cons_append, globMatches.eq_def]
    simp only [if_neg (Ne.symm hc)]
    cases text with
    | nil => simp
    | cons d rest => simp only [Bool.and_eq_true, beq_iff_eq, ih hlead, List.cons_append,
        List.cons.injEq, and_assoc, exists_and_left, eq_comm (a := c)]

/-! ## Directories -/

/-- A part of a path that patterns can be made of. -/
structure IsPart (name : Text) : Prop where
  ne_nil : name ≠ []
  ne_dot : name ≠ ['.']
  hasOpening : Template.hasOpening name = false
  chars : ∀ c ∈ name, c ≠ '/' ∧ isGlobChar c = false

/-- The names on the way to a directory below the root. -/
structure IsDir (dir : List Text) : Prop where
  ne_nil : dir ≠ []
  parts : ∀ name ∈ dir, IsPart name

/-- The names with a slash behind each. -/
def slashed (dir : List Text) : Text := dir.flatMap (· ++ ['/'])

/-- The path of a directory. -/
def joined (dir : List Text) : Text := List.intercalate ['/'] dir

section

variable {dir other : List Text}

theorem slashed_append (dir other : List Text) : slashed (dir ++ other) = slashed dir ++ slashed other :=
  List.flatMap_append

theorem slashed_eq (h : dir ≠ []) : slashed dir = joined dir ++ ['/'] := Path.flatMap_slash h

theorem joined_append_singleton (dir : List Text) (name : Text) :
    joined (dir ++ [name]) = slashed dir ++ name := Path.intercalate_concat dir name

theorem joined_injective (hdir : ∀ name ∈ dir, '/' ∉ name) (hother : ∀ name ∈ other, '/' ∉ name)
    (hne : dir ≠ []) (hne' : other ≠ []) (h : joined dir = joined other) : dir = other := by
  rw [← List.splitOn_intercalate '/' hdir hne, ← List.splitOn_intercalate '/' hother hne']
  exact congrArg (List.splitOn '/') h

theorem slashed_prefix_iff (hdir : ∀ name ∈ dir, '/' ∉ name) (hother : ∀ name ∈ other, '/' ∉ name) :
    slashed dir <+: slashed other ↔ dir <+: other := by
  constructor
  · intro h
    induction dir generalizing other with
    | nil => exact List.nil_prefix
    | cons name rest ih =>
      obtain ⟨hname, hrest⟩ := List.forall_mem_cons.mp hdir
      obtain ⟨tail, htail⟩ := h
      unfold slashed at htail
      rw [List.flatMap_cons] at htail
      cases other with
      | nil => simp at htail
      | cons next others =>
        obtain ⟨hnext, hothers⟩ := List.forall_mem_cons.mp hother
        rw [List.flatMap_cons] at htail
        simp only [List.append_assoc, List.singleton_append] at htail
        have hplain : ∀ {part : Text}, '/' ∉ part → ∀ c ∈ part, (c != '/') = true := by
          intro part hpart c hc
          rw [bne_iff_ne]
          rintro rfl
          exact hpart hc
        obtain ⟨rfl, hafter⟩ := run_append_inj (hplain hname) (hplain hnext)
          (fun c hc => by cases hc; rfl) (fun c hc => by cases hc; rfl) htail
        exact List.cons_prefix_cons.mpr ⟨rfl, ih hrest hothers ⟨tail, (List.cons.inj hafter).2⟩⟩
  · rintro ⟨tail, rfl⟩
    exact ⟨slashed tail, (slashed_append dir tail).symm⟩

end

namespace IsDir

variable {dir other : List Text}

theorem slash_not_mem (h : IsDir dir) : ∀ name ∈ dir, '/' ∉ name := fun name hname hslash =>
  ((h.parts name hname).chars '/' hslash).1 rfl

theorem of_prefix (h : IsDir dir) (hbegins : other <+: dir) (hne : other ≠ []) : IsDir other :=
  ⟨hne, fun name hname => h.parts name (hbegins.subset hname)⟩

/-- The path of a directory ends with its last name. -/
theorem exists_joined (h : IsDir dir) : ∃ lead name, joined dir = lead ++ name ∧ IsPart name := by
  obtain ⟨init, name, rfl⟩ := (List.eq_nil_or_concat dir).resolve_left h.ne_nil
  rw [List.concat_eq_append] at h ⊢
  exact ⟨slashed init, name, joined_append_singleton init name, h.parts name (by simp)⟩

theorem joined_ne_nil (h : IsDir dir) : joined dir ≠ [] := by
  obtain ⟨lead, name, heq, hname⟩ := h.exists_joined
  rw [heq]
  exact List.append_ne_nil_of_right_ne_nil _ hname.ne_nil

theorem joined_ne_dot (h : IsDir dir) : joined dir ≠ ['.'] := by
  intro hdot
  obtain rfl : dir = [['.']] :=
    joined_injective h.slash_not_mem (by decide) h.ne_nil (List.cons_ne_nil _ _) hdot
  exact (h.parts ['.'] List.mem_cons_self).ne_dot rfl

/-- No special characters stand in the path of a directory. -/
theorem isGlobChar_eq_false (h : IsDir dir) : ∀ c ∈ joined dir, isGlobChar c = false := by
  intro c hc
  have hmem : c ∈ slashed dir := by
    rw [slashed_eq h.ne_nil]
    exact List.mem_append_left _ hc
  obtain ⟨name, hname, hchar⟩ := List.mem_flatMap.mp hmem
  rcases List.mem_append.mp hchar with hchar | hslash
  · exact ((h.parts name hname).chars c hchar).2
  · rw [List.mem_singleton.mp hslash]
    decide

theorem star_not_mem (h : IsDir dir) : '*' ∉ joined dir := fun hstar =>
  absurd (h.isGlobChar_eq_false '*' hstar) (by decide)

end IsDir

/-! ## The patterns of a directory -/

section

variable {dir path : List Text}

theorem includePattern_eq (h : dir ≠ []) : Cone.includePattern (joined dir) = '/' :: slashed dir := by
  rw [Cone.includePattern, slashed_eq h]
  rfl

theorem excludePattern_eq (h : dir ≠ []) :
    Cone.excludePattern (joined dir) = '!' :: '/' :: (slashed dir ++ ['*', '/']) := by
  rw [Cone.excludePattern, includePattern_eq h]
  rfl

/-- A glob with at most one star behind text without special characters is read. -/
theorem Rule.ofGlob?_append {lead glob : Text} (hlead : ∀ c ∈ lead, isGlobChar c = false)
    (hglob : ∀ c ∈ glob, c = '*' ∨ isGlobChar c = false) (hcount : glob.count '*' ≤ 1)
    (includes onlyDirs : Bool) :
    ofGlob? includes onlyDirs (lead ++ glob) = some ⟨includes, onlyDirs, lead ++ glob⟩ := by
  have hstar : '*' ∉ lead := fun hmem => absurd (hlead '*' hmem) (by decide)
  refine if_pos ?_
  rw [Bool.and_eq_true, List.all_eq_true, decide_eq_true_eq, List.count_append,
    List.count_eq_zero.mpr hstar, Nat.zero_add]
  refine ⟨fun c hc => ?_, hcount⟩
  rw [Bool.or_eq_true, beq_iff_eq, Bool.not_eq_true']
  exact (List.mem_append.mp hc).elim (fun hc => .inr (hlead c hc)) (hglob c)

/-- The pattern that includes a directory is about this directory. -/
theorem read?_includePattern (h : IsDir dir) :
    Rule.read? (Cone.includePattern (joined dir)) = some ⟨true, true, joined dir⟩ := by
  have hread : Rule.ofGlob? true true (joined dir ++ []) = some ⟨true, true, joined dir ++ []⟩ :=
    Rule.ofGlob?_append h.isGlobChar_eq_false (by simp) (by simp) true true
  rw [List.append_nil] at hread
  rw [includePattern_eq h.ne_nil, slashed_eq h.ne_nil, Rule.read?]
  simp only [List.getLast?_append, List.getLast?_singleton, Option.some_or, List.dropLast_concat,
    if_true]
  exact hread

/-- The pattern that excludes the directories in a directory is about these. -/
theorem read?_excludePattern (h : IsDir dir) : Rule.read? (Cone.excludePattern (joined dir))
    = some ⟨false, true, joined dir ++ ['/', '*']⟩ := by
  have hbody : slashed dir ++ ['*', '/'] = (joined dir ++ ['/', '*']) ++ ['/'] := by
    rw [slashed_eq h.ne_nil]
    simp
  rw [excludePattern_eq h.ne_nil, hbody, Rule.read?]
  simp only [List.getLast?_append, List.getLast?_singleton, Option.some_or, List.dropLast_concat,
    if_true]
  exact Rule.ofGlob?_append h.isGlobChar_eq_false (by decide) (by decide) false true

/-- It is about the directory and about nothing else. -/
theorem concerns_includePattern (h : IsDir dir) (hpath : ∀ name ∈ path, '/' ∉ name) (hne : path ≠ []) :
    (Rule.mk true true (joined dir)).concerns path true = true ↔ path = dir := by
  have hsame : joined dir = List.intercalate ['/'] path ↔ path = dir :=
    ⟨fun heq => (joined_injective h.slash_not_mem hpath h.ne_nil hne heq).symm, fun heq => by rw [heq]; rfl⟩
  rw [Rule.concerns, globMatches_of_not_mem h.star_not_mem]
  simpa using hsame

/-- It is about the directories directly in the directory. -/
theorem concerns_excludePattern (h : IsDir dir) {name : Text} (hpath : ∀ part ∈ path, '/' ∉ part)
    (hname : '/' ∉ name) :
    (Rule.mk false true (joined dir ++ ['/', '*'])).concerns (path ++ [name]) true = true ↔ path = dir := by
  have hslash : joined dir ++ ['/', '*'] = slashed dir ++ ['*'] := by
    rw [slashed_eq h.ne_nil]
    simp
  have hstar : '*' ∉ slashed dir := by
    rw [slashed_eq h.ne_nil]
    simpa using h.star_not_mem
  have hjoined : List.intercalate ['/'] (path ++ [name]) = slashed path ++ name :=
    joined_append_singleton path name
  rw [Rule.concerns, hslash, hjoined, Bool.true_or, Bool.true_and, globMatches_append hstar]
  simp only [globMatches_star]
  constructor
  · rintro ⟨rest, heq, hrest⟩
    -- both are the names of a directory with a last name behind
    rw [← joined_append_singleton, ← joined_append_singleton] at heq
    have hnames : ∀ {names : List Text} {last : Text}, (∀ part ∈ names, '/' ∉ part) → '/' ∉ last →
        ∀ part ∈ names ++ [last], '/' ∉ part := fun hnames hlast part hpart =>
      (List.mem_append.mp hpart).elim (hnames part) fun hpart => List.mem_singleton.mp hpart ▸ hlast
    have hall := joined_injective (hnames hpath hname) (hnames h.slash_not_mem hrest) (by simp) (by simp) heq
    exact (List.append_inj' hall rfl).1
  · rintro rfl
    exact ⟨name, rfl, hname⟩

end

/-! ## Decisions -/

theorem decisionFrom_append_singleton (before : Option Bool) (patterns : List Text) (pattern : Text)
    (path : List Text) (isDir : Bool) :
    decisionFrom before (patterns ++ [pattern]) path isDir = match Rule.read? pattern with
      | some rule => if rule.concerns path isDir then some rule.includes
        else decisionFrom before patterns path isDir
      | none => decisionFrom before patterns path isDir := by
  rw [decisionFrom, List.foldl_append]
  rfl

section

variable {before : Option Bool} {patterns : List Text} {dir path : List Text} {name : Text}

theorem decisionFrom_include (h : IsDir dir) (hpath : ∀ part ∈ path, '/' ∉ part) (hne : path ≠ []) :
    decisionFrom before (patterns ++ [Cone.includePattern (joined dir)]) path true
      = if path = dir then some true else decisionFrom before patterns path true := by
  rw [decisionFrom_append_singleton, read?_includePattern h]
  simp only [concerns_includePattern h hpath hne]

theorem decisionFrom_exclude (h : IsDir dir) (hpath : ∀ part ∈ path, '/' ∉ part) (hname : '/' ∉ name) :
    decisionFrom before (patterns ++ [Cone.excludePattern (joined dir)]) (path ++ [name]) true
      = if path = dir then some false else decisionFrom before patterns (path ++ [name]) true := by
  rw [decisionFrom_append_singleton, read?_excludePattern h]
  simp only [concerns_excludePattern h hpath hname]

/-- The patterns of directories are not about files. -/
theorem decisionFrom_file (h : ∀ pattern ∈ patterns, ∃ dir, IsDir dir ∧
      (pattern = Cone.includePattern (joined dir) ∨ pattern = Cone.excludePattern (joined dir))) :
    decisionFrom before patterns path false = before := by
  induction patterns using List.reverseRecOn with
  | nil => rfl
  | append_singleton patterns pattern ih =>
    have hrest := ih fun p hp => h p (List.mem_append_left _ hp)
    obtain ⟨dir, hdir, rfl | rfl⟩ := h pattern (List.mem_append_right _ List.mem_cons_self)
    · rw [decisionFrom_append_singleton, read?_includePattern hdir]
      exact hrest
    · rw [decisionFrom_append_singleton, read?_excludePattern hdir]
      exact hrest

/-- The first two patterns are about everything at the root, and then about the directories there. -/
theorem decisionFrom_root (hpath : ∀ part ∈ path, '/' ∉ part) (hname : '/' ∉ name) (isDir : Bool) :
    decisionFrom none Cone.root.patterns (path ++ [name]) isDir
      = if path = [] then some (!isDir) else none := by
  have hstar : globMatches ['*'] (List.intercalate ['/'] (path ++ [name])) = true ↔ path = [] := by
    have hjoined : List.intercalate ['/'] (path ++ [name]) = slashed path ++ name :=
      joined_append_singleton path name
    rw [hjoined, globMatches_star]
    cases path with
    | nil => simpa [slashed] using hname
    | cons first rest => simp [slashed]
  have hall : Rule.read? ("/*" : Text) = some ⟨true, false, ['*']⟩ := by decide
  have hdirs : Rule.read? ("!/*/" : Text) = some ⟨false, true, ['*']⟩ := by decide
  have hsplit : Cone.root.patterns = [] ++ ["/*".toList] ++ ["!/*/".toList] := rfl
  rw [hsplit, decisionFrom_append_singleton, decisionFrom_append_singleton, hall, hdirs]
  unfold Rule.concerns
  simp only [Bool.and_eq_true, hstar]
  by_cases hroot : path = []
  · cases isDir <;> simp [hroot]
  · simp only [hroot, and_false, if_false]
    rfl

end

end CachedWorkflow
