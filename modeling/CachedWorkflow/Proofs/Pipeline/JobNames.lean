import CachedWorkflow.Proofs.Pipeline.Depth
import CachedWorkflow.Proofs.Pipeline.Outputs
import Mathlib.Order.Bounds.Basic

/-!
# Proofs: the names of the jobs of an expanded document

Every job of a document keeps its name, and for a call site the jobs of its child come with a prefix
(`StandsFor`). The prefix is the shortest of its form that begins no name of the document and no name
placed before. So no two jobs get one name, and a job that is put into the ordered jobs never replaces
another one (`expand_names`). The invariant of the pass over the jobs is `Settled`.
-/

namespace CachedWorkflow

/-- The document has jobs of these names, in order. -/
def HasJobs (document : Object) (names : List Text) : Prop :=
  ∃ jobs : Object, document.get? "jobs" = some (.object jobs) ∧ jobs.keys = names

/-- The documents of a library have no two jobs of one name. -/
def Library.HasDistinctJobs (library : Library) : Prop :=
  ∀ (path : Text) (document jobs : Object), library.load path = .ok (.object document) →
    document.get? "jobs" = some (.object jobs) → jobs.Distinct

/-- The name of a call site with a dash and as many more as given. -/
def dashed (site : Text) (more : Nat) : Text := site ++ List.replicate (more + 1) '-'

/-- No taken name begins with the text. -/
def IsFresh (taken : List Text) (lead : Text) : Prop := ∀ name ∈ taken, ¬ lead <+: name

/-- The names that stand for a job when call sites are replaced, given the names that are taken. -/
inductive StandsFor (library : Library) (file : Text) (taken : List Text) :
    Text × Json → List Text → Prop where
  /-- A job that calls nothing has its own name. -/
  | own {name : Text} {job : Object} : job.get? callProperty = none →
      StandsFor library file taken (name, .object job) [name]
  /-- For a call site there are the jobs of the expanded child, with the shortest fresh prefix. -/
  | site {name target : Text} {job child : Object} {names : List Text} {more : Nat} :
      job.get? callProperty = some (.string target) →
      expand library (calledPath file target) = .ok child → HasJobs child names →
      IsLeast {n | IsFresh taken (dashed name n)} more →
      StandsFor library file taken (name, .object job) (names.map (dashed name more ++ ·))

/-! ## Prefixes -/

theorem IsFresh.append_not_mem {taken : List Text} {lead : Text} (h : IsFresh taken lead)
    (name : Text) : lead ++ name ∉ taken := fun hmem =>
  h (lead ++ name) hmem (List.prefix_append lead name)

/-- The search for a prefix ends with the shortest one that is fresh. -/
theorem exists_isLeast_freshPrefix (taken : List Text) (site : Text) :
    ∃ more, freshPrefix taken site = dashed site more ∧
      IsLeast {n | IsFresh taken (dashed site n)} more := by
  have hdashed : ∀ m, (site ++ ['-']) ++ List.replicate m '-' = dashed site m := by
    intro m
    rw [dashed, List.append_assoc, List.replicate_succ, List.singleton_append]
  obtain ⟨more, hmore, hless⟩ :=
    exists_lengthen_eq taken ((taken.map List.length).foldl max 0 + 1) (site ++ ['-'])
  have heq : freshPrefix taken site = dashed site more := by rw [freshPrefix, hmore, hdashed]
  refine ⟨more, heq, fun name hname => ?_, fun n hfresh => ?_⟩
  · rw [← heq]
    exact not_freshPrefix_isPrefix hname
  · by_contra hlt
    obtain ⟨name, hname, hlead⟩ := hless n (Nat.lt_of_not_le hlt)
    rw [hdashed] at hlead
    exact hfresh name hname hlead

/-! ## Steps that keep names -/

section

variable {document : Object} {names : List Text}

theorem HasJobs.mapStrings {f : Text → Except Error (Option Json)} {value : Json}
    (h : HasJobs document names) (hmap : (Json.object document).mapStrings f = .ok value) :
    ∃ document', value = .object document' ∧ HasJobs document' names := by
  obtain ⟨jobs, hjobs, hkeys⟩ := h
  obtain ⟨document', rfl, hpass⟩ := Json.mapStrings_object hmap
  obtain ⟨value', hget, -, hvalue⟩ := Object.get?_forall₂ hpass (fun _ _ h => h.1) hjobs
  obtain ⟨jobs', rfl, hjobs'⟩ := Json.mapStrings_object hvalue
  exact ⟨document', rfl, jobs', hget, (MapsFields.keys hjobs').trans hkeys⟩

theorem HasJobs.substitute {binding : Binding} {value : Json} (h : HasJobs document names)
    (hsubstitute : binding.substitute (.object document) = .ok value) :
    ∃ document', value = .object document' ∧ HasJobs document' names :=
  Binding.substitute_object hsubstitute h (fun _ _ hnames hfirst => hnames.mapStrings hfirst)
    fun _ _ _ _ hnames hsecond => hnames.mapStrings hsecond

theorem prefixJob_fst {location lead : Text} {jobs : Object} {entry entry' : Text × Json}
    (h : prefixJob location lead jobs entry = .ok entry') : entry'.1 = lead ++ entry.1 := by
  obtain ⟨job, needs, -, -, rfl⟩ := prefixJob_eq_ok.mp h
  rfl

theorem childJob_fst {path : Text} {siteNeeds : List Text} {entry entry' : Text × Json}
    (h : childJob path siteNeeds entry = .ok entry') : entry'.1 = entry.1 := by
  obtain ⟨name, value⟩ := entry
  obtain ⟨job, -, h⟩ := bind_eq_ok.mp h
  by_cases hnone : siteNeeds.isEmpty = true
  · rw [if_pos hnone] at h
    cases h
    rfl
  · rw [if_neg hnone] at h
    obtain ⟨needs, -, h⟩ := bind_eq_ok.mp h
    split at h <;> (cases h; rfl)

theorem rewireJob_fst {sites : List CallSite} {entry entry' : Text × Json}
    (h : rewireJob sites entry = .ok entry') : entry'.1 = entry.1 := by
  obtain ⟨name, value⟩ := entry
  obtain ⟨job, -, h⟩ := bind_eq_ok.mp h
  obtain ⟨needs, -, h⟩ := bind_eq_ok.mp h
  obtain ⟨rewired, -, h⟩ := bind_eq_ok.mp h
  obtain ⟨changed, -, h⟩ := bind_eq_ok.mp h
  split at h <;> (cases h; rfl)

theorem keys_rewireJobs {sites : List CallSite} {jobs jobs' : Object}
    (h : rewireJobs sites jobs = .ok jobs') : jobs'.keys = jobs.keys := by
  unfold rewireJobs at h
  by_cases hempty : sites.isEmpty = true
  · rw [if_pos hempty] at h
    cases h
    rfl
  · rw [if_neg hempty] at h
    have hkeys := Object.keys_forall₂ (mapM_eq_ok.mp h) (k := id) fun _ _ => rewireJob_fst
    rwa [List.map_id] at hkeys

theorem HasJobs.addPrefix {lead path : Text} {document' : Object} (h : HasJobs document names)
    (hadd : CachedWorkflow.addPrefix lead path document = .ok document') :
    HasJobs document' (names.map (lead ++ ·)) := by
  obtain ⟨jobs, hjobs, rfl⟩ := h
  obtain ⟨jobs', prefixed, hget, hprefixed, hrenamed⟩ := addPrefix_eq_ok.mp hadd
  obtain rfl := Json.object.inj (Option.some.inj (hjobs.symm.trans hget))
  have hkeys := Object.keys_forall₂ hprefixed fun _ _ => prefixJob_fst
  have hhalf : HasJobs (document.insert "jobs" (.object prefixed)) (Object.keys jobs |>.map (lead ++ ·)) :=
    ⟨prefixed, Object.get?_insert_self document "jobs" _, hkeys⟩
  obtain ⟨fields, hfields, hjobs'⟩ := hhalf.mapStrings hrenamed
  obtain rfl := Json.object.inj hfields
  exact hjobs'

/-- The jobs in the place of a call site are those of its child with the prefix. -/
theorem keys_of_instantiate {name location path : Text} {taken : List Text} {job child spliced : Object}
    {site : CallSite} (hchild : HasJobs child names)
    (h : instantiate name location path taken job child = .ok (spliced, site)) :
    spliced.keys = names.map (freshPrefix taken name ++ ·) := by
  obtain ⟨renamed, inputs, bound, jobs, needs, hrenamed, -, hvalue, hjobs, -, hresult, -⟩ :=
    instantiate_stages h
  obtain ⟨bound', heq, jobs', hjobs', hnames⟩ := (hchild.addPrefix hrenamed).substitute hvalue
  obtain rfl := Json.object.inj heq
  obtain rfl := Json.object.inj (Option.some.inj (hjobs.symm.trans hjobs'))
  have hkeys := Object.keys_forall₂ (mapM_eq_ok.mp hresult) (k := id) fun _ _ => childJob_fst
  rw [hkeys, List.map_id, hnames]

end

/-! ## The pass over the jobs -/

/-- What is known of the jobs that have been placed: their names are those that stand for the jobs seen
so far, in order and all distinct, and the names of the document among them have been seen. -/
structure Settled (library : Library) (file : Text) (declared : List Text) (seen : Object)
    (block : Text → List Text) (placed : Object) : Prop where
  keys : placed.keys = seen.keys.flatMap block
  distinct : placed.Distinct
  standsFor : ∀ (before : Object) entry after, seen = before ++ entry :: after →
    StandsFor library file (declared ++ before.keys.flatMap block) entry (block entry.1)
  seen_of_declared : ∀ name ∈ placed.keys, name ∈ declared → name ∈ seen.keys

section

variable {library : Library} {file name : Text} {declared : List Text} {seen placed placed' : Object}
  {block : Text → List Text}

theorem Settled.nil : Settled library file declared [] block [] :=
  ⟨rfl, List.nodup_nil, by simp, by simp [Object.keys]⟩

/-- The next job adds the names that stand for it. -/
theorem Settled.push (h : Settled library file declared seen block placed) {value : Json}
    {names : List Text} (hnew : name ∉ seen.keys)
    (hstands : StandsFor library file (declared ++ placed.keys) (name, value) names)
    (hkeys : placed'.keys = placed.keys ++ names) (hdistinct : placed'.Distinct)
    (hdeclared : ∀ n ∈ names, n ∈ declared → n = name) :
    ∃ block', Settled library file declared (seen ++ [(name, value)]) block' placed' := by
  let block' : Text → List Text := Function.update block name names
  have hname : block' name = names := Function.update_self name names block
  have hsame : ∀ entries : Object, entries.keys ⊆ seen.keys →
      entries.keys.flatMap block' = entries.keys.flatMap block := fun entries hsub =>
    List.flatMap_congr fun n hn =>
      Function.update_of_ne (fun heq : n = name => hnew (heq ▸ hsub hn)) names block
  have hseen : (seen ++ [(name, value)]).keys = seen.keys ++ [name] := Object.keys_append _ _
  refine ⟨block', ?_, hdistinct, fun before entry after hsplit => ?_, fun n hn hmem => ?_⟩
  · rw [hkeys, h.keys, hseen, List.flatMap_append, List.flatMap_singleton, hname,
      hsame seen (List.Subset.refl _)]
  · rcases List.eq_nil_or_concat after with rfl | ⟨after, last, rfl⟩
    · obtain ⟨rfl, hentry⟩ := List.append_inj' hsplit rfl
      obtain rfl := (List.cons.inj hentry).1
      rw [hname, hsame seen (List.Subset.refl _), ← h.keys]
      exact hstands
    · have hsplit' : seen ++ [(name, value)] = (before ++ entry :: after) ++ [last] := by
        rw [hsplit, List.concat_eq_append, List.append_assoc, List.cons_append]
      obtain ⟨hbefore, -⟩ := List.append_inj' hsplit' rfl
      have hsub : before.keys ⊆ seen.keys := by
        rw [hbefore, Object.keys_append]
        exact List.subset_append_left _ _
      have hentry : entry.1 ∈ seen.keys := by
        rw [hbefore, Object.keys_append]
        exact List.mem_append_right _ List.mem_cons_self
      have hblock : block' entry.1 = block entry.1 :=
        Function.update_of_ne (fun heq : entry.1 = name => hnew (heq ▸ hentry)) names block
      rw [hsame before hsub, hblock]
      exact h.standsFor before entry after hbefore
  · rw [hseen]
    rw [hkeys] at hn
    rcases List.mem_append.mp hn with hn | hn
    · exact List.mem_append_left _ (h.seen_of_declared n hn hmem)
    · exact List.mem_append_right _ (List.mem_singleton.mpr (hdeclared n hn hmem))

/-- A job that calls nothing does not meet a job of its name. -/
theorem Settled.push_own (h : Settled library file declared seen block placed) {job : Object}
    (hnew : name ∉ seen.keys) (hmem : name ∈ declared) (hcall : job.get? callProperty = none) :
    ∃ block', Settled library file declared (seen ++ [(name, .object job)]) block'
      (placed.insert name (.object job)) := by
  have hfree : name ∉ placed.keys := fun hplaced => hnew (h.seen_of_declared name hplaced hmem)
  refine h.push hnew (.own hcall) ?_ (h.distinct.insert name _) fun n hn _ => List.mem_singleton.mp hn
  rw [Object.insert_of_not_mem hfree, Object.keys_append]
  rfl

/-- The jobs of a child meet no jobs of their names. -/
theorem Settled.push_site (h : Settled library file declared seen block placed)
    {job child spliced : Object} {target : Text} {names : List Text} (hnew : name ∉ seen.keys)
    (hcall : job.get? callProperty = some (.string target))
    (hexpand : expand library (calledPath file target) = .ok child) (hchild : HasJobs child names)
    (hnames : names.Nodup)
    (hspliced : spliced.keys = names.map (freshPrefix (declared ++ placed.keys) name ++ ·)) :
    ∃ block', Settled library file declared (seen ++ [(name, .object job)]) block'
      (placed.insertAll spliced) := by
  obtain ⟨more, hlead, hleast⟩ := exists_isLeast_freshPrefix (declared ++ placed.keys) name
  rw [hlead] at hspliced
  have hfresh : ∀ n ∈ names.map (dashed name more ++ ·), n ∉ declared ++ placed.keys := by
    intro n hn
    obtain ⟨job', -, rfl⟩ := List.mem_map.mp hn
    exact IsFresh.append_not_mem hleast.1 job'
  have hdistinct : Object.Distinct spliced := by
    rw [Object.Distinct, hspliced]
    exact hnames.map fun a b hab => List.append_cancel_left hab
  have hother : ∀ key ∈ Object.keys spliced, key ∉ placed.keys := by
    intro key hkey hplaced
    rw [hspliced] at hkey
    exact hfresh key hkey (List.mem_append_right _ hplaced)
  have hinsert := Object.insertAll_eq_append hdistinct hother
  refine h.push hnew (.site hcall hexpand hchild hleast) ?_ ?_ fun n hn hmem => ?_
  · rw [hinsert, Object.keys_append, hspliced]
  · rw [hinsert, Object.Distinct, Object.keys_append]
    refine List.nodup_append.mpr ⟨h.distinct, hdistinct, ?_⟩
    rintro key hkey _ hkey' rfl
    exact hother key hkey' hkey
  · exact absurd (List.mem_append_left _ hmem) (hfresh n hn)

/-- Children are expanded as on their own, and no two of their jobs have one name. -/
def ExpandsApart (library : Library) (f : Text → Except Error Object) : Prop :=
  ∀ path child, f path = .ok child → expand library path = .ok child ∧
    ∃ names, HasJobs child names ∧ names.Nodup

theorem Settled.step {f : Text → Except Error Object} {jobs : Object} {before after : Placed}
    {value : Json} (h : Settled library file jobs.keys seen block before.jobs)
    (hf : ExpandsApart library f) (hnew : name ∉ seen.keys) (hmem : name ∈ jobs.keys)
    (hstep : placeJob file jobs f before (name, value) = .ok after) :
    ∃ block', Settled library file jobs.keys (seen ++ [(name, value)]) block' after.jobs := by
  cases placeJob_eq_ok.mp hstep with
  | own hcall => exact h.push_own hnew hmem hcall
  | site hcall hchild hinstance =>
    obtain ⟨hexpand, names, hnames, hnodup⟩ := hf _ _ hchild
    exact h.push_site hnew hcall hexpand hnames hnodup (keys_of_instantiate hnames hinstance)

theorem exists_settled {f : Text → Except Error Object} {jobs : Object} {placed : Placed}
    (hf : ExpandsApart library f) (hd : jobs.Distinct)
    (h : jobs.foldlM (placeJob file jobs f) {} = .ok placed) :
    ∃ block, Settled library file jobs.keys jobs block placed.jobs := by
  refine foldlM_induction (motive := fun seen placed =>
    ∃ block, Settled library file jobs.keys seen block placed.jobs) h ⟨fun _ => [], .nil⟩ ?_
  rintro seen ⟨name, value⟩ rest before after hsplit ⟨block, hsettled⟩ hstep
  have hkeys : jobs.keys = Object.keys seen ++ name :: Object.keys rest := by
    rw [hsplit, Object.keys_append]
    rfl
  have hnew : name ∉ Object.keys seen := by
    have hnodup : (Object.keys seen ++ name :: Object.keys rest).Nodup := hkeys ▸ hd
    exact fun hmem => (List.nodup_append.mp hnodup).2.2 name hmem name List.mem_cons_self rfl
  have hmem : name ∈ jobs.keys := hkeys ▸ List.mem_append_right _ List.mem_cons_self
  exact hsettled.step hf hnew hmem hstep

end

/-! ## The whole document -/

/-- How the names of an expanded document are laid out: one block for each job of the document, in
order. -/
structure Layout (library : Library) (file : Text) (jobs : Object) (block : Text → List Text) :
    Prop where
  standsFor : ∀ (before : Object) entry after, jobs = before ++ entry :: after →
    StandsFor library file (jobs.keys ++ before.keys.flatMap block) entry (block entry.1)
  nodup : (jobs.keys.flatMap block).Nodup

section

variable {library : Library} {file : Text}

/-- No job in the place of a call site has the name of a job of the document. -/
theorem Layout.not_mem_keys {jobs : Object} {block : Text → List Text}
    (h : Layout library file jobs block) {site : Text} (hsite : site ∈ siteNames jobs) :
    ∀ name ∈ block site, name ∉ jobs.keys := by
  obtain ⟨⟨site, value⟩, hentry, rfl⟩ := List.mem_map.mp hsite
  obtain ⟨hmem, hcall⟩ := List.mem_filter.mp hentry
  obtain ⟨before, after, hsplit⟩ := List.append_of_mem hmem
  have hstands := h.standsFor before (site, value) after hsplit
  generalize block site = names at hstands
  intro name hname hjob
  cases hstands with
  | own hnone => simp [Json.member?, Json.object?, hnone] at hcall
  | site _ _ _ hleast =>
    obtain ⟨job, -, rfl⟩ := List.mem_map.mp hname
    exact IsFresh.append_not_mem hleast.1 job (List.mem_append_left _ hjob)

theorem exists_layout_of_expandDocument {f : Text → Except Error Object} {document : Json}
    {result : Object} (hf : ExpandsApart library f)
    (hd : ∀ fields jobs : Object, document = .object fields →
      fields.get? "jobs" = some (.object jobs) → jobs.Distinct)
    (h : expandDocument file f document = .ok result) :
    ∃ (fields jobs : Object) (block : Text → List Text), document = .object fields ∧
      fields.get? "jobs" = some (.object jobs) ∧ HasJobs result (jobs.keys.flatMap block) ∧
      Layout library file jobs block := by
  obtain ⟨fields, jobs, placed, rewired, rfl, hjobs, hplaced, hrewired, hresult⟩ :=
    expandDocument_stages h
  obtain ⟨block, hsettled⟩ := exists_settled hf (hd fields jobs rfl hjobs) hplaced
  have hkeys : rewired.keys = jobs.keys.flatMap block :=
    (keys_rewireJobs hrewired).trans hsettled.keys
  have hplacedJobs : HasJobs (fields.insert "jobs" (.object rewired)) (jobs.keys.flatMap block) :=
    ⟨rewired, Object.get?_insert_self fields "jobs" _, hkeys⟩
  obtain ⟨result', heq, hnames⟩ := hplacedJobs.substitute hresult
  obtain rfl := Json.object.inj heq
  refine ⟨fields, jobs, block, rfl, hjobs, hnames, hsettled.standsFor, ?_⟩
  rw [← hsettled.keys]
  exact hsettled.distinct

/-- The layout of every document that is expanded, by the recursion of expansion. -/
theorem exists_layout (hlibrary : library.HasDistinctJobs) {opened : List Text} {result : Object}
    (h : expandFrom library opened file = .ok result) :
    ∃ (document jobs : Object) (block : Text → List Text),
      library.load file = .ok (.object document) ∧
      document.get? "jobs" = some (.object jobs) ∧ HasJobs result (jobs.keys.flatMap block) ∧
      Layout library file jobs block := by
  induction opened, file using expandFrom.induct library generalizing result with
  | case1 opened file name => exact absurd ‹name ∈ opened› (expandFrom_eq_ok.mp h).1
  | case2 opened file name _ error =>
    rename_i hload
    obtain ⟨-, document, hdocument, -⟩ := expandFrom_eq_ok.mp h
    rw [hload] at hdocument
    cases hdocument
  | case3 opened file name _ document hload =>
    rename_i ih
    obtain ⟨-, document', hdocument, hexpand⟩ := expandFrom_eq_ok.mp h
    obtain rfl : document = document' := Except.ok.inj (hload.symm.trans hdocument)
    have hapart : ExpandsApart library (expandFrom library (opened ++ [Path.normalize file])) := by
      intro path child hchild
      obtain ⟨-, jobs, block, -, -, hnames, hlayout⟩ := ih path hchild
      exact ⟨expandFrom_of_subset (List.nil_subset _) hchild, _, hnames, hlayout.nodup⟩
    have hdistinct : ∀ fields jobs : Object, document = .object fields →
        fields.get? "jobs" = some (.object jobs) → jobs.Distinct := by
      rintro fields jobs rfl hjobs
      exact hlibrary file fields jobs hload hjobs
    obtain ⟨fields, jobs, block, rfl, hlayout⟩ :=
      exists_layout_of_expandDocument hapart hdistinct hexpand
    exact ⟨fields, jobs, block, hload, hlayout⟩

/-- The names of an expanded document are all distinct, and they are, in the order of the document, for
a job that calls nothing its own name, and for a call site the names of the expanded child with a
prefix: the name of the call site and the fewest dashes, one at least, with which it begins no name of
the document and no name that stands for an earlier job. No job in the place of a call site has the name
of a job of the document, and the search for the prefix always ends. -/
theorem expand_names (hlibrary : library.HasDistinctJobs) {result : Object}
    (h : expand library file = .ok result) :
    ∃ (document jobs : Object) (block : Text → List Text),
      library.load file = .ok (.object document) ∧
      document.get? "jobs" = some (.object jobs) ∧ HasJobs result (jobs.keys.flatMap block) ∧
      (jobs.keys.flatMap block).Nodup ∧
      (∀ (before : Object) entry after, jobs = before ++ entry :: after →
        StandsFor library file (jobs.keys ++ before.keys.flatMap block) entry (block entry.1)) ∧
      (∀ site ∈ siteNames jobs, ∀ name ∈ block site, name ∉ jobs.keys) ∧
      ∀ taken site, ∃ more, freshPrefix taken site = dashed site more ∧
        IsLeast {n | IsFresh taken (dashed site n)} more := by
  obtain ⟨document, jobs, block, hload, hjobs, hnames, hlayout⟩ := exists_layout hlibrary h
  exact ⟨document, jobs, block, hload, hjobs, hnames, hlayout.nodup, hlayout.standsFor,
    fun site hsite => hlayout.not_mem_keys hsite, exists_isLeast_freshPrefix⟩

end

/-- The jobs of a document that calls another one twice, once from a job whose name with a dash begins
the name of another job. -/
def twiceJobs : Object := [
  ("a", .object [(callProperty, .string "child")]),
  ("a-b", .object []),
  ("c", .object [(callProperty, .string "child")])]

/-- This document and the one that it calls. -/
def twiceDocuments : List (Text × Json) := [
  ("main", .object [("jobs", .object twiceJobs)]),
  ("child", .object [("jobs", .object [("k", .object []), ("l", .object [])])])]

/-- What they are expanded to. -/
def twiceResult : Object := [
  ("jobs", .object [("a--k", .object []), ("a--l", .object []), ("a-b", .object []),
    ("c-k", .object []), ("c-l", .object [])])]

theorem hasDistinctJobs_twice : (Library.ofDocuments twiceDocuments []).HasDistinctJobs := by
  intro path document jobs hload hjobs
  obtain ⟨key, hmem, -⟩ := exists_mem_of_load_ofDocuments hload
  simp only [twiceDocuments, List.mem_cons, List.not_mem_nil, or_false, Prod.mk.injEq,
    Json.object.injEq] at hmem
  rcases hmem with ⟨-, rfl⟩ | ⟨-, rfl⟩ <;> (cases hjobs; decide +kernel)

theorem expand_names_twice :
    ∃ (block : Text → List Text), expand (.ofDocuments twiceDocuments []) "main" = .ok twiceResult ∧
      HasJobs twiceResult (Object.keys twiceJobs |>.flatMap block) ∧
      (∀ site ∈ siteNames twiceJobs, ∀ name ∈ block site, name ∉ Object.keys twiceJobs) ∧
      StandsFor (.ofDocuments twiceDocuments []) "main" (Object.keys twiceJobs)
        ("a", .object [(callProperty, .string "child")]) (block "a") := by
  have hexpand : expand (.ofDocuments twiceDocuments []) "main" = .ok twiceResult := by
    rw [← expandWithin_eq_expand (namesAre_ofDocuments twiceDocuments)
      (fun path => .error (.unparsable path)) "main"]
    decide +kernel
  obtain ⟨document, jobs, block, hload, hjobs, hnames, -, hstands, hsites, -⟩ :=
    expand_names hasDistinctJobs_twice hexpand
  cases hload
  cases hjobs
  exact ⟨block, hexpand, hnames, hsites, hstands [] _ _ rfl⟩

end CachedWorkflow
