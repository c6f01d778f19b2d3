import CachedWorkflow.Proofs.Pipeline.Needs

/-!
# Proofs: call sites

Two of the steps that put a child in the place of its call site, by what they do to the graph of
needs: all names get a prefix (`addPrefix_isWired`), and who needs a call site needs the jobs in its
place (`hasWiring_rewireJobs`). The prefix begins no name that is taken (`not_freshPrefix_isPrefix`).
-/

namespace CachedWorkflow

open Renaming Template

/-! ## The prefix -/

/-- Dashes are added as long as some taken name begins with the text. -/
theorem exists_lengthen_eq (taken : List Text) (steps : Nat) (lead : Text) :
    ∃ n, lengthen taken steps lead = lead ++ List.replicate n '-' ∧
      ∀ m < n, ∃ name ∈ taken, lead ++ List.replicate m '-' <+: name := by
  induction steps generalizing lead with
  | zero => exact ⟨0, (List.append_nil lead).symm, by simp⟩
  | succ steps ih =>
    rw [lengthen]
    by_cases htaken : taken.any lead.isPrefixOf = true
    · rw [if_pos htaken]
      obtain ⟨n, hn, hless⟩ := ih (lead ++ ['-'])
      refine ⟨n + 1, ?_, fun m hm => ?_⟩
      · rw [hn, List.append_assoc, List.replicate_succ, List.singleton_append]
      · cases m with
        | zero =>
          obtain ⟨name, hname, hlead⟩ := List.any_eq_true.mp htaken
          rw [List.replicate_zero, List.append_nil]
          exact ⟨name, hname, List.isPrefixOf_iff_prefix.mp hlead⟩
        | succ m =>
          obtain ⟨name, hname, hlead⟩ := hless m (by omega)
          rw [List.append_assoc, List.singleton_append, ← List.replicate_succ] at hlead
          exact ⟨name, hname, hlead⟩
    · rw [if_neg htaken]
      exact ⟨0, (List.append_nil lead).symm, by simp⟩

/-- The prefix of a call site is its name with dashes, one at least. -/
theorem exists_freshPrefix_eq (taken : List Text) (site : Text) :
    ∃ n, freshPrefix taken site = site ++ List.replicate (n + 1) '-' := by
  obtain ⟨n, hn, -⟩ :=
    exists_lengthen_eq taken ((taken.map List.length).foldl max 0 + 1) (site ++ ['-'])
  refine ⟨n, ?_⟩
  rw [freshPrefix, hn, List.append_assoc, List.replicate_succ, List.singleton_append]

theorem lengthen_not_prefix {taken : List Text} {steps : Nat} {lead : Text}
    (h : ∀ name ∈ taken, name.length < lead.length + steps) :
    ∀ name ∈ taken, ¬ lengthen taken steps lead <+: name := by
  induction steps generalizing lead with
  | zero =>
    intro name hname hlead
    have hlength := hlead.length_le
    have hshort := h name hname
    rw [lengthen] at hlength
    omega
  | succ steps ih =>
    rw [lengthen]
    by_cases htaken : taken.any lead.isPrefixOf = true
    · rw [if_pos htaken]
      refine ih fun name hname => ?_
      have hshort := h name hname
      rw [List.length_append, List.length_singleton]
      omega
    · rw [if_neg htaken]
      intro name hname hlead
      exact htaken (List.any_eq_true.mpr ⟨name, hname, List.isPrefixOf_iff_prefix.mpr hlead⟩)

theorem le_foldl_max {lengths : List Nat} {n : Nat} (init : Nat) (h : n ≤ init ∨ n ∈ lengths) :
    n ≤ lengths.foldl max init := by
  induction lengths generalizing init with
  | nil => exact h.resolve_right List.not_mem_nil
  | cons m rest ih =>
    refine ih (max init m) ?_
    rcases h with h | h
    · exact .inl (le_trans h (le_max_left init m))
    · rcases List.mem_cons.mp h with rfl | h
      · exact .inl (le_max_right init n)
      · exact .inr h

/-- No taken name begins with the prefix. -/
theorem not_freshPrefix_isPrefix {taken : List Text} {site name : Text} (h : name ∈ taken) :
    ¬ freshPrefix taken site <+: name := by
  unfold freshPrefix
  refine lengthen_not_prefix (fun other hother => ?_) name h
  have hlength := le_foldl_max 0 (.inr (List.mem_map_of_mem (f := List.length) hother))
  omega

/-! ## Jobs with a prefix -/

theorem mem_prefixRenaming {lead : Text} {jobs : List Text} {pair : Text × Text} :
    pair ∈ prefixRenaming lead jobs ↔ ∃ job ∈ jobs, ∃ context ∈ contexts,
      pair = (context ++ "." ++ job, context ++ "." ++ lead ++ job) := by
  unfold prefixRenaming
  rw [List.mem_flatMap]
  constructor
  · rintro ⟨job, hjob, hpair⟩
    obtain ⟨context, hcontext, rfl⟩ := List.mem_map.mp hpair
    exact ⟨job, hjob, context, hcontext, rfl⟩
  · rintro ⟨job, hjob, context, hcontext, rfl⟩
    exact ⟨job, hjob, List.mem_map.mpr ⟨context, hcontext, rfl⟩⟩

theorem head?_of_mem_prefixRenaming {lead : Text} {jobs : List Text} :
    ∀ pair ∈ prefixRenaming lead jobs, ∀ c ∈ pair.1.head?, isIdentifierChar c = true := by
  intro pair hpair c hc
  obtain ⟨job, -, context, hcontext, rfl⟩ := mem_prefixRenaming.mp hpair
  rcases context_cases hcontext with rfl | rfl <;> (cases hc; decide)

/-- Of the renamed references only that to a job itself begins a reference to the job. -/
theorem eq_of_occursAt_jobReference {lead job : Text} {jobs : List Text}
    (hjobs : ∀ name ∈ jobs, IsName name) (hjob : IsName job) {pair : Text × Text}
    (hpair : pair ∈ prefixRenaming lead jobs)
    (hoccurs : occursAt pair.1 (jobReference job ++ [' ']) = true) :
    pair = (jobReference job, jobReference (lead ++ job)) := by
  obtain ⟨other, hother, context, hcontext, rfl⟩ := mem_prefixRenaming.mp hpair
  obtain ⟨-, rest, hsplit, hrest⟩ := occursAt_iff.mp hoccurs
  rcases context_cases hcontext with rfl | rfl
  · have hhead : 'j' = 'n' := (List.cons.inj hsplit).1
    exact absurd hhead (by decide)
  · have hafter : job ++ [' '] = other ++ rest := by
      have hlead : ("jobs." : Text) ++ (job ++ [' ']) = "jobs." ++ (other ++ rest) := by
        unfold jobReference at hsplit
        simpa using hsplit
      exact List.append_cancel_left hlead
    obtain ⟨rfl, -⟩ := run_append_inj hjob.chars (hjobs other hother).chars (by decide)
      (fun c hc => isJobIdChar_eq_false (hrest c hc)) hafter
    exact Prod.ext rfl (List.append_assoc _ _ _)

/-- A reference to a job of the document gets the prefix. -/
theorem apply_prefixRenaming {lead job : Text} {jobs : List Text}
    (hjobs : ∀ name ∈ jobs, IsName name) (hjob : job ∈ jobs) :
    (prefixRenaming lead jobs).applyToTemplate (placeholder (jobReference job))
      = .ok (placeholder (jobReference (lead ++ job))) := by
  have hname := hjobs job hjob
  have hblank : ∀ c ∈ [' '], isWhiteSpace c = true := by decide
  have hoccurs : occursAt (jobReference job) (jobReference job ++ [' ']) = true :=
    occursAt_iff.mpr ⟨by simp [jobReference], [' '], rfl, by decide⟩
  have hmem : ∃ pair ∈ prefixRenaming lead jobs, pair.1 = jobReference job :=
    ⟨_, mem_prefixRenaming.mpr ⟨job, hjob, "jobs", by decide, rfl⟩, rfl⟩
  obtain ⟨new, hnew, hlongest⟩ := longest?_eq_of_mem hmem hoccurs fun pair hpair hpairoccurs => by
    rw [eq_of_occursAt_jobReference hjobs hname hpair hpairoccurs]
  have hpair := eq_of_occursAt_jobReference hjobs hname hnew hoccurs
  obtain rfl : new = jobReference (lead ++ job) := (Prod.mk.inj hpair).2
  rw [applyToTemplate_placeholder (scan_jobReference hname),
    apply_reference hblank hblank head?_of_mem_prefixRenaming (joinsNext_jobReference hname) hlongest,
    placeholder_eq (jobReference (lead ++ job))]

/-- The graph with a prefix before all names. -/
def Wiring.prefixed (lead : Text) (w : Wiring) : Wiring :=
  w.map fun node => (lead ++ node.1, node.2.map (lead ++ ·))

/-- A need between the two steps of the prefix: plain names have it, references do not. -/
structure HalfPrefixed (lead need job : Text) : Prop where
  isName : IsName job
  plain_or_reference : need = lead ++ job ∨ need = placeholder (jobReference job)

/-- A need with the prefix, if it is plain. -/
def prefixedPlain (lead : Text) (jobs : Object) (need : Text) : Text :=
  if jobs.contains need then lead ++ need else need

/-- The first step puts the prefix before the name of a job and before its plain needs. -/
theorem prefixJob_eq_ok {location lead : Text} {jobs : Object} {entry entry' : Text × Json} :
    prefixJob location lead jobs entry = .ok entry' ↔ ∃ job needs, entry.2 = .object job ∧
      readNeeds job [] = .ok needs ∧
      entry' = (lead ++ entry.1, .object (relisted (prefixedPlain lead jobs) needs job)) := by
  obtain ⟨name, value⟩ := entry
  have heq : prefixJob location lead jobs (name, value) = (do
      let job ← value.asObject (location ++ "." ++ name)
      let job ← relistNeeds (prefixedPlain lead jobs) (location ++ "." ++ name) job
      .ok (lead ++ name, .object job)) := by
    rw [prefixJob]
    refine congrArg _ (funext fun job => ?_)
    unfold relistNeeds
    by_cases hneeds : job.contains "needs" = true
    · rw [if_pos hneeds, if_pos hneeds]
      cases readNeeds job (location ++ "." ++ name) <;> rfl
    · rw [if_neg hneeds, if_neg hneeds]
  rw [heq]
  constructor
  · intro h
    obtain ⟨job, hjob, h⟩ := bind_eq_ok.mp h
    obtain ⟨job', hrelisted, h⟩ := bind_eq_ok.mp h
    obtain ⟨needs, hread, rfl⟩ := relistNeeds_eq_ok.mp hrelisted
    exact ⟨job, needs, Json.asObject_eq_ok.mp hjob, hread, (Except.ok.inj h).symm⟩
  · rintro ⟨job, needs, rfl, hread, rfl⟩
    exact bind_eq_ok.mpr ⟨job, rfl, bind_eq_ok.mpr ⟨_, relistNeeds_eq_ok.mpr ⟨needs, hread, rfl⟩, rfl⟩⟩

/-- The prefix is put before the jobs, and then into the references. -/
theorem addPrefix_eq_ok {lead path : Text} {document document' : Object} :
    addPrefix lead path document = .ok document' ↔ ∃ jobs prefixed : Object,
      document.get? "jobs" = some (.object jobs) ∧
      List.Forall₂ (fun entry entry' => prefixJob (path ++ ":jobs") lead jobs entry = .ok entry') jobs prefixed ∧
      (prefixRenaming lead jobs.keys).applyToValue (.object (document.insert "jobs" (.object prefixed)))
        = .ok (.object document') := by
  unfold addPrefix
  constructor
  · intro h
    obtain ⟨value, hget, h⟩ := bind_eq_ok.mp h
    obtain ⟨jobs, hjobs, h⟩ := bind_eq_ok.mp h
    obtain ⟨prefixed, hprefixed, h⟩ := bind_eq_ok.mp h
    obtain ⟨renamed, hrenamed, hresult⟩ := bind_eq_ok.mp h
    obtain rfl := Json.asObject_eq_ok.mp hjobs
    obtain rfl := Json.asObject_eq_ok.mp hresult
    exact ⟨jobs, prefixed, Object.require_eq_ok.mp hget, mapM_eq_ok.mp hprefixed, hrenamed⟩
  · rintro ⟨jobs, prefixed, hget, hprefixed, hrenamed⟩
    exact bind_eq_ok.mpr ⟨_, Object.require_eq_ok.mpr hget, bind_eq_ok.mpr ⟨jobs, rfl,
      bind_eq_ok.mpr ⟨prefixed, mapM_eq_ok.mpr hprefixed, bind_eq_ok.mpr ⟨_, hrenamed, rfl⟩⟩⟩⟩

/-- After the first step the needs are half prefixed. -/
theorem halfPrefixed_needs {lead : Text} {jobs : Object} (hjobs : ∀ name ∈ jobs.keys, IsName name)
    {needs needed : List Text} (hneeded : ∀ job ∈ needed, job ∈ jobs.keys)
    (hnames : List.Forall₂ NamesJob needs needed) :
    List.Forall₂ (HalfPrefixed lead) (needs.map (prefixedPlain lead jobs)) needed := by
  induction hnames with
  | nil => exact .nil
  | @cons need job needs needed hnamed _ ih =>
    have hrest := ih fun other hother => hneeded other (List.mem_cons_of_mem job hother)
    refine .cons ⟨hnamed.isName, ?_⟩ hrest
    unfold prefixedPlain
    rcases hnamed.plain_or_reference with rfl | rfl
    · have hmem := hneeded need List.mem_cons_self
      exact .inl (if_pos (Object.contains_iff.mpr hmem))
    · -- a placeholder is not a name
      have hnot : ¬ jobs.contains (placeholder (jobReference job)) = true := by
        rw [Object.contains_iff]
        intro hmem
        have hdollar := (hjobs _ hmem).chars '$' (by rw [placeholder_eq]; exact List.mem_cons_self)
        cases hdollar
      exact .inr (if_neg hnot)

/-- The second step puts the prefix into the references. -/
theorem needsJobs_of_halfPrefixed {lead : Text} {jobs : List Text}
    (hjobs : ∀ name ∈ jobs, IsName name) (hlead : ∀ c ∈ lead, isJobIdChar c = true)
    {fields : Object} {needs needed : List Text} (hneeds : readNeeds fields [] = .ok needs)
    (hhalf : List.Forall₂ (HalfPrefixed lead) needs needed) (hneeded : ∀ job ∈ needed, job ∈ jobs)
    {value : Json} (hmap : (prefixRenaming lead jobs).applyToValue (.object fields) = .ok value) :
    NeedsJobs value (needed.map (lead ++ ·)) := by
  obtain ⟨fields', rfl, hpass⟩ := Json.mapStrings_object hmap
  have hresults : ∃ needs', List.Forall₂ (fun need need' => Json.leafResult
        (fun t => ((prefixRenaming lead jobs).applyToTemplate t).map fun new => some (.string new)) need
          = .ok (.string need')) needs needs' ∧
      List.Forall₂ NamesJob needs' (needed.map (lead ++ ·)) := by
    clear hneeds
    induction hhalf with
    | nil => exact ⟨[], .nil, .nil⟩
    | @cons need job needs needed hneed _ ih =>
      obtain ⟨needs', hresults, hnames⟩ :=
        ih fun other hother => hneeded other (List.mem_cons_of_mem job hother)
      have hname := isName_append hlead hneed.isName
      rcases hneed.plain_or_reference with rfl | rfl
      · have hsame : (prefixRenaming lead jobs).applyToTemplate (lead ++ job) = .ok (lead ++ job) :=
          applyToTemplate_of_hasOpening_eq_false (hasOpening_name hname.chars)
        exact ⟨_, .cons (Binding.leafResult_renaming.mpr hsame) hresults,
          .cons ⟨hname, .inl rfl⟩ hnames⟩
      · have hrenamed := @apply_prefixRenaming lead job jobs hjobs (hneeded job List.mem_cons_self)
        exact ⟨_, .cons (Binding.leafResult_renaming.mpr hrenamed) hresults,
          .cons ⟨hname, .inr rfl⟩ hnames⟩
  obtain ⟨needs', hresults, hnames⟩ := hresults
  exact ⟨fields', needs', rfl, MapsFields.readNeeds hpass hneeds hresults, hnames⟩

/-- Both steps for a list of jobs. -/
theorem hasWiring_prefixed {location lead : Text} {jobs : Object}
    (hjobs : ∀ name ∈ jobs.keys, IsName name) (hlead : ∀ c ∈ lead, isJobIdChar c = true)
    {entries halfway result : Object} {w : Wiring} (hw : HasWiring entries w)
    (hneeded : ∀ node ∈ w, ∀ job ∈ node.2, job ∈ jobs.keys)
    (hfirst : List.Forall₂ (fun entry entry' => prefixJob location lead jobs entry = .ok entry')
      entries halfway)
    (hsecond : MapsFields (fun text => ((prefixRenaming lead jobs.keys).applyToTemplate text).map
      fun new => some (.string new)) halfway result) : HasWiring result (w.prefixed lead) := by
  unfold HasWiring at hw ⊢
  unfold MapsFields at hsecond
  induction hfirst generalizing w result with
  | nil =>
    cases hw
    cases hsecond
    exact .nil
  | cons hentry _ ih =>
    obtain ⟨node, rest, ⟨hname, hneeds⟩, hrest, rfl⟩ := List.forall₂_cons_left_iff.mp hw
    obtain ⟨entry', result', ⟨hname', hmap⟩, hresult', rfl⟩ := List.forall₂_cons_left_iff.mp hsecond
    obtain ⟨hnode, hnodes⟩ := List.forall_mem_cons.mp hneeded
    obtain ⟨fields, needs, hfields, hread, rfl⟩ := prefixJob_eq_ok.mp hentry
    obtain ⟨fields', needs', hfields', hread', hnamed⟩ := hneeds
    obtain rfl := Json.object.inj (hfields.symm.trans hfields')
    obtain rfl := Except.ok.inj (hread.symm.trans hread')
    have hhalf := @halfPrefixed_needs lead _ hjobs _ _ hnode hnamed
    refine .cons ⟨?_, ?_⟩ (ih hrest hnodes hresult')
    · show entry'.1 = lead ++ node.1
      rw [hname', hname]
    · exact needsJobs_of_halfPrefixed hjobs hlead (readNeeds_relisted hread) hhalf hnode hmap

/-- A prefix for the jobs of a document is one for the names of its graph. -/
theorem addPrefix_isWired {lead path : Text} {document document' : Object} {w : Wiring}
    (hw : IsWired document w) (hsound : w.Sound) (hlead : ∀ c ∈ lead, isJobIdChar c = true)
    (h : addPrefix lead path document = .ok document') : IsWired document' (w.prefixed lead) := by
  obtain ⟨jobs, hjobs, hwiring⟩ := hw
  obtain ⟨jobs', halfway, hget, hhalfway, hrenamed⟩ := addPrefix_eq_ok.mp h
  obtain rfl := Json.object.inj (Option.some.inj (hjobs.symm.trans hget))
  obtain ⟨fields, hfields, hpass⟩ := Json.mapStrings_object hrenamed
  obtain rfl := Json.object.inj hfields
  obtain ⟨value, hget, -, hmap⟩ := Object.get?_forall₂ hpass (fun _ _ h => h.1)
    (Object.get?_insert_self document "jobs" (.object halfway))
  obtain ⟨result, rfl, hresult⟩ := Json.mapStrings_object hmap
  have hnames : ∀ name ∈ Object.keys jobs, IsName name := by
    rw [← hwiring.names]
    exact hsound.isName
  have hneeded : ∀ node ∈ w, ∀ job ∈ node.2, job ∈ Object.keys jobs := by
    rw [← hwiring.names]
    exact fun node hnode job hjob => hsound.closed node.1 job ⟨node.2, hnode, hjob⟩
  exact ⟨result, hget, hasWiring_prefixed hnames hlead hwiring hneeded hhalfway hresult⟩

/-! ## Rewiring -/

/-- The jobs that stand for a need on a job, once call sites are replaced. -/
def rewired (sites : List CallSite) (job : Text) : List Text :=
  match sites.find? (·.name == job) with
  | some site => site.jobs
  | none => [job]

section

variable {sites : List CallSite}

theorem rewireNeed_eq_ok (hsites : ∀ site ∈ sites, ∀ job ∈ site.jobs, IsName job) {need job : Text}
    (hnamed : NamesJob need job) : ∃ needs, rewireNeed sites need = .ok needs ∧
      List.Forall₂ NamesJob needs (rewired sites job) := by
  unfold rewireNeed rewired
  rw [hnamed.neededJob]
  show ∃ needs, (match sites.find? (·.name == job) with
    | some site => Except.ok site.jobs
    | none => Except.ok [need]) = Except.ok needs ∧ _
  cases hfind : sites.find? (·.name == job) with
  | some site =>
    refine ⟨site.jobs, rfl, ?_⟩
    rw [List.forall₂_same]
    exact fun other hother => ⟨hsites site (List.mem_of_find?_eq_some hfind) other hother, .inl rfl⟩
  | none => exact ⟨[need], rfl, .cons hnamed .nil⟩

theorem rewireNeeds_eq_ok (hsites : ∀ site ∈ sites, ∀ job ∈ site.jobs, IsName job)
    {needs needed : List Text} (hnames : List.Forall₂ NamesJob needs needed) :
    ∃ lists, needs.mapM (rewireNeed sites) = .ok lists ∧
      List.Forall₂ NamesJob lists.flatten (needed.flatMap (rewired sites)) := by
  induction hnames with
  | nil => exact ⟨[], rfl, .nil⟩
  | cons hnamed _ ih =>
    obtain ⟨list, hlist, hnamed'⟩ := rewireNeed_eq_ok hsites hnamed
    obtain ⟨lists, hlists, hnames'⟩ := ih
    refine ⟨list :: lists, ?_, ?_⟩
    · rw [mapM_eq_ok] at hlists ⊢
      exact .cons hlist hlists
    · rw [List.flatten_cons, List.flatMap_cons]
      exact List.rel_append hnamed' hnames'

theorem anyM_namesSite {needs needed : List Text} (hnames : List.Forall₂ NamesJob needs needed) :
    needs.anyM (namesSite sites) = .ok (needed.any fun job => sites.any (·.name == job)) := by
  induction hnames with
  | nil => rfl
  | @cons need job needs needed hnamed _ ih =>
    have hfirst : namesSite sites need = .ok (sites.any (·.name == job)) := by
      unfold namesSite
      rw [hnamed.neededJob]
      rfl
    rw [List.anyM, hfirst, List.any_cons]
    cases sites.any (·.name == job) with
    | true => rfl
    | false => exact ih

theorem rewired_eq_self {job : Text} (h : sites.any (·.name == job) = false) :
    rewired sites job = [job] := by
  have hnone : sites.find? (·.name == job) = none := by
    rw [List.find?_eq_none]
    rw [List.any_eq_false] at h
    exact h
  rw [rewired, hnone]

theorem rewireJob_eq_ok (hsites : ∀ site ∈ sites, ∀ job ∈ site.jobs, IsName job)
    {entry entry' : Text × Json} {needed : List Text} (hneeds : NeedsJobs entry.2 needed)
    (h : rewireJob sites entry = .ok entry') :
    entry'.1 = entry.1 ∧ NeedsJobs entry'.2 (needed.flatMap (rewired sites)) := by
  obtain ⟨name, value⟩ := entry
  obtain ⟨fields, needs, rfl, hread, hnames⟩ := hneeds
  obtain ⟨lists, hlists, hnames'⟩ := rewireNeeds_eq_ok hsites hnames
  replace h := eq_ok_of_bind (Json.asObject_eq_ok.mpr rfl) h
  replace h := eq_ok_of_bind (readNeeds_congr hread) h
  rw [hlists, anyM_namesSite hnames] at h
  cases hany : needed.any fun job => sites.any (·.name == job) with
  | true =>
    rw [hany] at h
    cases h
    exact ⟨rfl, _, lists.flatten, rfl, readNeeds_insert fields lists.flatten, hnames'⟩
  | false =>
    rw [hany] at h
    cases h
    -- no need names a call site
    have hsame : needed.flatMap (rewired sites) = needed := by
      have hall : ∀ job ∈ needed, rewired sites job = [job] := fun job hjob =>
        rewired_eq_self (Bool.eq_false_iff.mpr (List.any_eq_false.mp hany job hjob))
      rw [List.flatMap_congr hall, List.flatMap_singleton']
    rw [hsame]
    exact ⟨rfl, fields, needs, rfl, hread, hnames⟩

/-- The graph in which all needs are rewired. -/
def Wiring.rewire (sites : List CallSite) (w : Wiring) : Wiring :=
  w.map fun node => (node.1, node.2.flatMap (rewired sites))

/-- Rewiring the jobs of a document rewires its graph. -/
theorem hasWiring_rewireJobs (hsites : ∀ site ∈ sites, ∀ job ∈ site.jobs, IsName job)
    {jobs jobs' : Object} {w : Wiring} (hw : HasWiring jobs w)
    (h : rewireJobs sites jobs = .ok jobs') : HasWiring jobs' (w.rewire sites) := by
  unfold rewireJobs at h
  by_cases hempty : sites.isEmpty = true
  · rw [if_pos hempty] at h
    cases h
    obtain rfl := List.isEmpty_iff.mp hempty
    have hsame : w.rewire [] = w := by
      have hnode : ∀ node : Text × List Text, (node.1, node.2.flatMap (rewired [])) = node := by
        intro node
        have hall : node.2.flatMap (rewired []) = node.2 := List.flatMap_singleton' node.2
        rw [hall]
      unfold Wiring.rewire
      rw [List.map_congr_left fun node _ => hnode node, List.map_id']
    rw [hsame]
    exact hw
  · rw [if_neg hempty] at h
    exact hw.map (fun _ _ _ hneeds hentry => rewireJob_eq_ok hsites hneeds hentry) (mapM_eq_ok.mp h)

end

end CachedWorkflow
