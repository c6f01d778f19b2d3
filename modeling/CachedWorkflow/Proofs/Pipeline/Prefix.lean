import CachedWorkflow.Proofs.Pipeline.References

/-!
# Proofs: the prefix of a child

A prefix renames the jobs of a document: their names, the plain needs on them and the references to them,
and nothing else. Taking the prefix off again gives the document back, with needs as they are read
(`addPrefix_renames`).
-/

namespace CachedWorkflow

open Renaming

/-! ## Documents with other jobs -/

/-- Objects with the same keys in the same order, with related values but for one key. -/
def RelatedBut (key : Text) (R : Json → Json → Prop) (fields fields' : Object) : Prop :=
  List.Forall₂ (fun entry entry' => entry'.1 = entry.1 ∧ (entry.1 ≠ key → R entry.2 entry'.2)) fields fields'

/-- A job is another one under another name, with related values and related needs. -/
def RelatedJob (rename : Text → Text) (values : Json → Json → Prop) (needs : Text → Text → Prop)
    (entry entry' : Text × Json) : Prop :=
  entry'.1 = rename entry.1 ∧ ∃ job job', entry.2 = .object job ∧ entry'.2 = .object job' ∧
    RelatedBut "needs" values job job' ∧
    ∃ own own', readNeeds job [] = .ok own ∧ readNeeds job' [] = .ok own' ∧ List.Forall₂ needs own own'

/-- A document is another one with the jobs renamed, with related values and related needs. -/
structure RelatedDocument (rename : Text → Text) (values : Json → Json → Prop) (needs : Text → Text → Prop)
    (document document' : Object) : Prop where
  jobs : ∃ jobs jobs', document.get? "jobs" = some (.object jobs) ∧
    document'.get? "jobs" = some (.object jobs') ∧
    List.Forall₂ (RelatedJob rename values needs) jobs jobs'
  others : RelatedBut "jobs" values document document'

/-- The names of jobs, each with the name that has the prefix. -/
def prefixNames (lead : Text) (jobs : List Text) : List (Text × Text) := jobs.map fun job => (job, lead ++ job)

/-- What a prefix makes of a need: that on a job names the prefixed job, and of one with a placeholder the
references are renamed. -/
inductive PrefixedNeed (lead : Text) (jobs : List Text) : Text → Text → Prop where
  | plain {job : Text} (hjob : job ∈ jobs) : PrefixedNeed lead jobs job (lead ++ job)
  | template {need need' : Text} (hneed : Template.hasOpening need = true)
      (hrenamed : RenamedText (prefixNames lead jobs) need need') : PrefixedNeed lead jobs need need'

/-- The document has these jobs, and can have a prefix put before them. -/
structure IsPrefixable (document jobs : Object) : Prop where
  jobs_eq : document.get? "jobs" = some (.object jobs)
  isName : ∀ name ∈ jobs.keys, IsName name
  refersOnly : ∀ text ∈ (Json.object document).leaves, RefersOnly jobs.keys text
  needs : ∀ entry ∈ jobs, ∃ job needs, entry.2 = .object job ∧ readNeeds job [] = .ok needs ∧
    ∀ need ∈ needs, need ∈ jobs.keys ∨ Template.hasOpening need = true

/-! ## Taking the prefix off -/

/-- A text without the prefix, if it has it. -/
def withoutPrefix (lead text : Text) : Text := (Text.after? lead text).getD text

/-- A need without the prefix, if it is plain. -/
def unprefixedPlain (lead : Text) (jobs : Object) (need : Text) : Text :=
  if jobs.contains need then withoutPrefix lead need else need

/-- A job without the prefix before its name and before the plain needs on jobs of its document. -/
def unprefixJob (location lead : Text) (jobs : Object) (entry : Text × Json) : Except Error (Text × Json) := do
  let job ← entry.2.asObject (location ++ "." ++ entry.1)
  let job ← relistNeeds (unprefixedPlain lead jobs) (location ++ "." ++ entry.1) job
  .ok (withoutPrefix lead entry.1, .object job)

/-- The document at `path` without the prefix before the names of its jobs, and with all references to them
renamed back. -/
def removePrefix (lead path : Text) (document : Object) : Except Error Object := do
  let location := path ++ ":jobs"
  let jobs ← (← document.require "jobs" path).asObject location
  let own ← jobs.mapM (unprefixJob location lead jobs)
  let document := document.insert "jobs" (.object own)
  let renamed ← Renaming.applyToValue ((prefixRenaming lead (Object.keys own)).map Prod.swap) (.object document)
  renamed.asObject path

/-! ## Needs as lists -/

section

variable {change : Text → Text} {job job' : Object} {needs : List Text}

/-- The strings of the job are those that it had, or changed needs. -/
theorem mem_leaves_relisted {text : Text} (h : text ∈ (Json.object (relisted change needs job)).leaves) :
    text ∈ (Json.object job).leaves ∨ ∃ need ∈ needs, text = change need := by
  cases hcontains : job.contains "needs" with
  | true =>
    rw [relisted_eq_insert hcontains] at h
    obtain ⟨entry, hentry, htext⟩ := Json.mem_leavesOfFields.mp h
    rcases Object.mem_of_mem_insert hentry with hentry | rfl
    · exact .inl (Json.mem_leavesOfFields.mpr ⟨entry, hentry, htext⟩)
    · obtain ⟨item, hitem, htext⟩ := Json.mem_leavesOfItems.mp htext
      obtain ⟨changed, hchanged, rfl⟩ := List.mem_map.mp hitem
      obtain ⟨need, hneed, rfl⟩ := List.mem_map.mp hchanged
      exact .inr ⟨need, hneed, List.mem_singleton.mp htext⟩
  | false =>
    rw [relisted_eq_self hcontains] at h
    exact .inl h

/-- What is related to an object with another value for a key is related to the object but for the key. -/
theorem RelatedBut.of_insert {R : Json → Json → Prop} {key : Text} {value : Json} {fields fields' : Object}
    (hkey : key ∈ fields.keys)
    (h : List.Forall₂ (fun entry entry' => entry'.1 = entry.1 ∧ R entry.2 entry'.2)
      (fields.insert key value) fields') : RelatedBut key R fields fields' := by
  unfold RelatedBut
  induction fields generalizing fields' with
  | nil => cases hkey
  | cons entry fields ih =>
    obtain ⟨k, v⟩ := entry
    rw [Object.insert] at h
    by_cases hk : k = key
    · rw [if_pos hk] at h
      obtain ⟨entry', rest, hentry, hrest, rfl⟩ := List.forall₂_cons_left_iff.mp h
      refine .cons ⟨hentry.1, fun hne => absurd hk hne⟩ (hrest.imp fun _ _ hrelated => ?_)
      exact ⟨hrelated.1, fun _ => hrelated.2⟩
    · rw [if_neg hk] at h
      obtain ⟨entry', rest, hentry, hrest, rfl⟩ := List.forall₂_cons_left_iff.mp h
      have hother : key ∈ Object.keys fields := (List.mem_cons.mp hkey).resolve_left (Ne.symm hk)
      exact .cons ⟨hentry.1, fun _ => hentry.2⟩ (ih hother hrest)

theorem RelatedBut.of_relisted {R : Json → Json → Prop}
    (h : List.Forall₂ (fun entry entry' => entry'.1 = entry.1 ∧ R entry.2 entry'.2)
      (relisted change needs job) job') : RelatedBut "needs" R job job' := by
  cases hcontains : job.contains "needs" with
  | true =>
    rw [relisted_eq_insert hcontains] at h
    exact .of_insert (Object.contains_iff.mp hcontains) h
  | false =>
    rw [relisted_eq_self hcontains] at h
    exact h.imp fun _ _ hrelated => ⟨hrelated.1, fun _ => hrelated.2⟩

/-- A pass acts on a job and on its needs as a list. -/
theorem mapsFields_relisted {f : Text → Except Error (Option Json)} {change' change'' : Text → Text}
    {needs' : List Text} (h : MapsFields f job' (relisted change needs job))
    (hneeds : (Json.ofTexts (needs'.map change')).mapStrings f = .ok (Json.ofTexts (needs.map change''))) :
    MapsFields f (relisted change' needs' job') (relisted change'' needs job) := by
  cases hcontains : job.contains "needs" with
  | true =>
    rw [relisted_eq_insert hcontains] at h ⊢
    have hkeys : job'.keys = job.keys := by
      rw [← h.keys, Object.keys_insert_of_mem (Object.contains_iff.mp hcontains)]
    have hcontains' : job'.contains "needs" = true := by
      rwa [Object.contains_iff, hkeys, ← Object.contains_iff]
    rw [relisted_eq_insert hcontains']
    have hinsert : MapsFields f (job'.insert "needs" (Json.ofTexts (needs'.map change')))
        ((job.insert "needs" (Json.ofTexts (needs.map change))).insert "needs"
          (Json.ofTexts (needs.map change''))) := h.insert hneeds
    rwa [Object.insert_insert] at hinsert
  | false =>
    rw [relisted_eq_self hcontains] at h ⊢
    have hcontains' : job'.contains "needs" = false := by
      rwa [← Bool.not_eq_true, Object.contains_iff, ← h.keys, ← Object.contains_iff, Bool.not_eq_true]
    rwa [relisted_eq_self hcontains']

/-- Related jobs have related needs. -/
theorem readNeeds_of_leafWise {R : Text → Text → Prop}
    (h : List.Forall₂ (fun entry entry' => entry'.1 = entry.1 ∧ Json.LeafWise R entry.2 entry'.2) job job')
    (hread : readNeeds job [] = .ok needs) :
    ∃ needs', readNeeds job' [] = .ok needs' ∧ List.Forall₂ R needs needs' := by
  have hvalue : ∀ value, job.get? "needs" = some value →
      ∃ value', job'.get? "needs" = some value' ∧ Json.LeafWise R value value' := by
    intro value hget
    obtain ⟨value', hget', -, hrelated⟩ := Object.get?_forall₂ h (fun _ _ hentry => hentry.1) hget
    exact ⟨value', hget', hrelated⟩
  rcases readNeeds_eq_ok.mp hread with ⟨hnone | hnull, rfl⟩ | ⟨need, hget, rfl⟩ | hget
  · have hkeys := Object.keys_forall₂ h (k := id) fun _ _ hentry => hentry.1
    rw [List.map_id] at hkeys
    rw [Object.get?_eq_none_iff, ← hkeys, ← Object.get?_eq_none_iff] at hnone
    exact ⟨[], readNeeds_eq_ok.mpr (.inl ⟨.inl hnone, rfl⟩), .nil⟩
  · obtain ⟨value', hget', hrelated⟩ := hvalue _ hnull
    cases hrelated
    exact ⟨[], readNeeds_eq_ok.mpr (.inl ⟨.inr hget', rfl⟩), .nil⟩
  · obtain ⟨value', hget', hrelated⟩ := hvalue _ hget
    cases hrelated with
    | @string _ need' hneed =>
      exact ⟨[need'], readNeeds_eq_ok.mpr (.inr (.inl ⟨need', hget', rfl⟩)), .cons hneed .nil⟩
  · obtain ⟨value', hget', hrelated⟩ := hvalue _ hget
    obtain ⟨needs', rfl, hneeds⟩ := hrelated.exists_texts
    exact ⟨needs', readNeeds_eq_ok.mpr (.inr (.inr hget')), hneeds⟩

end

/-! ## Names with the prefix -/

section

variable {lead : Text} {names : List Text}

theorem isNaming_prefixNames (hlead : ∀ c ∈ lead, isJobIdChar c = true) (hnames : ∀ name ∈ names, IsName name) :
    IsNaming (prefixNames lead names) := by
  refine ⟨fun pair hpair => ?_, fun pair hpair pair' hpair' heq => ?_, fun pair hpair pair' hpair' heq => ?_⟩
  · obtain ⟨name, hname, rfl⟩ := List.mem_map.mp hpair
    exact ⟨hnames name hname, isName_append hlead (hnames name hname)⟩
  · obtain ⟨name, -, rfl⟩ := List.mem_map.mp hpair
    obtain ⟨name', -, rfl⟩ := List.mem_map.mp hpair'
    obtain rfl : name = name' := heq
    rfl
  · obtain ⟨name, -, rfl⟩ := List.mem_map.mp hpair
    obtain ⟨name', -, rfl⟩ := List.mem_map.mp hpair'
    obtain rfl : name = name' := List.append_cancel_left heq
    rfl

theorem map_fst_prefixNames : (prefixNames lead names).map Prod.fst = names := by
  unfold prefixNames
  rw [List.map_map]
  exact List.map_id names

/-- The pass for the prefix renames references. -/
theorem prefixRenaming_eq : prefixRenaming lead names = referenceRenaming (prefixNames lead names) := by
  unfold prefixRenaming referenceRenaming prefixNames
  rw [List.flatMap_map]
  refine List.flatMap_congr fun name _ => List.map_congr_left fun context _ => ?_
  exact Prod.ext rfl (List.append_assoc _ _ _)

theorem withoutPrefix_append (lead text : Text) : withoutPrefix lead (lead ++ text) = text := by
  rw [withoutPrefix, Text.after?_eq_some.mpr rfl]
  rfl

end

/-! ## One job -/

section

variable {lead : Text} {names : List Text} {jobs : Object}

/-- The second step renames the references of a need that is not plain. -/
theorem prefixedNeed_of_renamed (hlead : ∀ c ∈ lead, isJobIdChar c = true)
    (hnames : ∀ name ∈ jobs.keys, IsName name) {need need' : Text}
    (hneed : need ∈ jobs.keys ∨ Template.hasOpening need = true)
    (hrenamed : RenamedText (prefixNames lead jobs.keys) (prefixedPlain lead jobs need) need') :
    PrefixedNeed lead jobs.keys need need' := by
  unfold prefixedPlain at hrenamed
  by_cases hmem : need ∈ jobs.keys
  · rw [if_pos (Object.contains_iff.mpr hmem)] at hrenamed
    have hplain := hasOpening_name (isName_append hlead (hnames need hmem)).chars
    obtain rfl := hrenamed.eq_of_hasOpening_eq_false hplain
    exact .plain hmem
  · rw [if_neg (by rwa [Object.contains_iff])] at hrenamed
    exact .template (hneed.resolve_left hmem) hrenamed

/-- Without the prefix a need is renamed at most in its references. -/
theorem PrefixedNeed.renamedText {need need' : Text} (h : PrefixedNeed lead names need need')
    (hlead : ∀ c ∈ lead, isJobIdChar c = true) (hnames : ∀ name ∈ names, IsName name)
    (hjobs : jobs.keys = names.map (lead ++ ·)) :
    RenamedText (prefixNames lead names) need (unprefixedPlain lead jobs need') := by
  unfold unprefixedPlain
  cases h with
  | plain hjob =>
    have hmem : lead ++ need ∈ jobs.keys := hjobs ▸ List.mem_map.mpr ⟨need, hjob, rfl⟩
    rw [if_pos (Object.contains_iff.mpr hmem), withoutPrefix_append]
    exact renamedText_self (hasOpening_name (hnames need hjob).chars)
  | template hneed hrenamed =>
    have hnot : ¬ jobs.contains need' = true := by
      rw [Object.contains_iff, hjobs]
      intro hmem
      obtain ⟨name, hname, rfl⟩ := List.mem_map.mp hmem
      -- a name has no placeholder, and so the need that it has been made from has none
      have hplain := hasOpening_name (isName_append hlead (hnames name hname)).chars
      have hback := hrenamed.symm (isNaming_prefixNames hlead hnames)
      rw [hback.eq_of_hasOpening_eq_false hplain, hplain] at hneed
      cases hneed
    rw [if_neg hnot]
    exact hrenamed

end

/-! ## Steps over jobs -/

/-- A job after the first step of the prefix: its name and its plain needs have it. -/
def Halfway (lead : Text) (jobs : Object) (entry half : Text × Json) : Prop :=
  ∃ job needs, entry.2 = .object job ∧ readNeeds job [] = .ok needs ∧
    (∀ need ∈ needs, need ∈ jobs.keys ∨ Template.hasOpening need = true) ∧
    half = (lead ++ entry.1, .object (relisted (prefixedPlain lead jobs) needs job))

section

variable {lead : Text} {jobs : Object} {entry half entry' : Text × Json}

/-- After both steps the job is prefixed. -/
theorem Halfway.relatedJob (h : Halfway lead jobs entry half) (hlead : ∀ c ∈ lead, isJobIdChar c = true)
    (hnames : ∀ name ∈ jobs.keys, IsName name)
    (hrenamed : entry'.1 = half.1 ∧ Json.LeafWise (RenamedText (prefixNames lead jobs.keys)) half.2 entry'.2) :
    RelatedJob (lead ++ ·) (Json.LeafWise (RenamedText (prefixNames lead jobs.keys)))
      (PrefixedNeed lead jobs.keys) entry entry' := by
  obtain ⟨job, needs, hjob, hread, hneeds, rfl⟩ := h
  obtain ⟨hname, hvalue⟩ := hrenamed
  obtain ⟨job', hjob', hfields⟩ := hvalue.exists_fields
  obtain ⟨needs', hread', hresults⟩ := readNeeds_of_leafWise hfields (readNeeds_relisted hread)
  refine ⟨hname, job, job', hjob, hjob', .of_relisted hfields, needs, needs', hread, hread', ?_⟩
  rw [List.forall₂_map_left_iff] at hresults
  have hboth := (List.forall₂_and_left needs needs').mpr ⟨hneeds, hresults⟩
  exact hboth.imp fun need need' hneed => prefixedNeed_of_renamed hlead hnames hneed.1 hneed.2

/-- Taking the prefix off a prefixed job, and then renaming references back, gives the job with its needs
as a list. -/
theorem Halfway.exists_unprefixed (h : Halfway lead jobs entry half)
    (hlead : ∀ c ∈ lead, isJobIdChar c = true) (hnames : ∀ name ∈ jobs.keys, IsName name)
    (hrenamed : entry'.1 = half.1 ∧ Json.LeafWise (RenamedText (prefixNames lead jobs.keys)) half.2 entry'.2)
    {all : Object} (hall : all.keys = jobs.keys.map (lead ++ ·)) (location : Text) :
    ∃ own listed : Text × Json, unprefixJob location lead all entry' = .ok own ∧ own.1 = entry.1 ∧
      (listed.1 = own.1 ∧ (referenceRenaming ((prefixNames lead jobs.keys).map Prod.swap)).applyToValue own.2
        = .ok listed.2) ∧ RelatedJob id Eq Eq entry listed := by
  have hnaming := isNaming_prefixNames hlead hnames
  obtain ⟨-, job, job', hjob, hjob', -, needs, needs', hread, hread', hprefixed⟩ :=
    h.relatedJob hlead hnames hrenamed
  obtain ⟨hname, hvalue⟩ := hrenamed
  obtain ⟨job₁, needs₁, hjob₁, hread₁, -, rfl⟩ := h
  obtain rfl : job₁ = job := Json.object.inj (hjob₁.symm.trans hjob)
  obtain rfl : needs₁ = needs := Except.ok.inj (hread₁.symm.trans hread)
  rw [hjob'] at hvalue
  have hback := applyToValue_swap hnaming hvalue
  obtain ⟨fields, hfields, hpass⟩ := Json.mapStrings_object hback
  obtain rfl := Json.object.inj hfields
  have hneeds : List.Forall₂ (RenamedText (prefixNames lead jobs.keys)) (needs₁.map id)
      (needs'.map (unprefixedPlain lead all)) := by
    rw [List.map_id, List.forall₂_map_right_iff]
    exact hprefixed.imp fun _ _ hneed => hneed.renamedText hlead hnames hall
  have hrelisted := mapsFields_relisted hpass (applyToValue_swap hnaming (Json.leafWise_ofTexts hneeds))
  refine ⟨(entry.1, .object (relisted (unprefixedPlain lead all) needs' job')),
    (entry.1, .object (relisted id needs₁ job₁)), ?_, rfl, ⟨rfl, ?_⟩, rfl, job₁, _, hjob, rfl, ?_, needs₁,
    needs₁.map id, hread, readNeeds_relisted hread, ?_⟩
  · unfold unprefixJob
    rw [hjob', hname, withoutPrefix_append]
    exact bind_eq_ok.mpr ⟨job', rfl, bind_eq_ok.mpr ⟨_, relistNeeds_eq_ok.mpr ⟨_, hread', rfl⟩, rfl⟩⟩
  · exact map_eq_ok.mpr ⟨_, Json.mapFields_eq_ok.mpr hrelisted, rfl⟩
  · exact .of_relisted (List.forall₂_same.mpr fun _ _ => ⟨rfl, rfl⟩)
  · rw [List.map_id, List.forall₂_eq_eq_eq]

/-- All jobs of a document without the prefix. -/
theorem exists_unprefixed {rest rest' all : Object} (hlead : ∀ c ∈ lead, isJobIdChar c = true)
    (hnames : ∀ name ∈ jobs.keys, IsName name) (hall : all.keys = jobs.keys.map (lead ++ ·))
    (h : List.Forall₂ (fun entry entry' => ∃ half, Halfway lead jobs entry half ∧ entry'.1 = half.1 ∧
      Json.LeafWise (RenamedText (prefixNames lead jobs.keys)) half.2 entry'.2) rest rest')
    (location : Text) :
    ∃ own listed : Object, rest'.mapM (unprefixJob location lead all) = .ok own ∧ own.keys = rest.keys ∧
      (referenceRenaming ((prefixNames lead jobs.keys).map Prod.swap)).applyToValue (.object own)
        = .ok (.object listed) ∧ List.Forall₂ (RelatedJob id Eq Eq) rest listed := by
  induction h with
  | nil => exact ⟨[], [], rfl, rfl, rfl, .nil⟩
  | cons hentry _ ih =>
    obtain ⟨half, hhalf, hrenamed⟩ := hentry
    obtain ⟨own, listed, hown, hkey, hpass, hrelated⟩ :=
      hhalf.exists_unprefixed hlead hnames hrenamed hall location
    obtain ⟨owns, listeds, howns, hkeys, hpasses, hrelateds⟩ := ih
    obtain ⟨fields, hfields, hmaps⟩ := Json.mapStrings_object hpasses
    obtain rfl := Json.object.inj hfields
    refine ⟨own :: owns, listed :: listeds, mapM_eq_ok.mpr (.cons hown (mapM_eq_ok.mp howns)), ?_, ?_,
      .cons hrelated hrelateds⟩
    · rw [Object.keys_cons, Object.keys_cons, hkey, hkeys]
    · exact map_eq_ok.mpr ⟨_, Json.mapFields_eq_ok.mpr (.cons hpass hmaps), rfl⟩

end

/-! ## Documents -/

section

variable {lead : Text} {document jobs : Object}

theorem refersOnly_of_hasOpening_eq_false {names : List Text} {text : Text}
    (h : Template.hasOpening text = false) : RefersOnly names text :=
  ⟨_, Template.scan_of_hasOpening_eq_false h, fun source hsource => by simp at hsource⟩

/-- After the first step all references are still to jobs of the document, by their old names. -/
theorem IsPrefixable.refersOnly_halfway (h : IsPrefixable document jobs)
    (hlead : ∀ c ∈ lead, isJobIdChar c = true) {halfway : Object}
    (hhalfway : List.Forall₂ (Halfway lead jobs) jobs halfway) :
    ∀ text ∈ (Json.object (document.insert "jobs" (.object halfway))).leaves, RefersOnly jobs.keys text := by
  intro text htext
  obtain ⟨field, hfield, htext⟩ := Json.mem_leavesOfFields.mp htext
  rcases Object.mem_of_mem_insert hfield with hfield | rfl
  · exact h.refersOnly text (Json.mem_leavesOfFields.mpr ⟨field, hfield, htext⟩)
  · obtain ⟨half, hhalf, htext⟩ := Json.mem_leavesOfFields.mp htext
    obtain ⟨entry, hentry, job, needs, hjob, hread, hneeds, rfl⟩ := exists_of_mem_right hhalfway hhalf
    -- the strings of the job are strings of the document
    have hown : ∀ leaf ∈ (Json.object job).leaves, RefersOnly jobs.keys leaf := by
      intro leaf hleaf
      refine h.refersOnly leaf (Json.mem_leavesOfFields.mpr ⟨_, Object.mem_of_get? h.jobs_eq, ?_⟩)
      exact Json.mem_leavesOfFields.mpr ⟨entry, hentry, by rwa [hjob]⟩
    rcases mem_leaves_relisted htext with htext | ⟨need, hneed, rfl⟩
    · exact hown text htext
    · unfold prefixedPlain
      by_cases hmem : need ∈ jobs.keys
      · rw [if_pos (Object.contains_iff.mpr hmem)]
        exact refersOnly_of_hasOpening_eq_false
          (hasOpening_name (isName_append hlead (h.isName need hmem)).chars)
      · rw [if_neg (by rwa [Object.contains_iff])]
        exact hown need (mem_leaves_of_readNeeds hread need hneed)

/-- The two steps of the prefix: the jobs with their names and plain needs prefixed, and the document with
these jobs and its references renamed. -/
theorem IsPrefixable.exists_stages (h : IsPrefixable document jobs)
    (hlead : ∀ c ∈ lead, isJobIdChar c = true) (path : Text) :
    ∃ halfway result : Object, List.Forall₂ (Halfway lead jobs) jobs halfway ∧
      addPrefix lead path document = .ok result ∧
      Json.LeafWise (RenamedText (prefixNames lead jobs.keys))
        (.object (document.insert "jobs" (.object halfway))) (.object result) := by
  obtain ⟨halfway, hhalfway⟩ : ∃ halfway, List.Forall₂ (Halfway lead jobs) jobs halfway :=
    exists_forall₂ fun entry hentry => by
      obtain ⟨job, needs, hjob, hread, hneeds⟩ := h.needs entry hentry
      exact ⟨_, job, needs, hjob, hread, hneeds, rfl⟩
  have hown := h.refersOnly_halfway hlead hhalfway
  rw [← @map_fst_prefixNames lead jobs.keys] at hown
  obtain ⟨value, hvalue, hrenamed⟩ := exists_renamedValue (isNaming_prefixNames hlead h.isName) hown
  obtain ⟨result, rfl, -⟩ := hrenamed.exists_fields
  refine ⟨halfway, result, hhalfway, ?_, hrenamed⟩
  rw [← prefixRenaming_eq] at hvalue
  refine addPrefix_eq_ok.mpr ⟨jobs, halfway, h.jobs_eq, hhalfway.imp fun entry half hhalf => ?_, hvalue⟩
  obtain ⟨job, needs, hjob, hread, -, rfl⟩ := hhalf
  exact prefixJob_eq_ok.mpr ⟨job, needs, hjob, hread, rfl⟩

/-- The two steps that take the prefix off: the jobs with names and plain needs without it, and the document
with these jobs and its references renamed back. -/
theorem removePrefix_eq_ok (hlead : ∀ c ∈ lead, isJobIdChar c = true) (hnames : ∀ name ∈ jobs.keys, IsName name)
    {halfway result jobs' own listed : Object} (hget : result.get? "jobs" = some (.object jobs'))
    (hrenamed : Json.LeafWise (RenamedText (prefixNames lead jobs.keys))
      (.object (document.insert "jobs" (.object halfway))) (.object result)) {path : Text}
    (hown : jobs'.mapM (unprefixJob (path ++ ":jobs") lead jobs') = .ok own) (hkeys : own.keys = jobs.keys)
    (hpass : (referenceRenaming ((prefixNames lead jobs.keys).map Prod.swap)).applyToValue (.object own)
      = .ok (.object listed)) :
    removePrefix lead path result = .ok (document.insert "jobs" (.object listed)) := by
  have hpairs : (prefixRenaming lead own.keys).map Prod.swap
      = referenceRenaming ((prefixNames lead jobs.keys).map Prod.swap) := by
    rw [hkeys, prefixRenaming_eq, referenceRenaming_swap]
  obtain ⟨half, hhalf, hmaps⟩ :=
    Json.mapStrings_object (applyToValue_swap (isNaming_prefixNames hlead hnames) hrenamed)
  obtain rfl := Json.object.inj hhalf
  have hrestored := @MapsFields.insert _ _ _ hmaps "jobs" _ _ hpass
  rw [Object.insert_insert] at hrestored
  have hvalue : Renaming.applyToValue ((prefixRenaming lead own.keys).map Prod.swap)
      (.object (result.insert "jobs" (.object own))) = .ok (.object (document.insert "jobs" (.object listed))) := by
    rw [hpairs]
    exact map_eq_ok.mpr ⟨_, Json.mapFields_eq_ok.mpr hrestored, rfl⟩
  unfold removePrefix
  exact bind_eq_ok.mpr ⟨_, Object.require_eq_ok.mpr hget, bind_eq_ok.mpr ⟨jobs', rfl,
    bind_eq_ok.mpr ⟨own, hown, bind_eq_ok.mpr ⟨_, hvalue, rfl⟩⟩⟩⟩

/-- A prefix renames the jobs of a document, the plain needs on them and the references to them, and nothing
else. Taking it off again gives back the document, with needs as they are read. -/
theorem addPrefix_renames (h : IsPrefixable document jobs) (hlead : ∀ c ∈ lead, isJobIdChar c = true)
    (path : Text) :
    ∃ result, addPrefix lead path document = .ok result ∧
      RelatedDocument (lead ++ ·) (Json.LeafWise (RenamedText (prefixNames lead jobs.keys)))
        (PrefixedNeed lead jobs.keys) document result ∧
      ∃ restored, removePrefix lead path result = .ok restored ∧
        RelatedDocument id Eq Eq document restored := by
  obtain ⟨halfway, result, hhalfway, hresult, hrenamed⟩ := h.exists_stages hlead path
  have hjobsKey : ("jobs" : Text) ∈ document.keys := Object.mem_keys_of_get? h.jobs_eq
  obtain ⟨fields, hfields, hentries⟩ := hrenamed.exists_fields
  obtain rfl := Json.object.inj hfields
  obtain ⟨value, hget, -, hvalue⟩ := Object.get?_forall₂ hentries (fun _ _ hentry => hentry.1)
    (Object.get?_insert_self document "jobs" (.object halfway))
  obtain ⟨jobs', rfl, hjobs'⟩ := hvalue.exists_fields
  have hsteps := forall₂_comp hhalfway hjobs'
  have hall : Object.keys jobs' = jobs.keys.map (lead ++ ·) := by
    refine Object.keys_forall₂ hsteps fun entry entry' hstep => ?_
    obtain ⟨half, ⟨job, needs, -, -, -, rfl⟩, hkey, -⟩ := hstep
    exact hkey
  obtain ⟨own, listed, hown, hkeys, hpass, hrelated⟩ :=
    exists_unprefixed hlead h.isName hall hsteps (path ++ ":jobs")
  refine ⟨result, hresult, ⟨⟨jobs, jobs', h.jobs_eq, hget, ?_⟩, .of_insert hjobsKey hentries⟩,
    document.insert "jobs" (.object listed),
    removePrefix_eq_ok hlead h.isName hget hrenamed hown hkeys hpass,
    ⟨⟨jobs, listed, h.jobs_eq, Object.get?_insert_self _ _ _, hrelated⟩, ?_⟩⟩
  · refine hsteps.imp fun entry entry' hstep => ?_
    obtain ⟨half, hhalf, hafter⟩ := hstep
    exact hhalf.relatedJob hlead h.isName hafter
  · exact .of_insert hjobsKey (List.forall₂_same.mpr fun _ _ => ⟨rfl, rfl⟩)

end

/-- The name of one job begins that of another, one has the prefix already, and needs come in all forms. -/
def siblingJobs : Object :=
  [("a", .object [("needs", .null), ("if", .string "$\x7b\x7b !needs.a.ok || 'needs.a' \x7d\x7d")]),
    ("a-b", .object [("needs", .string "a"), ("run", .string "needs.a $\x7b\x7bjobs.a-b.needs.a\x7d\x7d")]),
    ("p-a", .object [("needs", .ofTexts ["a-b", "$\x7b\x7b jobs.p-a \x7d\x7d"])])]

def siblingDocument : Object :=
  [("name", .string "$\x7b\x7b x.needs.a, needs.p-a \x7d\x7d"), ("jobs", .object siblingJobs)]

def prefixedSiblings : Object :=
  [("name", .string "$\x7b\x7b x.needs.a, needs.p-p-a \x7d\x7d"), ("jobs", .object
    [("p-a", .object [("needs", .ofTexts []), ("if", .string "$\x7b\x7b !needs.p-a.ok || 'needs.a' \x7d\x7d")]),
      ("p-a-b", .object [("needs", .ofTexts ["p-a"]),
        ("run", .string "needs.a $\x7b\x7bjobs.p-a-b.needs.a\x7d\x7d")]),
      ("p-p-a", .object [("needs", .ofTexts ["p-a-b", "$\x7b\x7b jobs.p-p-a \x7d\x7d"])])])]

theorem addPrefix_renames_siblings :
    addPrefix "p-" "child.yml" siblingDocument = .ok prefixedSiblings ∧
      RelatedDocument (("p-" : Text) ++ ·) (Json.LeafWise (RenamedText (prefixNames "p-" siblingJobs.keys)))
        (PrefixedNeed "p-" siblingJobs.keys) siblingDocument prefixedSiblings ∧
      ∃ restored, removePrefix "p-" "child.yml" prefixedSiblings = .ok restored ∧
        RelatedDocument id Eq Eq siblingDocument restored := by
  have hprefixable : IsPrefixable siblingDocument siblingJobs := by
    refine ⟨rfl, by decide, by decide +kernel, ?_⟩
    unfold siblingJobs
    simp only [List.forall_mem_cons, List.not_mem_nil, false_implies, implies_true, and_true]
    exact ⟨⟨_, [], rfl, rfl, by decide⟩, ⟨_, ["a"], rfl, rfl, by decide⟩,
      ⟨_, ["a-b", "$\x7b\x7b jobs.p-a \x7d\x7d"], rfl, rfl, by decide⟩⟩
  have hresult : addPrefix "p-" "child.yml" siblingDocument = .ok prefixedSiblings := by decide +kernel
  have hlead : ∀ c ∈ ("p-" : Text), isJobIdChar c = true := by decide
  obtain ⟨result, hresult', hrelated, hrestored⟩ := addPrefix_renames hprefixable hlead "child.yml"
  obtain rfl := Except.ok.inj (hresult'.symm.trans hresult)
  exact ⟨hresult', hrelated, hrestored⟩

end CachedWorkflow
