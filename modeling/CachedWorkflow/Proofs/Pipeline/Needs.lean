import CachedWorkflow.Pipeline.CallSite
import CachedWorkflow.Proofs.Json.Leaves
import CachedWorkflow.Proofs.Path
import CachedWorkflow.Proofs.Pipeline.Binding
import CachedWorkflow.Proofs.Pipeline.Splicing

/-!
# Proofs: the needs of a document

The graph of names that the jobs of a document make through their needs (`HasWiring`), whether a need
is a plain name or a placeholder with a reference. The graph only depends on the needs, so what leaves
references alone leaves the graph alone (`HasWiring.mapStrings`).
-/

namespace CachedWorkflow

open Renaming Template

/-! ## References to jobs -/

/-- The reference to a job inside an expression. -/
def jobReference (job : Text) : Text := "jobs." ++ job

/-- A need names a job plainly, or by a placeholder with a reference to the job. -/
structure NamesJob (need job : Text) : Prop where
  isName : IsName job
  plain_or_reference : need = job ∨ need = placeholder (jobReference job)

variable {job name need location : Text}

theorem hasOpening_name (h : ∀ c ∈ name, isJobIdChar c = true) : hasOpening name = false := by
  rw [Bool.eq_false_iff, ne_eq, hasOpening_iff]
  intro hopens
  have hdollar := h '$' (hopens.subset (by decide))
  cases hdollar

/-- The characters of a reference. -/
theorem mem_jobReference (h : IsName job) {c : Char} (hc : c ∈ jobReference job) :
    isJobIdChar c = true ∨ c = '.' := by
  have hlead : ∀ c ∈ ("jobs." : Text), isJobIdChar c = true ∨ c = '.' := by decide
  exact (List.mem_append.mp hc).elim (hlead c) fun hc => .inl (h.chars c hc)

theorem placeholder_eq (expression : Text) :
    placeholder expression = opening ++ ([' '] ++ expression ++ [' ']) ++ closing := by
  unfold placeholder
  simp only [List.append_assoc]
  rfl

/-- A placeholder with a reference is scanned as one. -/
theorem scan_jobReference (h : IsName job) : scan (placeholder (jobReference job))
    = .ok [.literal [], .expression ([' '] ++ jobReference job ++ [' ']), .literal []] := by
  rw [placeholder_eq]
  refine scan_placeholder fun c hc => ?_
  rcases List.mem_append.mp hc with hc | hc
  · rcases List.mem_append.mp hc with hc | hc
    · rw [List.mem_singleton.mp hc]
      decide
    · rcases mem_jobReference h hc with hc | rfl
      · constructor <;> (rintro rfl; cases hc)
      · decide
  · rw [List.mem_singleton.mp hc]
    decide

theorem fullExpression?_jobReference (h : IsName job) :
    fullExpression? (placeholder (jobReference job)) = .ok (some (jobReference job)) := by
  refine fullExpression?_eq_some.mpr ⟨_, scan_jobReference h, ?_⟩
  have hblank : ∀ c ∈ [' '], isWhiteSpace c = true := by decide
  refine Text.trimmed_append hblank hblank fun c hc => ?_
  rw [Bool.eq_false_iff]
  intro hspace
  rcases mem_jobReference h hc with hname | rfl
  · have hident := isIdentifierChar_of_isWhiteSpace hspace
    rw [isIdentifierChar_of_isJobIdChar hname] at hident
    cases hident
  · cases hspace

/-- The job that a need names is found. -/
theorem NamesJob.neededJob (h : NamesJob need job) : neededJob need = .ok job := by
  unfold CachedWorkflow.neededJob
  rcases h.plain_or_reference with rfl | rfl
  · rw [fullExpression?_of_hasOpening_eq_false (hasOpening_name h.isName.chars)]
    rfl
  · have hafter : Text.after? "jobs." (jobReference job) = some job := Text.after?_eq_some.mpr rfl
    rw [fullExpression?_jobReference h.isName]
    show Except.ok (((Text.after? "jobs." (jobReference job)).or _).getD _) = _
    rw [hafter]
    rfl

/-! ## Contexts -/

theorem context_cases {context : Text} (h : context ∈ contexts) :
    context = "needs" ∨ context = "jobs" := by
  simpa [contexts] using h

theorem isName_context {context : Text} (h : context ∈ contexts) : IsName context := by
  rcases context_cases h with rfl | rfl <;> decide

/-! ## Reading needs -/

theorem stringsFrom_eq_ok {index : Nat} {items : List Json} {texts : List Text} :
    Json.stringsFrom location index items = .ok texts ↔ items = texts.map .string := by
  induction items generalizing index texts with
  | nil =>
    rw [Json.stringsFrom]
    cases texts <;> simp
  | cons item rest ih =>
    rw [Json.stringsFrom, bind_eq_ok]
    constructor
    · rintro ⟨text, htext, h⟩
      obtain ⟨texts', htexts', h⟩ := bind_eq_ok.mp h
      cases h
      rw [Json.asString_eq_ok.mp htext, ih.mp htexts', List.map_cons]
    · intro h
      cases texts with
      | nil => cases h
      | cons text texts =>
        rw [List.map_cons, List.cons.injEq] at h
        refine ⟨text, Json.asString_eq_ok.mpr h.1, bind_eq_ok.mpr ⟨texts, ih.mpr h.2, rfl⟩⟩

theorem asStrings_eq_ok {value : Json} {texts : List Text} :
    value.asStrings location = .ok texts ↔ value = Json.ofTexts texts := by
  rw [Json.asStrings, bind_eq_ok]
  constructor
  · rintro ⟨items, hitems, h⟩
    rw [Json.asArray_eq_ok.mp hitems, stringsFrom_eq_ok.mp h]
    rfl
  · intro h
    exact ⟨texts.map .string, Json.asArray_eq_ok.mpr h, stringsFrom_eq_ok.mpr rfl⟩

/-- The needs of a job: none, one, or a list. -/
theorem readNeeds_eq_ok {fields : Object} {needs : List Text} :
    readNeeds fields location = .ok needs ↔
      (fields.get? "needs" = none ∨ fields.get? "needs" = some .null) ∧ needs = [] ∨
      (∃ need, fields.get? "needs" = some (.string need) ∧ needs = [need]) ∨
      fields.get? "needs" = some (Json.ofTexts needs) := by
  unfold readNeeds
  cases hget : fields.get? "needs" with
  | none => simp [eq_comm]
  | some value =>
    cases value with
    | null => simp [eq_comm, Json.ofTexts]
    | string text => simp [eq_comm, Json.ofTexts]
    | array items => simp [asStrings_eq_ok]
    | bool flag => simp [asStrings_eq_ok]
    | number number => simp [asStrings_eq_ok]
    | object members => simp [asStrings_eq_ok]

/-- Where a job stands only matters for errors. -/
theorem readNeeds_congr {fields : Object} {location' : Text} {needs : List Text}
    (h : readNeeds fields location = .ok needs) : readNeeds fields location' = .ok needs :=
  readNeeds_eq_ok.mpr (readNeeds_eq_ok.mp h)

/-- The needs of a job are those of one that says the same about them. -/
theorem readNeeds_of_get?_eq {fields fields' : Object} (h : fields'.get? "needs" = fields.get? "needs") :
    readNeeds fields' location = readNeeds fields location := by
  rw [readNeeds, readNeeds, h]

/-- The needs of a job are strings of it. -/
theorem mem_leaves_of_readNeeds {fields : Object} {needs : List Text}
    (h : readNeeds fields location = .ok needs) : ∀ need ∈ needs, need ∈ (Json.object fields).leaves := by
  intro need hneed
  have hleaf : ∀ value, fields.get? "needs" = some value → need ∈ value.leaves →
      need ∈ (Json.object fields).leaves := fun value hget hmem =>
    Json.mem_leavesOfFields.mpr ⟨_, Object.mem_of_get? hget, hmem⟩
  rcases readNeeds_eq_ok.mp h with ⟨-, rfl⟩ | ⟨only, hget, rfl⟩ | hget
  · cases hneed
  · exact hleaf _ hget hneed
  · exact hleaf _ hget (Json.mem_leavesOfItems.mpr
      ⟨.string need, List.mem_map_of_mem hneed, List.mem_singleton_self need⟩)

theorem readNeeds_insert (fields : Object) (needs : List Text) :
    readNeeds (fields.insert "needs" (Json.ofTexts needs)) location = .ok needs := by
  rw [readNeeds_eq_ok, Object.get?_insert_self]
  exact .inr (.inr rfl)

/-! ## Needs as a list -/

/-- A job with its needs, if it says anything about them, as a list of texts that are changed. -/
def relistNeeds (change : Text → Text) (location : Text) (job : Object) : Except Error Object :=
  if job.contains "needs" then do
    let needs ← readNeeds job location
    .ok (job.insert "needs" (Json.ofTexts (needs.map change)))
  else .ok job

/-- The job with these needs as a list. -/
def relisted (change : Text → Text) (needs : List Text) (job : Object) : Object :=
  if job.contains "needs" then job.insert "needs" (Json.ofTexts (needs.map change)) else job

theorem readNeeds_of_contains_eq_false {fields : Object} (h : fields.contains "needs" = false) :
    readNeeds fields location = .ok [] := by
  rw [← Bool.not_eq_true, Object.contains_iff, ← Object.get?_eq_none_iff] at h
  exact readNeeds_eq_ok.mpr (.inl ⟨.inl h, rfl⟩)

section

variable {change : Text → Text} {fields fields' : Object} {needs : List Text}

theorem relisted_eq_insert (h : fields.contains "needs" = true) :
    relisted change needs fields = fields.insert "needs" (Json.ofTexts (needs.map change)) :=
  if_pos h

theorem relisted_eq_self (h : fields.contains "needs" = false) : relisted change needs fields = fields :=
  if_neg (Bool.eq_false_iff.mp h)

theorem relistNeeds_eq_ok : relistNeeds change location fields = .ok fields' ↔
    ∃ needs, readNeeds fields [] = .ok needs ∧ fields' = relisted change needs fields := by
  unfold relistNeeds
  cases hcontains : fields.contains "needs" with
  | true =>
    rw [if_pos rfl, bind_eq_ok]
    simp only [relisted_eq_insert hcontains]
    constructor
    · rintro ⟨needs, hread, h⟩
      exact ⟨needs, readNeeds_congr hread, (Except.ok.inj h).symm⟩
    · rintro ⟨needs, hread, rfl⟩
      exact ⟨needs, readNeeds_congr hread, rfl⟩
  | false =>
    rw [if_neg Bool.false_ne_true]
    simp only [relisted_eq_self hcontains]
    constructor
    · intro h
      exact ⟨[], readNeeds_of_contains_eq_false hcontains, (Except.ok.inj h).symm⟩
    · rintro ⟨needs, -, rfl⟩
      rfl

theorem readNeeds_relisted (h : readNeeds fields [] = .ok needs) :
    readNeeds (relisted change needs fields) [] = .ok (needs.map change) := by
  cases hcontains : fields.contains "needs" with
  | true =>
    rw [relisted_eq_insert hcontains]
    exact readNeeds_insert fields (needs.map change)
  | false =>
    rw [readNeeds_of_contains_eq_false hcontains] at h
    cases h
    rw [relisted_eq_self hcontains]
    exact readNeeds_of_contains_eq_false hcontains

end

/-! ## The graph of a document -/

/-- The needs of a job name the listed jobs, one each. -/
def NeedsJobs (job : Json) (needed : List Text) : Prop :=
  ∃ fields needs, job = .object fields ∧ readNeeds fields [] = .ok needs ∧
    List.Forall₂ NamesJob needs needed

/-- Jobs with their needs, as a graph of names. -/
def HasWiring (jobs : Object) (w : Wiring) : Prop :=
  List.Forall₂ (fun entry node => entry.1 = node.1 ∧ NeedsJobs entry.2 node.2) jobs w

theorem HasWiring.names {jobs : Object} {w : Wiring} (h : HasWiring jobs w) :
    w.names = jobs.keys := by
  unfold HasWiring at h
  induction h with
  | nil => rfl
  | cons hentry _ ih =>
    show _ :: Wiring.names _ = _ :: Object.keys _
    rw [hentry.1, ih]

/-- Jobs that are changed one by one, under the same names, change the graph node by node. -/
theorem HasWiring.map {R : Text × Json → Text × Json → Prop} {g : List Text → List Text}
    (hstep : ∀ entry entry' needed, NeedsJobs entry.2 needed → R entry entry' →
      entry'.1 = entry.1 ∧ NeedsJobs entry'.2 (g needed))
    {jobs jobs' : Object} {w : Wiring} (hw : HasWiring jobs w) (h : List.Forall₂ R jobs jobs') :
    HasWiring jobs' (List.map (fun node => (node.1, g node.2)) w) := by
  unfold HasWiring at hw ⊢
  induction h generalizing w with
  | nil =>
    cases hw
    exact .nil
  | @cons entry entry' entries entries' hentry _ ih =>
    obtain ⟨node, rest, ⟨hname, hneeds⟩, hrest, rfl⟩ := List.forall₂_cons_left_iff.mp hw
    obtain ⟨hname', hneeds'⟩ := hstep entry entry' node.2 hneeds hentry
    exact .cons ⟨hname'.trans hname, hneeds'⟩ (ih hrest)

/-- The jobs of a document make the graph. -/
def IsWired (document : Object) (w : Wiring) : Prop :=
  ∃ jobs, document.get? "jobs" = some (.object jobs) ∧ HasWiring jobs w

/-! ## Passes over string leaves -/

section

variable {f : Text → Except Error (Option Json)}

/-- What a pass makes of the entries of an object. -/
def MapsFields (f : Text → Except Error (Option Json)) (fields fields' : Object) : Prop :=
  List.Forall₂ (fun entry entry' => entry'.1 = entry.1 ∧ entry.2.mapStrings f = .ok entry'.2)
    fields fields'

theorem MapsFields.keys {fields fields' : Object} (h : MapsFields f fields fields') :
    fields'.keys = fields.keys := by
  have hkeys := Object.keys_forall₂ h (k := id) fun _ _ hentry => hentry.1
  rwa [List.map_id] at hkeys

/-- A pass acts on a value that is put in as well. -/
theorem MapsFields.insert {fields fields' : Object} (h : MapsFields f fields fields') {key : Text}
    {value value' : Json} (hvalue : value.mapStrings f = .ok value') :
    MapsFields f (fields.insert key value) (fields'.insert key value') := by
  unfold MapsFields at h ⊢
  induction h with
  | nil => exact .cons ⟨rfl, hvalue⟩ .nil
  | @cons entry entry' rest rest' hentry hrest ih =>
    obtain ⟨k, v⟩ := entry
    obtain ⟨k', v'⟩ := entry'
    obtain ⟨hkey, hmap⟩ := hentry
    obtain rfl : k' = k := hkey
    rw [Object.insert, Object.insert]
    by_cases hk : k' = key
    · rw [if_pos hk, if_pos hk]
      exact .cons ⟨rfl, hvalue⟩ hrest
    · rw [if_neg hk, if_neg hk]
      exact .cons ⟨rfl, hmap⟩ ih

/-- A pass acts on the needs of a job one by one. -/
theorem MapsFields.readNeeds {fields fields' : Object} {needs needs' : List Text}
    (hpass : MapsFields f fields fields') (hneeds : readNeeds fields location = .ok needs)
    (hresults : List.Forall₂ (fun need need' => Json.leafResult f need = .ok (.string need'))
      needs needs') : CachedWorkflow.readNeeds fields' location = .ok needs' := by
  have hvalue : ∀ value, fields.get? "needs" = some value →
      ∃ value', fields'.get? "needs" = some value' ∧ value.mapStrings f = .ok value' := by
    intro value hget
    obtain ⟨value', hget', -, hmap⟩ := Object.get?_forall₂ hpass (fun _ _ h => h.1) hget
    exact ⟨value', hget', hmap⟩
  refine readNeeds_eq_ok.mpr ?_
  rcases readNeeds_eq_ok.mp hneeds with ⟨hnone | hnull, rfl⟩ | ⟨need, hget, rfl⟩ | hget
  · cases hresults
    rw [Object.get?_eq_none_iff, ← hpass.keys, ← Object.get?_eq_none_iff] at hnone
    exact .inl ⟨.inl hnone, rfl⟩
  · cases hresults
    obtain ⟨value', hget', hmap⟩ := hvalue _ hnull
    cases hmap
    exact .inl ⟨.inr hget', rfl⟩
  · obtain ⟨need', rest, hneed, hrest, rfl⟩ := List.forall₂_cons_left_iff.mp hresults
    cases hrest
    obtain ⟨value', hget', hmap⟩ := hvalue _ hget
    rw [Json.mapStrings_string, hneed] at hmap
    cases hmap
    exact .inr (.inl ⟨need', hget', rfl⟩)
  · obtain ⟨value', hget', hmap⟩ := hvalue _ hget
    obtain ⟨items', rfl, hitems⟩ := Json.mapStrings_array hmap
    rw [List.forall₂_map_left_iff] at hitems
    have hresults' : List.Forall₂ (fun need item' => (Json.string need).mapStrings f = .ok item')
        needs (needs'.map .string) := by
      rw [List.forall₂_map_right_iff]
      exact hresults.imp fun need need' hneed => by rw [Json.mapStrings_string, hneed]
    have hunique : Relator.RightUnique
        fun need item' => (Json.string need).mapStrings f = .ok item' := by
      intro need a b ha hb
      exact Except.ok.inj (ha.symm.trans hb)
    have hsame : items' = needs'.map .string := hunique.forall₂ hitems hresults'
    rw [hsame] at hget'
    exact .inr (.inr hget')

/-- A pass that leaves needs alone. -/
def Spares (f : Text → Except Error (Option Json)) : Prop :=
  ∀ need job, NamesJob need job → Json.leafResult f need = .ok (.string need)

theorem NeedsJobs.mapStrings (hf : Spares f) {value value' : Json} {needed : List Text}
    (h : NeedsJobs value needed) (hmap : value.mapStrings f = .ok value') : NeedsJobs value' needed := by
  obtain ⟨fields, needs, rfl, hneeds, hnames⟩ := h
  obtain ⟨fields', rfl, hpass⟩ := Json.mapStrings_object hmap
  have hresults : List.Forall₂ (fun need need' => Json.leafResult f need = .ok (.string need'))
      needs needs := by
    rw [List.forall₂_same]
    intro need hneed
    obtain ⟨job, -, hnamed⟩ := exists_of_mem_left hnames hneed
    exact hf need job hnamed
  exact ⟨fields', needs, rfl, MapsFields.readNeeds hpass hneeds hresults, hnames⟩

theorem HasWiring.mapStrings (hf : Spares f) {jobs jobs' : Object} {w : Wiring}
    (h : HasWiring jobs w) (hpass : MapsFields f jobs jobs') : HasWiring jobs' w := by
  have hsame := h.map (fun _ _ _ hneeds hentry => ⟨hentry.1, hneeds.mapStrings hf hentry.2⟩) hpass
  rwa [List.map_id'] at hsame

/-- A pass that leaves needs alone leaves the graph alone. -/
theorem IsWired.mapStrings (hf : Spares f) {document : Object} {value : Json} {w : Wiring}
    (h : IsWired document w) (hmap : (Json.object document).mapStrings f = .ok value) :
    ∃ document', value = .object document' ∧ IsWired document' w := by
  obtain ⟨jobs, hjobs, hw⟩ := h
  obtain ⟨document', rfl, hpass⟩ := Json.mapStrings_object hmap
  obtain ⟨value', hget, -, hvalue⟩ := Object.get?_forall₂ hpass (fun _ _ h => h.1) hjobs
  obtain ⟨jobs', rfl, hpass'⟩ := Json.mapStrings_object hvalue
  exact ⟨document', rfl, jobs', hget, hw.mapStrings hf hpass'⟩

end

/-! ## Substitutions -/

/-- An identifier that no reference to a job begins with. -/
structure IsForeign (name : Text) : Prop where
  head : ∀ c ∈ name.head?, isIdentifierChar c = true
  not_occurs : ∀ job, IsName job → occursAt name (jobReference job ++ [' ']) = false

theorem IsForeign.ne (h : IsForeign name) (hjob : IsName job) : name ≠ jobReference job := by
  rintro rfl
  have hoccurs : occursAt (jobReference job) (jobReference job ++ [' ']) = true :=
    occursAt_iff.mpr ⟨by simp [jobReference], [' '], rfl, by decide⟩
  rw [h.not_occurs job hjob] at hoccurs
  cases hoccurs

theorem joinsNext_jobReference (hjob : IsName job) : ∀ c ∈ jobReference job, joinsNext c = true := by
  intro c hc
  rcases mem_jobReference hjob hc with hc | rfl
  · exact joinsNext_of_isIdentifierChar (isIdentifierChar_of_isJobIdChar hc)
  · decide

/-- Renaming foreign identifiers leaves needs alone. -/
theorem spares_renaming {pairs : Renaming} (h : ∀ pair ∈ pairs, IsForeign pair.1) :
    Spares fun text => (pairs.applyToTemplate text).map fun new => some (.string new) := by
  intro need job hnamed
  refine Binding.leafResult_renaming.mpr ?_
  rcases hnamed.plain_or_reference with rfl | rfl
  · exact applyToTemplate_of_hasOpening_eq_false (hasOpening_name hnamed.isName.chars)
  · have hblank : ∀ c ∈ [' '], isWhiteSpace c = true := by decide
    have hnone : longest? (jobReference job ++ [' ']) pairs = none :=
      longest?_eq_none_iff.mpr fun pair hpair => (h pair hpair).not_occurs job hnamed.isName
    have hsame := apply_reference_of_none hblank hblank (fun pair hpair => (h pair hpair).head)
      (by simp [jobReference]) (joinsNext_jobReference hnamed.isName) hnone
    rw [applyToTemplate_placeholder (scan_jobReference hnamed.isName), hsame, placeholder_eq]

/-- Values for foreign names leave needs alone. -/
theorem spares_binding {binding : Binding} (h : ∀ pair ∈ binding, IsForeign pair.1) :
    Spares fun text => (fullExpression? text).map fun e => e.bind binding.lookup? := by
  intro need job hnamed
  rw [Json.leafResult]
  rcases hnamed.plain_or_reference with rfl | rfl
  · rw [fullExpression?_of_hasOpening_eq_false (hasOpening_name hnamed.isName.chars)]
    rfl
  · have hnone : binding.lookup? (jobReference job) = none := by
      refine Object.get?_eq_none_iff.mpr fun hmem => ?_
      obtain ⟨pair, hpair, hname⟩ := List.mem_map.mp hmem
      exact (h pair hpair).ne hnamed.isName hname
    rw [fullExpression?_jobReference hnamed.isName]
    show Except.ok ((binding.lookup? (jobReference job)).getD _) = _
    rw [hnone]
    rfl

/-- A substitution of foreign names leaves the graph of a document alone. -/
theorem IsWired.substitute {binding : Binding} (hforeign : ∀ pair ∈ binding, IsForeign pair.1)
    {document : Object} {value : Json} {w : Wiring} (h : IsWired document w)
    (hsubstitute : binding.substitute (.object document) = .ok value) :
    ∃ document', value = .object document' ∧ IsWired document' w := by
  refine Binding.substitute_object hsubstitute h
    (fun document value hw hfirst => hw.mapStrings (spares_binding hforeign) hfirst)
    (fun inlined hinlined document value hw hsecond => ?_)
  refine hw.mapStrings (spares_renaming fun pair hpair => ?_) hsecond
  obtain ⟨bound, hbound, hname, -⟩ :=
    exists_of_mem_right (Binding.toRenaming_eq_ok.mp hinlined) hpair
  rw [hname]
  exact hforeign bound hbound

/-- The names of inputs are foreign. -/
theorem isForeign_inputs (value : Json) : ∀ pair ∈ Binding.ofValue "inputs" value, IsForeign pair.1 := by
  intro pair hpair
  obtain ⟨suffix, hname, -⟩ := Binding.exists_access_of_mem_ofValue "inputs" value pair hpair
  rw [hname]
  refine ⟨?_, fun job hjob => ?_⟩
  · intro c hc
    cases hc
    decide
  · rw [Bool.eq_false_iff, ne_eq, occursAt_iff]
    rintro ⟨-, rest, hsplit, -⟩
    have hhead : 'j' = 'i' := (List.cons.inj hsplit).1
    revert hhead
    decide

/-- The names of the outputs of call sites are foreign: a reference to a job has one dot. -/
theorem isForeign_outputs {sites : List CallSite} (hsites : ∀ site ∈ sites, IsName site.name) :
    ∀ pair ∈ outputsBinding sites, IsForeign pair.1 := by
  intro pair hpair
  obtain ⟨site, hsite, hpair⟩ := List.mem_flatMap.mp hpair
  obtain ⟨context, hcontext, hpair⟩ := List.mem_flatMap.mp hpair
  obtain ⟨suffix, hname, -⟩ := Binding.exists_access_of_mem_ofValue _ _ pair hpair
  rw [hname]
  have hcases := context_cases hcontext
  refine ⟨?_, fun job hjob => ?_⟩
  · intro c hc
    rcases hcases with rfl | rfl <;> (cases hc; decide)
  · rw [Bool.eq_false_iff, ne_eq, occursAt_iff]
    rintro ⟨-, rest, hsplit, -⟩
    rcases hcases with rfl | rfl
    · have hhead : 'j' = 'n' := (List.cons.inj hsplit).1
      revert hhead
      decide
    · have hafter : job ++ [' '] = site.name ++ (".outputs" ++ suffix ++ rest) := by
        have hlead : ("jobs." : Text) ++ (job ++ [' '])
            = "jobs." ++ (site.name ++ (".outputs" ++ suffix ++ rest)) := by
          unfold jobReference at hsplit
          simpa using hsplit
        exact List.append_cancel_left hlead
      have hdot : ∀ c ∈ ((".outputs" : Text) ++ suffix ++ rest).head?, isJobIdChar c = false := by
        intro c hc
        cases hc
        decide
      obtain ⟨-, hblank⟩ := run_append_inj hjob.chars (hsites site hsite).chars (by decide) hdot hafter
      have hhead : ' ' = '.' := (List.cons.inj hblank).1
      revert hhead
      decide

end CachedWorkflow
