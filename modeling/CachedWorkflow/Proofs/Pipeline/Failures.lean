import CachedWorkflow.Proofs.Json.Shape
import CachedWorkflow.Proofs.Pipeline.Expansion

/-!
# Proofs: failures of expansion

What can be wrong with a document that is expanded is that a place holds a value of the wrong kind, that
a field or an input is missing, or that a template is malformed (`IsFault`). Every other failure comes
from a document that it calls (`faults_or_called_of_expandDocument`).
-/

namespace CachedWorkflow

variable {α : Type}

/-- What can be wrong with a document by itself. -/
inductive IsFault : Error → Prop where
  | wrongKind (location : Text) (expected : Expectation) (found : Kind) :
      IsFault (.wrongKind location expected found)
  | missingField (location field : Text) : IsFault (.missingField location field)
  | malformedTemplate (template : Text) : IsFault (.malformedTemplate template)
  | missingInput (job input pipeline : Text) : IsFault (.missingInput job input pipeline)

/-- The computation fails by faults of a document only. -/
abbrev Faults (x : Except Error α) : Prop := FailsWith IsFault x

/-! ## Shapes -/

theorem isFault_of_isMisshapen {e : Error} (h : IsMisshapen e) : IsFault e := by
  cases h with
  | wrongKind location expected found => exact .wrongKind location expected found
  | missingField location field => exact .missingField location field

theorem faults_of_failsByShape {x : Except Error α} (h : FailsByShape x) : Faults x :=
  h.mono fun _ => isFault_of_isMisshapen

theorem faults_asObject (location : Text) (value : Json) : Faults (value.asObject location) :=
  faults_of_failsByShape (failsByShape_asObject location value)

theorem faults_asString (location : Text) (value : Json) : Faults (value.asString location) :=
  faults_of_failsByShape (failsByShape_asString location value)

theorem faults_asBool (location : Text) (value : Json) : Faults (value.asBool location) :=
  faults_of_failsByShape (failsByShape_asBool location value)

theorem faults_require (object : Object) (field location : Text) : Faults (object.require field location) :=
  faults_of_failsByShape (failsByShape_require object field location)

theorem faults_readNeeds (job : Object) (location : Text) : Faults (readNeeds job location) :=
  faults_of_failsByShape (failsByShape_readNeeds job location)

/-! ## Passes over string leaves -/

section

variable {f : Text → Except Error (Option Json)}

mutual

theorem faults_mapStrings (hf : ∀ text, Faults (f text)) :
    ∀ value : Json, Faults (value.mapStrings f)
  | .string text => by
    rw [Json.mapStrings]
    exact (hf text).map
  | .array items => by
    rw [Json.mapStrings]
    exact (faults_mapItems hf items).map
  | .object fields => by
    rw [Json.mapStrings]
    exact (faults_mapFields hf fields).map
  | .null | .bool _ | .number _ => by
    rw [Json.mapStrings]
    exact failsWith_ok

theorem faults_mapItems (hf : ∀ text, Faults (f text)) :
    ∀ items : List Json, Faults (Json.mapItems f items)
  | [] => by
    rw [Json.mapItems]
    exact failsWith_ok
  | item :: rest => by
    rw [Json.mapItems]
    exact (faults_mapStrings hf item).bind fun _ =>
      (faults_mapItems hf rest).bind fun _ => failsWith_ok

theorem faults_mapFields (hf : ∀ text, Faults (f text)) :
    ∀ fields : List (Text × Json), Faults (Json.mapFields f fields)
  | [] => by
    rw [Json.mapFields]
    exact failsWith_ok
  | (key, value) :: rest => by
    rw [Json.mapFields]
    exact (faults_mapStrings hf value).bind fun _ =>
      (faults_mapFields hf rest).bind fun _ => failsWith_ok

end

end

/-! ## Templates -/

theorem faults_scan (template : Text) : Faults (Template.scan template) := by
  rw [Template.scan]
  cases Template.split .literal template <;> simp [IsFault.malformedTemplate]

theorem faults_fullExpression? (template : Text) :
    Faults (Template.fullExpression? template) := by
  rw [Template.fullExpression?]
  split
  · exact (faults_scan template).map
  · exact failsWith_ok

theorem faults_template_toExpression (template : Text) :
    Faults (Template.toExpression template) := by
  refine (faults_fullExpression? template).bind fun expression? => ?_
  cases expression? with
  | some expression => exact failsWith_ok
  | none => exact (faults_scan template).map

mutual

theorem faults_toJsonTemplate : ∀ value : Json, Faults value.toJsonTemplate
  | .string text => by
    rw [Json.toJsonTemplate]
    exact (faults_template_toExpression text).bind fun _ => failsWith_ok
  | .array items => by
    rw [Json.toJsonTemplate]
    exact (faults_itemTemplates items).bind fun _ => failsWith_ok
  | .object fields => by
    rw [Json.toJsonTemplate]
    exact (faults_fieldTemplates fields).bind fun _ => failsWith_ok
  | .null | .bool _ | .number _ => by
    rw [Json.toJsonTemplate]
    exact failsWith_ok

theorem faults_itemTemplates : ∀ items : List Json, Faults (Json.itemTemplates items)
  | [] => by
    rw [Json.itemTemplates]
    exact failsWith_ok
  | item :: rest => by
    rw [Json.itemTemplates]
    exact (faults_toJsonTemplate item).bind fun _ =>
      (faults_itemTemplates rest).bind fun _ => failsWith_ok

theorem faults_fieldTemplates :
    ∀ fields : List (Text × Json), Faults (Json.fieldTemplates fields)
  | [] => by
    rw [Json.fieldTemplates]
    exact failsWith_ok
  | (key, value) :: rest => by
    rw [Json.fieldTemplates]
    exact (faults_toJsonTemplate value).bind fun _ =>
      (faults_fieldTemplates rest).bind fun _ => failsWith_ok

end

theorem faults_toExpression (value : Json) : Faults value.toExpression := by
  cases value with
  | string text => exact faults_template_toExpression text
  | array items =>
    exact (faults_toJsonTemplate _).bind fun _ => (faults_scan _).bind fun _ =>
      failsWith_ok
  | object fields =>
    exact (faults_toJsonTemplate _).bind fun _ => (faults_scan _).bind fun _ =>
      failsWith_ok
  | null => exact failsWith_ok
  | bool value => exact failsWith_ok
  | number value => exact failsWith_ok

theorem faults_renaming (pairs : Renaming) (value : Json) :
    Faults (pairs.applyToValue value) := by
  refine faults_mapStrings (fun text => ?_) value
  unfold Renaming.applyToTemplate
  split
  · exact failsWith_ok
  · exact (faults_scan text).map.map

theorem faults_binding (binding : Binding) (value : Json) :
    Faults (binding.applyToValue value) := by
  unfold Binding.applyToValue
  split
  · exact failsWith_ok
  · exact faults_mapStrings (fun text => (faults_fullExpression? text).map) value

theorem faults_substitute (binding : Binding) (value : Json) :
    Faults (binding.substitute value) := by
  have hinlined : Faults binding.toRenaming := .mapM fun bound =>
    (faults_toExpression bound.2).bind fun _ => failsWith_ok
  exact hinlined.bind fun _ => (faults_binding binding value).bind fun _ =>
    faults_renaming _ _

/-! ## Call sites -/

theorem faults_addPrefix (lead path : Text) (document : Object) :
    Faults (addPrefix lead path document) := by
  refine (faults_require _ _ _).bind fun value => (faults_asObject _ value).bind
    fun jobs => ?_
  have hprefixed : Faults (jobs.mapM (prefixJob (path ++ ":jobs") lead jobs)) := by
    refine .mapM fun entry => (faults_asObject _ entry.2).bind fun job => ?_
    split
    · exact (faults_readNeeds _ _).bind fun _ => failsWith_ok
    · exact failsWith_ok
  exact hprefixed.bind fun _ => (faults_renaming _ _).bind fun _ =>
    faults_asObject _ _

theorem faults_completeInput (site path : Text) (bound : Object) (declared : Text × Json) :
    Faults (completeInput site path bound declared) := by
  obtain ⟨name, declaration⟩ := declared
  have hrequired : ∀ required : Bool,
      Faults (if required then .error (.missingInput site name path) else .ok bound) := by
    intro required
    cases required with
    | true => exact failsWith_error.mpr (.missingInput site name path)
    | false => exact failsWith_ok
  unfold completeInput
  dsimp only
  split
  · exact failsWith_ok
  · split
    · exact failsWith_ok
    · split
      · exact (faults_asBool _ _).bind hrequired
      · exact failsWith_ok.bind hrequired

theorem faults_boundInputs (site path : Text) (job child : Object) :
    Faults (boundInputs site path job child) := by
  have hcomplete : ∀ bound declared : Object,
      Faults (declared.foldlM (completeInput site path) bound) := fun _ _ =>
    .foldlM fun bound declared => faults_completeInput site path bound declared
  unfold boundInputs
  dsimp only
  split
  · exact failsWith_ok.bind fun bound => hcomplete bound _
  · exact failsWith_ok.bind fun bound => hcomplete bound _
  · exact (faults_asObject _ _).bind fun bound => hcomplete bound _

theorem faults_childJob (path : Text) (siteNeeds : List Text) (entry : Text × Json) :
    Faults (childJob path siteNeeds entry) := by
  refine (faults_asObject _ entry.2).bind fun job => ?_
  split
  · exact failsWith_ok
  · refine (faults_readNeeds job entry.1).bind fun needs => ?_
    split <;> exact failsWith_ok

theorem faults_instantiate (name location path : Text) (taken : List Text) (job child : Object) :
    Faults (instantiate name location path taken job child) := by
  unfold instantiate
  refine (faults_addPrefix _ _ _).bind fun renamed => (faults_boundInputs _ _ _ _).bind fun inputs => ?_
  refine (faults_substitute _ _).bind fun value => (faults_asObject _ value).bind fun bound => ?_
  refine (faults_readNeeds _ _).bind fun needs => (faults_require _ _ _).bind fun declared => ?_
  refine (faults_asObject _ declared).bind fun jobs => ?_
  exact FailsWith.bind (.mapM fun entry => faults_childJob path needs entry) fun _ => failsWith_ok

theorem faults_neededJob (need : Text) : Faults (neededJob need) := by
  unfold neededJob
  refine (faults_fullExpression? need).bind fun expression? => ?_
  split <;> exact failsWith_ok

theorem faults_rewireJobs (sites : List CallSite) (jobs : Object) : Faults (rewireJobs sites jobs) := by
  unfold rewireJobs
  split
  · exact failsWith_ok
  · refine .mapM fun entry => (faults_asObject _ entry.2).bind fun job => ?_
    refine (faults_readNeeds _ _).bind fun needs => ?_
    have hrewired : Faults (needs.mapM (rewireNeed sites)) := .mapM fun need =>
      (faults_neededJob need).bind fun name => by split <;> exact failsWith_ok
    have hchanged : Faults (needs.anyM (namesSite sites)) := .anyM fun need =>
      (faults_neededJob need).bind fun name => failsWith_ok
    refine hrewired.bind fun rewired => hchanged.bind fun changed => ?_
    split <;> exact failsWith_ok

/-! ## Documents -/

/-- The document has a job that calls the pipeline at the path. -/
def HasCall (file : Text) (document : Json) (path : Text) : Prop :=
  ∃ (fields jobs : Object) (name : Text) (job : Object) (target : Text), document = .object fields ∧
    fields.get? "jobs" = some (.object jobs) ∧ (name, .object job) ∈ jobs ∧
    job.get? callProperty = some (.string target) ∧ path = calledPath file target

section

variable {file : Text} {f : Text → Except Error Object} {error : Error}

/-- If a job cannot be placed, it has a fault, or the document that it calls cannot be expanded. -/
theorem faults_or_called_of_placeJob {declared : Object} {placed : Placed} {entry : Text × Json}
    (h : placeJob file declared f placed entry = .error error) : IsFault error ∨
      ∃ job target, entry.2 = .object job ∧ Object.get? job callProperty = some (.string target) ∧
        f (calledPath file target) = .error error := by
  obtain ⟨name, value⟩ := entry
  unfold placeJob at h
  rcases bind_eq_error.mp h with hshape | ⟨job, hjob, hcase⟩
  · exact .inl (faults_asObject _ value error hshape)
  obtain rfl := Json.asObject_eq_ok.mp hjob
  cases hcall : Object.get? job callProperty with
  | none =>
    rw [hcall] at hcase
    cases hcase
  | some target =>
    rw [hcall] at hcase
    rcases bind_eq_error.mp hcase with hshape | ⟨text, htext, hcalled⟩
    · exact .inl (faults_asString _ target error hshape)
    obtain rfl := Json.asString_eq_ok.mp htext
    rcases bind_eq_error.mp hcalled with hchild | ⟨child, -, hinstance⟩
    · exact .inr ⟨job, text, rfl, hcall, hchild⟩
    rcases bind_eq_error.mp hinstance with hfault | ⟨result, -, hplaced⟩
    · exact .inl (faults_instantiate _ _ _ _ _ _ error hfault)
    · cases hplaced

/-- If a document cannot be expanded, it has a fault, or a document that it calls cannot be expanded. -/
theorem faults_or_called_of_expandDocument {document : Json}
    (h : expandDocument file f document = .error error) :
    IsFault error ∨ ∃ path, HasCall file document path ∧ f path = .error error := by
  unfold expandDocument at h
  rcases bind_eq_error.mp h with hshape | ⟨fields, hfields, hrequire⟩
  · exact .inl (faults_asObject _ document error hshape)
  rcases bind_eq_error.mp hrequire with hmissing | ⟨value, hvalue, hobject⟩
  · exact .inl (faults_require _ _ _ error hmissing)
  rcases bind_eq_error.mp hobject with hshape | ⟨jobs, hjobs, hpass⟩
  · exact .inl (faults_asObject _ value error hshape)
  rw [Json.asObject_eq_ok.mp hjobs] at hvalue
  rw [Json.asObject_eq_ok.mp hfields]
  rcases bind_eq_error.mp hpass with hplace | ⟨placed, -, hrewire⟩
  · obtain ⟨⟨name, value⟩, hentry, before, hstep⟩ := exists_of_foldlM_eq_error hplace
    refine (faults_or_called_of_placeJob hstep).imp_right ?_
    rintro ⟨job, target, rfl, htarget, hcalled⟩
    exact ⟨calledPath file target, ⟨fields, jobs, name, job, target, rfl,
      Object.require_eq_ok.mp hvalue, hentry, htarget, rfl⟩, hcalled⟩
  rcases bind_eq_error.mp hrewire with hfault | ⟨rewired, -, hsubstitute⟩
  · exact .inl (faults_rewireJobs _ _ error hfault)
  rcases bind_eq_error.mp hsubstitute with hfault | ⟨result, -, hresult⟩
  · exact .inl (faults_substitute _ _ error hfault)
  · exact .inl (faults_asObject _ result error hresult)

/-- If a document can be expanded, so can all documents that it calls. -/
theorem called_of_expandDocument {document : Json} {result : Object} {path : Text}
    (h : expandDocument file f document = .ok result) (hcall : HasCall file document path) :
    ∃ child, f path = .ok child := by
  obtain ⟨fields, jobs, name, job, target, rfl, hjobs, hentry, htarget, rfl⟩ := hcall
  obtain ⟨fields', jobs', placed, -, hfields, hjobs', hplaced, -⟩ := expandDocument_stages h
  obtain rfl := Json.object.inj hfields
  obtain rfl := Json.object.inj (Option.some.inj (hjobs.symm.trans hjobs'))
  have hall := foldlM_induction (motive := fun seen _ => ∀ name job target,
    (name, Json.object job) ∈ seen → Object.get? job callProperty = some (.string target) →
      ∃ child, f (calledPath file target) = .ok child) hplaced (by simp) ?_
  · exact hall name job target hentry htarget
  · rintro seen ⟨name, value⟩ rest before after - hseen hstep name' job target hmem htarget
    rcases List.mem_append.mp hmem with hmem | hmem
    · exact hseen name' job target hmem htarget
    · cases List.mem_singleton.mp hmem
      cases placeJob_eq_ok.mp hstep with
      | own hcall =>
        rw [htarget] at hcall
        cases hcall
      | site hcall hchild _ =>
        rw [htarget] at hcall
        cases hcall
        exact ⟨_, hchild⟩

end

end CachedWorkflow
