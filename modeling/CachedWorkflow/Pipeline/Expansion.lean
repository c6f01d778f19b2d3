import CachedWorkflow.Pipeline.CallSite
import CachedWorkflow.Pipeline.Library
import CachedWorkflow.Pipeline.Normal

/-!
# Expanding call sites

Every call site of a document is replaced by the jobs of the pipeline that it calls, whose own call
sites are replaced before. A document that calls itself, directly or through others, is an error.

A library has documents under finitely many names. As no name is opened again while its document is being
expanded, expansion comes to an end.
-/

namespace CachedWorkflow

/-- The jobs of a document that have been placed so far, and the call sites among them. -/
structure Placed where
  /-- The jobs, with those of a child in the place of its call site. -/
  jobs : Object := []
  sites : List CallSite := []

/-- A job of a child. If it needs nothing itself it gets the needs of the call site. -/
def childJob (path : Text) (siteNeeds : List Text) (entry : Text × Json) :
    Except Error (Text × Json) := do
  let (name, job) := entry
  let job ← job.asObject (path ++ ":jobs." ++ name)
  if siteNeeds.isEmpty then .ok (name, .object job)
  else
    let needs ← readNeeds job name
    if needs.isEmpty then .ok (name, .object (job.insert "needs" (Json.ofTexts siteNeeds)))
    else .ok (name, .object job)

/-- The jobs and outputs that take the place of the call site `name`, made from its expanded
child. -/
def instantiate (name location path : Text) (taken : List Text) (job child : Object) :
    Except Error (Object × CallSite) := do
  let child ← addPrefix (freshPrefix taken name) path child
  let inputs ← boundInputs name path job child
  let child ← (Binding.ofValue "inputs" (.object inputs)).substitute (.object child)
  let child ← child.asObject path
  let outputs := ((callInterface child).bind (·.get? "outputs")).getD .null
  let needs ← readNeeds job location
  let jobs ← (← child.require "jobs" path).asObject (path ++ ":jobs")
  let jobs ← jobs.mapM (childJob path needs)
  .ok (jobs, ⟨name, jobs.map Prod.fst, outputs⟩)

/-- Places one job of the document `file`, or the child of a call site. -/
def placeJob (file : Text) (declared : Object) (expandChild : Text → Except Error Object)
    (placed : Placed) (entry : Text × Json) : Except Error Placed := do
  let (name, job) := entry
  let location := file ++ ":jobs." ++ name
  let job ← job.asObject location
  match job.get? callProperty with
  | none => .ok { placed with jobs := placed.jobs.insert name (.object job) }
  | some target =>
    let target ← target.asString (location ++ "." ++ callProperty)
    let path := calledPath file target
    let child ← expandChild path
    let (jobs, site) ← instantiate name location path (declared.keys ++ placed.jobs.keys) job child
    .ok { jobs := placed.jobs.insertAll jobs, sites := placed.sites ++ [site] }

/-- Replaces the call sites of a document that has been loaded from `file`, given how to expand the
pipelines that it calls. -/
def expandDocument (file : Text) (expandChild : Text → Except Error Object) (document : Json) :
    Except Error Object := do
  let document ← document.asObject file
  let jobs ← (← document.require "jobs" file).asObject (file ++ ":jobs")
  let placed ← jobs.foldlM (placeJob file jobs expandChild) {}
  let jobs ← rewireJobs placed.sites placed.jobs
  let document := document.insert "jobs" (.object jobs)
  let document ← (outputsBinding placed.sites).substitute (.object document)
  document.asObject file

/-! ## Termination -/

/-- The names under which a library has documents. -/
noncomputable def Library.names (library : Library) : List Text := library.finite.choose

theorem Library.mem_names (library : Library) {path : Text} {document : Json}
    (h : library.load path = .ok document) : Path.normalize path ∈ library.names :=
  library.finite.choose_spec h

/-- The names of a library that are not among those of the opened documents. -/
noncomputable def Library.unopened (library : Library) (opened : List Text) : List Text :=
  library.names.filter fun name => !opened.contains name

theorem Library.length_unopened_lt (library : Library) {opened : List Text} {name : Text}
    (hname : name ∈ library.names) (hopened : name ∉ opened) :
    (library.unopened (opened ++ [name])).length < (library.unopened opened).length := by
  have hsub : library.unopened (opened ++ [name])
      = (library.unopened opened).filter (· ≠ name) := by
    simp only [unopened, List.filter_filter]
    refine List.filter_congr fun i _ => ?_
    simp [Bool.and_comm]
  rw [hsub]
  refine List.length_filter_lt_length_iff_exists.mpr ⟨name, ?_, by simp⟩
  simp [unopened, hname, hopened]

/-! ## Expansion -/

/-- Loads a document and replaces its call sites. `opened` lists the normal paths of the documents
that are being expanded, each of which calls the next. -/
def expandFrom (library : Library) (opened : List Text) (file : Text) : Except Error Object :=
  let name := Path.normalize file
  if _ : name ∈ opened then
    .error (.cycle (opened.dropWhile (· ≠ name) ++ [name]))
  else
    match _ : library.load file with
    | .error error => .error error
    | .ok document => expandDocument file (expandFrom library (opened ++ [name])) document
termination_by (library.unopened opened).length
decreasing_by exact library.length_unopened_lt (library.mem_names (by assumption)) ‹_›

/-- The document at a path without call sites. -/
def expand (library : Library) (file : Text) : Except Error Object := expandFrom library [] file

/-- The document at a path without call sites and in normal form. -/
def preprocess (library : Library) (file : Text) : Except Error Object := do
  let document ← expand library file
  normalizeDocument document

/-- The workflow that the document at a path is compiled into. -/
def compileFile (library : Library) (file : Text) (config : Configuration) :
    Except Error Object := do
  let document ← preprocess library file
  compile document config

end CachedWorkflow
