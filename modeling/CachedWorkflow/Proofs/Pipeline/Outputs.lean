import CachedWorkflow.Proofs.Pipeline.Expansion
import CachedWorkflow.Proofs.Pipeline.Library
import CachedWorkflow.Proofs.Template.Rendering

/-!
# Proofs: the outputs of call sites

References to the outputs of a call site are replaced once everything is in place, in two passes
(`PutsIn`). The second pass does not look again at what it has put in. So a reference is only left in the
expanded document if an output mentions it itself, or if an output is not the text of an expression
(`expand_puts_in_outputs`); and it is left if such an output is put into a template that holds more than
the reference (`not_forall_no_output_reference`).
-/

namespace CachedWorkflow

open Renaming Template

/-- The names of the call sites among jobs. -/
def siteNames (jobs : Object) : List Text :=
  (jobs.filter fun entry => (entry.2.member? callProperty).isSome).map Prod.fst

/-- A call site of the document `file` has the outputs that its child declares, which is expanded on its
own, gets a prefix and has its inputs put in. -/
def HasOutputs (library : Library) (file : Text) (jobs : Object) (site : CallSite) : Prop :=
  ∃ job target child taken renamed inputs bound,
    (site.name, Json.object job) ∈ jobs ∧ Object.get? job callProperty = some (.string target) ∧
    expand library (calledPath file target) = .ok child ∧
    addPrefix (freshPrefix taken site.name) (calledPath file target) child = .ok renamed ∧
    boundInputs site.name (calledPath file target) job renamed = .ok inputs ∧
    (Binding.ofInputs inputs).substitute (.object renamed) = .ok (.object bound) ∧
    site.outputs = ((callInterface bound).bind (·.get? "outputs")).getD .null

/-- An output that cannot be put in as a part of an expression: its name has a quote without another one,
or its text is empty or has a brace at one of its ends. -/
def IsIrregular (pair : Text × Text) : Prop :=
  endsQuoted pair.1 = true ∨ pair.2 = [] ∨ pair.2.head? = some '}' ∨ pair.2.getLast? = some '}'

/-- What becomes of a document in which the outputs of call sites are put in, inlined as given. -/
structure PutsIn (sites : List CallSite) (inlined : Renaming) (document result : Json) : Prop where
  toRenaming : (outputsBinding sites).toRenaming = .ok inlined
  /-- A leaf that is exactly one output takes the output, as the second pass rewrites it. -/
  whole : ∀ position leaf name value, document.at? position = some (.string leaf) →
    fullExpression? leaf = .ok (some name) → (outputsBinding sites).lookup? name = some value →
    ∃ bound, result.at? position = some bound ∧ inlined.applyToValue value = .ok bound
  /-- Of any other leaf the second pass rewrites the expressions. -/
  mixed : ∀ position leaf tokens, document.at? position = some (.string leaf) →
    scan leaf = .ok tokens →
    (∀ name, fullExpression? leaf = .ok (some name) → (outputsBinding sites).lookup? name = none) →
    result.at? position = some (.string (embed (tokens.map inlined.rewritten)))
  /-- This pass replaces all references to the outputs of call sites. -/
  rewires : ∀ site ∈ sites, ∀ context ∈ contexts, ∀ expression,
    ∃ parts, Rewires inlined (outputsReference context site.name) expression parts
  /-- A reference that is left has been introduced by an output. -/
  residue : ∀ site ∈ sites, ∀ context ∈ contexts, ∀ leaf ∈ result.leaves, ∀ tokens,
    scan leaf = .ok tokens → ∀ source, .expression source ∈ tokens →
    Mentions source (outputsReference context site.name) →
    ∃ pair ∈ inlined, (∃ rest, Introduces pair.2 rest (outputsReference context site.name)) ∨
      IsIrregular pair

/-! ## References -/

section

variable {sites : List CallSite} {inlined : Renaming}

theorem mem_outputsBinding {site : CallSite} (hsite : site ∈ sites) {context : Text}
    (hcontext : context ∈ contexts) :
    (outputsReference context site.name, site.outputs) ∈ outputsBinding sites :=
  List.mem_flatMap.mpr ⟨site, hsite, List.mem_flatMap.mpr ⟨context, hcontext,
    Object.mem_of_get? (Binding.lookup?_ofValue_self _ _)⟩⟩

theorem exists_mem_inlined (h : (outputsBinding sites).toRenaming = .ok inlined) {site : CallSite}
    (hsite : site ∈ sites) {context : Text} (hcontext : context ∈ contexts) :
    ∃ pair ∈ inlined, pair.1 = outputsReference context site.name := by
  have hname : outputsReference context site.name ∈ inlined.map Prod.fst := by
    rw [Binding.names_of_toRenaming h]
    exact Object.mem_keys_of_mem (mem_outputsBinding hsite hcontext)
  exact List.mem_map.mp hname

theorem head?_of_mem_inlined (h : (outputsBinding sites).toRenaming = .ok inlined) :
    ∀ pair ∈ inlined, ∀ c ∈ pair.1.head?, isIdentifierChar c = true := by
  intro pair hpair c hc
  obtain ⟨bound, hbound, hname, -⟩ := exists_of_mem_right (Binding.toRenaming_eq_ok.mp h) hpair
  obtain ⟨site, -, hbound⟩ := List.mem_flatMap.mp hbound
  obtain ⟨context, hcontext, hbound⟩ := List.mem_flatMap.mp hbound
  obtain ⟨suffix, hs, -⟩ := Binding.exists_access_of_mem_ofValue _ _ bound hbound
  rw [hname, hs] at hc
  rcases context_cases hcontext with rfl | rfl <;> (cases hc; decide)

theorem endsQuoted_of_mem_inlined (h : (outputsBinding sites).toRenaming = .ok inlined) :
    ∀ pair ∈ inlined, endsQuoted pair.2 = false := by
  intro pair hpair
  obtain ⟨bound, -, -, hexpression⟩ := exists_of_mem_right (Binding.toRenaming_eq_ok.mp h) hpair
  exact Json.endsQuoted_toExpression hexpression

/-- An output is final for a reference that it does not introduce. -/
theorem settles_of_mem_inlined (h : (outputsBinding sites).toRenaming = .ok inlined) {reference : Text}
    {pair : Text × Text} (hpair : pair ∈ inlined) (hregular : ¬ IsIrregular pair)
    (hnone : ∀ rest, ¬ Introduces pair.2 rest reference) : Settles reference pair := by
  obtain ⟨bound, -, -, hexpression⟩ := exists_of_mem_right (Binding.toRenaming_eq_ok.mp h) hpair
  obtain ⟨hquote, hne, hhead, hlast⟩ : ¬ endsQuoted pair.1 = true ∧ pair.2 ≠ [] ∧ pair.2.head? ≠ some '}' ∧
      pair.2.getLast? ≠ some '}' := by
    simpa only [IsIrregular, not_or] using hregular
  obtain ⟨c, rest, hcons⟩ := List.exists_cons_of_ne_nil hne
  refine ⟨Bool.eq_false_iff.mpr hquote, head?_of_mem_inlined h pair hpair, ?_, hnone⟩
  refine Json.isPlaceable_toExpression hexpression ⟨c, by rw [hcons]; rfl, ?_⟩ hlast
  rintro rfl
  rw [hcons] at hhead
  exact hhead rfl

/-! ## Putting outputs in -/

theorem putsIn_of_substitute (hsites : ∀ site ∈ sites, ∀ c ∈ site.name, isJobIdChar c = true)
    {document result : Json} (h : (outputsBinding sites).substitute document = .ok result) :
    ∃ inlined, PutsIn sites inlined document result := by
  obtain ⟨inlined, hinlined, hpasses⟩ := bind_eq_ok.mp h
  obtain ⟨between, hfirst, hsecond⟩ := bind_eq_ok.mp hpasses
  refine ⟨inlined, hinlined, ?_, ?_, ?_, ?_⟩
  · intro position leaf name value hleaf hfull hvalue
    obtain ⟨inlined', bound, hinlined', hbound⟩ := Binding.substitute_leaf hleaf hfull hvalue h
    rw [hinlined] at hinlined'
    cases hinlined'
    exact ⟨bound, hbound⟩
  · intro position leaf tokens hleaf hscan hother
    exact Binding.substitute_other hleaf hscan hother hfirst hsecond
  · intro site hsite context hcontext expression
    exact exists_rewires (isReference_outputsReference (isName_context hcontext) (hsites site hsite))
      (exists_mem_inlined hinlined hsite hcontext) (head?_of_mem_inlined hinlined)
      (endsQuoted_of_mem_inlined hinlined) expression
  · intro site hsite context hcontext leaf hleaf tokens hscan source hsource hmentions
    by_contra hnone
    have hid := isReference_outputsReference (isName_context hcontext) (hsites site hsite)
    refine not_mentions_of_settles hid (exists_mem_inlined hinlined hsite hcontext)
      (fun pair hpair => ?_) hsecond hleaf hscan hsource hmentions
    refine settles_of_mem_inlined hinlined hpair (fun h => ?_) fun rest h => ?_
    · exact hnone ⟨pair, hpair, .inr h⟩
    · exact hnone ⟨pair, hpair, .inl ⟨rest, h⟩⟩

end

/-! ## Call sites -/

section

variable {library : Library} {file : Text} {jobs : Object}

/-- What takes the place of a call site has the outputs of its child. -/
theorem hasOutputs_of_instantiate {name location target : Text} {taken : List Text}
    {job child spliced : Object} {site : CallSite} (hjob : (name, Json.object job) ∈ jobs)
    (htarget : Object.get? job callProperty = some (.string target))
    (hchild : expand library (calledPath file target) = .ok child)
    (h : instantiate name location (calledPath file target) taken job child = .ok (spliced, site)) :
    site.name = name ∧ HasOutputs library file jobs site := by
  obtain ⟨renamed, inputs, bound, -, -, hrenamed, hinputs, hvalue, -, -, -, rfl⟩ := instantiate_stages h
  exact ⟨rfl, job, target, child, taken, renamed, inputs, bound, hjob, htarget, hchild, hrenamed, hinputs,
    hvalue, rfl⟩

theorem siteNames_append (jobs jobs' : Object) :
    siteNames (jobs ++ jobs') = siteNames jobs ++ siteNames jobs' := by
  rw [siteNames, List.filter_append, List.map_append, siteNames, siteNames]

/-- The call sites that are recorded are those of the document, in order. -/
theorem sites_of_placed {f : Text → Except Error Object}
    (hf : ∀ path child, f path = .ok child → expand library path = .ok child) {placed : Placed}
    (h : jobs.foldlM (placeJob file jobs f) {} = .ok placed) :
    placed.sites.map CallSite.name = siteNames jobs ∧
      ∀ site ∈ placed.sites, HasOutputs library file jobs site := by
  refine foldlM_induction (motive := fun seen placed => placed.sites.map CallSite.name = siteNames seen ∧
    ∀ site ∈ placed.sites, HasOutputs library file jobs site) h ⟨rfl, fun _ h => nomatch h⟩ ?_
  rintro seen ⟨name, value⟩ rest between placed' hsplit ⟨hnames, hsites⟩ hstep
  have hmem : (name, value) ∈ jobs := by
    rw [hsplit]
    exact List.mem_append_right seen List.mem_cons_self
  rw [siteNames_append, ← hnames]
  cases placeJob_eq_ok.mp hstep with
  | @own _ job hcall =>
    have hnone : siteNames [(name, .object job)] = [] := by
      simp [siteNames, Json.member?, Json.object?, hcall]
    rw [hnone, List.append_nil]
    exact ⟨rfl, hsites⟩
  | @site _ text job child spliced site hcall hchild hinstance =>
    obtain ⟨hname, houtputs⟩ := hasOutputs_of_instantiate hmem hcall (hf _ child hchild) hinstance
    have hsome : siteNames [(name, .object job)] = [name] := by
      simp [siteNames, Json.member?, Json.object?, hcall]
    rw [hsome, List.map_append, List.map_singleton, hname]
    refine ⟨rfl, ?_⟩
    rw [List.forall_mem_append, List.forall_mem_singleton]
    exact ⟨hsites, houtputs⟩

/-- Expansion puts the outputs of the children in for all references to the outputs of call sites. A
reference is only left where an output introduces it. -/
theorem expand_puts_in_outputs {document result : Object}
    (hload : library.load file = .ok (.object document))
    (hjobs : document.get? "jobs" = some (.object jobs))
    (hnames : ∀ name ∈ jobs.keys, ∀ c ∈ name, isJobIdChar c = true)
    (hresult : expand library file = .ok result) :
    ∃ placed rewired inlined,
      jobs.foldlM (placeJob file jobs (expandFrom library [Path.normalize file])) {} = .ok placed ∧
      rewireJobs placed.sites placed.jobs = .ok rewired ∧
      placed.sites.map CallSite.name = siteNames jobs ∧
      (∀ site ∈ placed.sites, HasOutputs library file jobs site) ∧
      PutsIn placed.sites inlined (.object (document.insert "jobs" (.object rewired)))
        (.object result) := by
  obtain ⟨-, value, hvalue, hdocument⟩ := expandFrom_eq_ok.mp hresult
  obtain rfl : Json.object document = value := Except.ok.inj (hload.symm.trans hvalue)
  unfold expandDocument at hdocument
  replace hdocument := eq_ok_of_bind (Json.asObject_eq_ok.mpr rfl) hdocument
  replace hdocument := eq_ok_of_bind (Object.require_eq_ok.mpr hjobs) hdocument
  replace hdocument := eq_ok_of_bind (Json.asObject_eq_ok.mpr rfl) hdocument
  obtain ⟨placed, hplaced, hdocument⟩ := bind_eq_ok.mp hdocument
  obtain ⟨rewired, hrewired, hdocument⟩ := bind_eq_ok.mp hdocument
  obtain ⟨value, hvalue, hdocument⟩ := bind_eq_ok.mp hdocument
  obtain rfl := Json.asObject_eq_ok.mp hdocument
  have hf : ∀ path child, expandFrom library ([] ++ [Path.normalize file]) path = .ok child →
      expand library path = .ok child :=
    fun path child hchild => expandFrom_of_subset (List.nil_subset _) hchild
  obtain ⟨hsiteNames, hsites⟩ := sites_of_placed hf hplaced
  have hchars : ∀ site ∈ placed.sites, ∀ c ∈ site.name, isJobIdChar c = true := by
    intro site hsite
    obtain ⟨job, -, -, -, -, -, -, hmem, -⟩ := hsites site hsite
    exact hnames site.name (Object.mem_keys_of_mem hmem)
  obtain ⟨inlined, hputs⟩ := putsIn_of_substitute hchars hvalue
  exact ⟨placed, rewired, inlined, hplaced, hrewired, hsiteNames, hsites, hputs⟩

end

/-! ## A chain of call sites -/

/-- A document with two call sites, the second of which gets an output of the first as its input, and a
job that puts an output of the second into a text. -/
def chainJobs : Object := [
  ("a", .object [(callProperty, .string "a.yml")]),
  ("b", .object [(callProperty, .string "b.yml"),
    ("with", .object [("x", .string (placeholder "needs.a.outputs.o"))])]),
  ("c", .object [("env", .string ("v " ++ placeholder "needs.b.outputs.p"))])]

/-- A child with one job and one output. -/
def chainChild (output value job : Text) : Object := [
  ("on", .object [(callTrigger, .object [("outputs", .object [(output, .string (placeholder value))])])]),
  ("jobs", .object [(job, .object [])])]

/-- The first child passes on an output of its job, the second one its input. -/
def chainLibrary : Library := .ofDocuments [
  ("main.yml", .object [("jobs", .object chainJobs)]),
  ("a.yml", .object (chainChild "o" "jobs.j.outputs.o" "j")),
  ("b.yml", .object (chainChild "p" "inputs.x" "k"))] []

theorem expandFrom_chainChild {opened : List Text} {file output value job : Text}
    (hload : chainLibrary.load file = .ok (.object (chainChild output value job)))
    (hopened : Path.normalize file ∉ opened) :
    expandFrom chainLibrary opened file = .ok (chainChild output value job) := by
  refine expandFrom_eq_ok.mpr ⟨hopened, _, hload, ?_⟩
  rfl

/-- The expanded document: of the second output only the input has been put in. -/
def chainResult : Object := [
  ("jobs", .object [("a-j", .object []), ("b-k", .object []),
    ("c", .object [("env", .string ("v " ++ placeholder "needs.a.outputs.o"))])])]

theorem expand_chain : expand chainLibrary "main.yml" = .ok chainResult := by
  let f := fun path : Text =>
    if path = "a.yml" then Except.ok (chainChild "o" "jobs.j.outputs.o" "j")
    else if path = "b.yml" then Except.ok (chainChild "p" "inputs.x" "k")
    else .error (Error.unparsable path)
  have hexpand : expandDocument "main.yml" f (.object [("jobs", .object chainJobs)])
      = .ok chainResult := by
    decide +kernel
  have hload : chainLibrary.load "main.yml" = .ok (.object [("jobs", .object chainJobs)]) := by
    decide +kernel
  refine expandFrom_eq_ok.mpr ⟨List.not_mem_nil, _, hload, ?_⟩
  refine expandDocument_mono (fun path child hchild => ?_) hexpand
  by_cases ha : path = "a.yml"
  · rw [ha] at hchild ⊢
    cases hchild
    exact expandFrom_chainChild (by decide +kernel) (by decide +kernel)
  · have hnot : f path = if path = "b.yml" then .ok (chainChild "p" "inputs.x" "k")
        else .error (.unparsable path) := if_neg ha
    rw [hnot] at hchild
    by_cases hb : path = "b.yml"
    · rw [if_pos hb] at hchild
      rw [hb]
      cases hchild
      exact expandFrom_chainChild (by decide +kernel) (by decide +kernel)
    · rw [if_neg hb] at hchild
      cases hchild

theorem expand_puts_in_outputs_chain :
    ∃ (placed : Placed) (rewired : Object) (inlined : Renaming),
      rewireJobs placed.sites placed.jobs = .ok rewired ∧
      placed.sites.map CallSite.name = ["a", "b"] ∧
      (∀ site ∈ placed.sites, HasOutputs chainLibrary "main.yml" chainJobs site) ∧
      PutsIn placed.sites inlined (.object [("jobs", .object rewired)]) (.object chainResult) := by
  have hload : chainLibrary.load "main.yml" = .ok (.object [("jobs", .object chainJobs)]) := by
    decide +kernel
  obtain ⟨placed, rewired, inlined, -, hrewired, hnames, houtputs, hputs⟩ :=
    expand_puts_in_outputs hload rfl (by decide +kernel) expand_chain
  have hsites : siteNames chainJobs = ["a", "b"] := by decide +kernel
  exact ⟨placed, rewired, inlined, hrewired, hnames.trans hsites, houtputs, hputs⟩

/-- The names of the jobs of all documents of a library consist of letters, digits, underscores and
dashes. -/
def Library.HasJobNames (library : Library) : Prop :=
  ∀ (path : Text) (document jobs : Object), library.load path = .ok (.object document) →
    document.get? "jobs" = some (.object jobs) → ∀ name ∈ jobs.keys, ∀ c ∈ name, isJobIdChar c = true

theorem hasJobNames_chain : chainLibrary.HasJobNames := by
  intro path document jobs hload hjobs
  obtain ⟨key, hmem, -⟩ := exists_mem_of_load_ofDocuments hload
  simp only [List.mem_cons, List.not_mem_nil, or_false, Prod.mk.injEq, Json.object.injEq] at hmem
  rcases hmem with ⟨-, rfl⟩ | ⟨-, rfl⟩ | ⟨-, rfl⟩ <;> (cases hjobs; decide +kernel)

/-- Expansion leaves references to the outputs of call sites. -/
theorem not_forall_no_output_reference :
    ¬ ∀ (library : Library) (file : Text) (document jobs result : Object), library.HasJobNames →
      library.load file = .ok (.object document) → document.get? "jobs" = some (.object jobs) →
      expand library file = .ok result → ∀ name ∈ siteNames jobs, ∀ context ∈ contexts,
      ∀ leaf ∈ (Json.object result).leaves, ∀ tokens, scan leaf = .ok tokens →
      ∀ source, .expression source ∈ tokens → ¬ Mentions source (outputsReference context name) := by
  intro h
  have hload : chainLibrary.load "main.yml" = .ok (.object [("jobs", .object chainJobs)]) := by
    decide +kernel
  refine h chainLibrary "main.yml" _ chainJobs chainResult hasJobNames_chain hload rfl expand_chain "a"
    (by decide +kernel) "needs" (by decide +kernel) ("v " ++ placeholder "needs.a.outputs.o")
    (by decide +kernel) [.literal "v ", .expression " needs.a.outputs.o ", .literal []]
    (by decide +kernel) " needs.a.outputs.o " (by decide +kernel) ?_
  exact ⟨" ", ".o ", by decide +kernel, by decide +kernel, by decide +kernel, by decide +kernel⟩

end CachedWorkflow
