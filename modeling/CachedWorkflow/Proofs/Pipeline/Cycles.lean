import CachedWorkflow.Proofs.Job.Cycle
import CachedWorkflow.Proofs.Path.Normal
import CachedWorkflow.Proofs.Pipeline.Depth
import CachedWorkflow.Proofs.Pipeline.Failures

/-!
# Proofs: circular calls

A cycle that expansion reports is one: a loop of documents, known by the normal forms of their paths, of
which each calls the next. And where expansion succeeds there is none among the documents that are
reached (`expand_decides_cycles`). This is because the opened documents are a trail of calls (`Trail`): a
document stays open while the documents that it calls are expanded, and no longer.
-/

namespace CachedWorkflow

open Relation

/-- The document at `a` has a job that calls the pipeline at `b`. -/
def Calls (library : Library) (a b : Text) : Prop :=
  ∃ document, library.load a = .ok document ∧ HasCall a document b

/-- Of the documents that are reached from `root` the one of the name `a` calls the pipeline at `b`. It
is found under its name, or under the path of the root as given. -/
def CallsByName (library : Library) (root a b : Text) : Prop :=
  ∃ path, ReflTransGen (Calls library) root path ∧ (path = root ∨ path = a) ∧
    Path.normalize path = a ∧ Calls library path b

/-- From a document that is reached from `root`, calls lead to a document of the same name. -/
def IsCircular (library : Library) (root : Text) : Prop :=
  ∃ path, ReflTransGen (Calls library) root path ∧
    ∃ again, TransGen (Calls library) path again ∧ Path.normalize again = Path.normalize path

/-- Loading a document does not report a cycle. -/
def Library.LoadsWithoutCycle (library : Library) : Prop :=
  ∀ path chain, library.load path ≠ .error (.cycle chain)

section

variable {library : Library} {root file path a b : Text} {opened : List Text}

/-! ## Calls -/

theorem Calls.normalize_eq (h : Calls library a b) : Path.normalize b = b := by
  obtain ⟨-, -, -, -, -, -, target, -, -, -, -, rfl⟩ := h
  exact Path.normalize_normalize _

/-- All paths that are reached are normal forms, apart from the first. -/
theorem eq_or_eq_normalize_of_reached (h : ReflTransGen (Calls library) root path) :
    path = root ∨ path = Path.normalize path := by
  cases h with
  | refl => exact .inl rfl
  | tail _ hcall => exact .inr hcall.normalize_eq.symm

theorem CallsByName.normalize_eq (h : CallsByName library root a b) : Path.normalize a = a := by
  obtain ⟨path, -, -, rfl, -⟩ := h
  exact Path.normalize_normalize path

/-! ## The trail of opened documents -/

/-- The opened documents are distinct, and each calls the next, the last one `file`. -/
structure Trail (library : Library) (root : Text) (opened : List Text) (file : Text) : Prop where
  nodup : opened.Nodup
  reached : ReflTransGen (Calls library) root file
  exists_paths : ∃ paths : List Text, paths.map Path.normalize = opened ∧
    (paths ++ [file]).IsChain fun a b => ReflTransGen (Calls library) root a ∧ Calls library a b

theorem Trail.nil : Trail library root [] root :=
  ⟨List.nodup_nil, .refl, [], rfl, List.isChain_singleton root⟩

/-- A call continues the trail. -/
theorem Trail.push (h : Trail library root opened file) (hfresh : Path.normalize file ∉ opened)
    (hcall : Calls library file path) : Trail library root (opened ++ [Path.normalize file]) path := by
  obtain ⟨paths, hnames, hchain⟩ := h.exists_paths
  refine ⟨?_, h.reached.tail hcall, paths ++ [file], ?_, ?_⟩
  · rw [← List.concat_eq_append, List.nodup_concat]
    exact ⟨hfresh, h.nodup⟩
  · rw [List.map_append, hnames, List.map_singleton]
  · refine List.isChain_append.mpr ⟨hchain, List.isChain_singleton path, ?_⟩
    intro last hlast next hnext
    cases hnext
    rw [List.getLast?_concat] at hlast
    cases hlast
    exact ⟨h.reached, hcall⟩

/-- A trail that comes to an opened document again has a loop at its end. -/
theorem Trail.isLoop (h : Trail library root opened file) (hmem : Path.normalize file ∈ opened) :
    IsLoop (CallsByName library root)
      (opened.dropWhile (· ≠ Path.normalize file) ++ [Path.normalize file]) ∧
    IsCircular library root := by
  obtain ⟨paths, rfl, hchain⟩ := h.exists_paths
  obtain ⟨path, hpath, hname⟩ := List.mem_map.mp hmem
  obtain ⟨before, after, rfl⟩ := List.append_of_mem hpath
  have hnodup := h.nodup
  rw [List.map_append, List.map_cons, hname] at hnodup
  obtain ⟨-, hloop, hdisjoint⟩ := List.nodup_append.mp hnodup
  have hskipped : ∀ name ∈ before.map Path.normalize, decide (name ≠ Path.normalize file) = true :=
    fun name hbefore => decide_eq_true (hdisjoint name hbefore _ List.mem_cons_self)
  have hrest : ((before ++ path :: after).map Path.normalize).dropWhile (· ≠ Path.normalize file)
      = Path.normalize file :: after.map Path.normalize := by
    rw [List.map_append, List.dropWhile_append_of_pos hskipped, List.map_cons, hname,
      List.dropWhile_cons_of_neg (by simp)]
  -- the end of the trail, from the document that is met again
  have hend : (path :: after ++ [file]).IsChain
      fun a b => ReflTransGen (Calls library) root a ∧ Calls library a b := by
    rw [List.append_assoc] at hchain
    exact hchain.right_of_append
  have hnames : ((path :: after ++ [file]).map Path.normalize).IsChain (CallsByName library root) := by
    refine List.isChain_map_of_isChain Path.normalize (fun a b hab => ?_) hend
    have hcall : Calls library a (Path.normalize b) := hab.2.normalize_eq.symm ▸ hab.2
    exact ⟨a, hab.1, eq_or_eq_normalize_of_reached hab.1, rfl, hcall⟩
  rw [hrest]
  refine ⟨⟨Path.normalize file, after.map Path.normalize, rfl, hloop, ?_⟩, path, ?_, file, ?_, hname.symm⟩
  · rwa [List.map_append, List.map_cons, hname] at hnames
  · obtain ⟨next, ⟨hreached, -⟩, -⟩ := TransGen.head'_iff.mp (transGen_of_isChain hend)
    exact hreached
  · have hcalls : (path :: after ++ [file]).IsChain (Calls library) := hend.imp fun _ _ hab => hab.2
    exact transGen_of_isChain hcalls

/-! ## Expansion -/

/-- What is reported as a cycle is a loop of calls, unless it comes from the library. -/
theorem isLoop_or_load_of_expandFrom {chain : List Text} (htrail : Trail library root opened file)
    (h : expandFrom library opened file = .error (.cycle chain)) :
    (IsLoop (CallsByName library root) chain ∧ IsCircular library root) ∨
      ∃ path, ReflTransGen (Calls library) root path ∧ library.load path = .error (.cycle chain) := by
  induction opened, file using expandFrom.induct library with
  | case1 opened file name =>
    have hopened : Path.normalize file ∈ opened := ‹name ∈ opened›
    rw [expandFrom_of_mem hopened] at h
    cases h
    exact .inl (htrail.isLoop hopened)
  | case2 opened file name hopened error =>
    rename_i hfail
    rw [expandFrom_of_load_eq_error hopened hfail] at h
    cases h
    exact .inr ⟨file, htrail.reached, hfail⟩
  | case3 opened file name hopened document hdocument =>
    rename_i ih
    rw [expandFrom_of_load_eq_ok hopened hdocument] at h
    rcases faults_or_called_of_expandDocument h with hfault | ⟨path, hcall, hbelow⟩
    · cases hfault
    · exact ih path (htrail.push hopened ⟨document, hdocument, hcall⟩) hbelow

/-- Where expansion succeeds no opened document is reached, and no document is reached from one of its
name. -/
theorem not_isCircular_of_expandFrom {result : Object}
    (h : expandFrom library opened file = .ok result) :
    (∀ path, ReflTransGen (Calls library) file path → Path.normalize path ∉ opened) ∧
      ¬ IsCircular library file := by
  induction opened, file using expandFrom.induct library generalizing result with
  | case1 opened file name => exact absurd ‹name ∈ opened› (expandFrom_eq_ok.mp h).1
  | case2 opened file name hopened error =>
    rename_i hfail
    rw [expandFrom_of_load_eq_error hopened hfail] at h
    cases h
  | case3 opened file name hopened document hdocument =>
    rename_i ih
    rw [expandFrom_of_load_eq_ok hopened hdocument] at h
    have hcalled : ∀ next, Calls library file next →
        (∀ path, ReflTransGen (Calls library) next path →
          Path.normalize path ∉ opened ++ [Path.normalize file]) ∧ ¬ IsCircular library next := by
      rintro next ⟨document', hdocument', hcall⟩
      obtain rfl : document = document' := Except.ok.inj (hdocument.symm.trans hdocument')
      obtain ⟨child, hchild⟩ := called_of_expandDocument h hcall
      exact ih next hchild
    refine ⟨fun path hpath => ?_, ?_⟩
    · rcases ReflTransGen.cases_head_iff.mp hpath with rfl | ⟨next, hnext, hrest⟩
      · exact hopened
      · exact fun hmem => (hcalled next hnext).1 path hrest (List.mem_append_left _ hmem)
    · rintro ⟨path, hpath, again, hagain, hname⟩
      rcases ReflTransGen.cases_head_iff.mp hpath with rfl | ⟨next, hnext, hrest⟩
      · -- the document itself is met again below one of its calls
        obtain ⟨next, hnext, hrest⟩ := TransGen.head'_iff.mp hagain
        refine (hcalled next hnext).1 again hrest ?_
        rw [hname]
        exact List.mem_append_right _ List.mem_cons_self
      · exact (hcalled next hnext).2 ⟨path, hrest, again, hagain, hname⟩

/-- Expansion ends, at a depth that is bounded by the number of names of the library. A cycle that it
reports is a loop of distinct paths in normal form, of which each document has a job that calls the next,
unless the library has reported it in place of a document. Where expansion succeeds no calls lead from a
document that is reached to one of its name. So documents that are called several times, or along several
paths, are no cycle. -/
theorem expand_decides_cycles (library : Library) (file : Text) :
    (∃ depth, ∀ otherwise, expandWithin library otherwise depth [] file = expand library file) ∧
    (∀ names, library.NamesAre names → ∀ otherwise,
      expandWithin library otherwise (names.length + 1) [] file = expand library file) ∧
    (∀ chain, expand library file = .error (.cycle chain) →
      (IsLoop (CallsByName library file) chain ∧ (∀ name ∈ chain, Path.normalize name = name) ∧
        IsCircular library file) ∨
      ∃ path, ReflTransGen (Calls library) file path ∧ library.load path = .error (.cycle chain)) ∧
    ∀ result, expand library file = .ok result → ¬ IsCircular library file := by
  have hbound : ∀ names, library.NamesAre names → ∀ otherwise,
      expandWithin library otherwise (names.length + 1) [] file = expand library file :=
    fun names hnames otherwise => expandWithin_eq_expand hnames otherwise file
  have hnames : library.NamesAre library.names := fun _ _ => library.mem_names
  refine ⟨⟨_, hbound library.names hnames⟩, hbound, fun chain h => ?_,
    fun result h => (not_isCircular_of_expandFrom h).2⟩
  refine (isLoop_or_load_of_expandFrom Trail.nil h).imp_left fun ⟨hloop, hcircular⟩ => ?_
  refine ⟨hloop, fun name hname => ?_, hcircular⟩
  obtain ⟨next, hnext⟩ := hloop.exists_of_mem hname
  exact hnext.normalize_eq

end

/-! ## Loaders -/

theorem parseDocument_ne_cycle (path text : Text) (chain : List Text) :
    parseDocument path text ≠ .error (.cycle chain) := by
  unfold parseDocument
  split <;> simp

/-- Documents in memory are loaded without a cycle. -/
theorem loadsWithoutCycle_ofDocuments (values : List (Text × Json)) (texts : List (Text × Text)) :
    (Library.ofDocuments values texts).LoadsWithoutCycle := by
  intro path chain
  unfold Library.ofDocuments
  dsimp only
  split
  · simp
  · split
    · exact parseDocument_ne_cycle _ _ _
    · simp

/-- So are files. -/
theorem loadsWithoutCycle_ofReadings (readings : List (Text × Except ReadFault Text)) :
    (Library.ofReadings readings).LoadsWithoutCycle := by
  intro path chain
  unfold Library.ofReadings
  dsimp only
  split
  · exact parseDocument_ne_cycle _ _ _
  · simp
  · simp

/-! ## A ring and a diamond -/

/-- A document with the given calls. -/
def calling (targets : List Text) : Json :=
  .object [("jobs", .object (targets.map fun target =>
    (target, .object [(callProperty, .string target)])))]

/-- A document that calls two others below its directory, of which the first calls the second, and the
second calls it back. -/
def ringDocuments : List (Text × Json) := [
  ("ci/main", calling ["lib/a", "lib/b"]), ("ci/lib/a", calling ["b"]), ("ci/lib/b", calling ["../main"])]

/-- The same without the call back: the second document is reached along two paths. -/
def diamondDocuments : List (Text × Json) := [
  ("ci/main", calling ["lib/a", "lib/b"]), ("ci/lib/a", calling ["b"]), ("ci/lib/b", calling [])]

theorem expand_decides_cycles_ring :
    IsLoop (CallsByName (.ofDocuments ringDocuments []) "ci/./main")
      ["ci/main", "ci/lib/a", "ci/lib/b", "ci/main"] ∧
    ¬ IsCircular (.ofDocuments diamondDocuments []) "ci/./main" := by
  obtain ⟨-, -, hring, -⟩ := expand_decides_cycles (.ofDocuments ringDocuments []) "ci/./main"
  obtain ⟨-, -, -, hdiamond⟩ := expand_decides_cycles (.ofDocuments diamondDocuments []) "ci/./main"
  have hcycle : expand (.ofDocuments ringDocuments []) "ci/./main"
      = .error (.cycle ["ci/main", "ci/lib/a", "ci/lib/b", "ci/main"]) := by
    rw [← expandWithin_eq_expand (namesAre_ofDocuments ringDocuments)
      (fun path => .error (.unparsable path)) "ci/./main"]
    decide +kernel
  have hok : (expand (.ofDocuments diamondDocuments []) "ci/./main").toBool = true := by
    rw [← expandWithin_eq_expand (namesAre_ofDocuments diamondDocuments)
      (fun path => .error (.unparsable path)) "ci/./main"]
    decide +kernel
  obtain ⟨result, hresult⟩ := toBool_eq_true.mp hok
  obtain ⟨hloop, -⟩ := (hring _ hcycle).resolve_right fun ⟨path, _, hload⟩ =>
    loadsWithoutCycle_ofDocuments ringDocuments [] path _ hload
  exact ⟨hloop, hdiamond result hresult⟩

end CachedWorkflow
