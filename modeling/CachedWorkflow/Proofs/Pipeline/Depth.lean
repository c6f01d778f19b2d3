import CachedWorkflow.Proofs.Pipeline.Expansion
import CachedWorkflow.Proofs.Pipeline.Library

/-!
# Proofs: the depth of expansion

Expansion opens documents of distinct names only, so calls are nested at most as deep as the library has
names (`expandWithin_eq_expand`). What would be the answer below this depth does not matter. The bounded
form is a structural recursion, by which expansion can be computed.
-/

namespace CachedWorkflow

/-- Expansion that answers with `otherwise` where calls are nested deeper than `depth`. -/
def expandWithin (library : Library) (otherwise : Text → Except Error Object) :
    (depth : Nat) → (opened : List Text) → (file : Text) → Except Error Object
  | 0, _, file => otherwise file
  | depth + 1, opened, file =>
    let name := Path.normalize file
    if name ∈ opened then .error (.cycle (opened.dropWhile (· ≠ name) ++ [name]))
    else
      match library.load file with
      | .error error => .error error
      | .ok document =>
        expandDocument file (expandWithin library otherwise depth (opened ++ [name])) document

/-- The documents of a library are known by these names. -/
def Library.NamesAre (library : Library) (names : List Text) : Prop :=
  ∀ path document, library.load path = .ok document → Path.normalize path ∈ names

section

variable {library : Library} {opened names : List Text}

/-- What is below the depth is never reached, if the opened documents leave fewer names than that. -/
theorem expandWithin_eq_expandFrom (hnames : library.NamesAre names)
    (otherwise : Text → Except Error Object) {depth : Nat} (hsub : opened ⊆ names)
    (hnodup : opened.Nodup) (hdepth : names.length < opened.length + depth) (file : Text) :
    expandWithin library otherwise depth opened file = expandFrom library opened file := by
  induction depth generalizing opened file with
  | zero =>
    have hlength : opened.length ≤ names.length := (List.subperm_of_subset hnodup hsub).length_le
    omega
  | succ depth ih =>
    by_cases hopened : Path.normalize file ∈ opened
    · rw [expandFrom_of_mem hopened]
      exact if_pos hopened
    · refine (if_neg hopened).trans ?_
      cases hload : library.load file with
      | error error => rw [expandFrom_of_load_eq_error hopened hload]
      | ok document =>
        have hname : Path.normalize file ∈ names := hnames file document hload
        have hbelow : expandWithin library otherwise depth (opened ++ [Path.normalize file])
            = expandFrom library (opened ++ [Path.normalize file]) := by
          refine funext fun path => ih ?_ ?_ ?_ path
          · exact List.append_subset.mpr ⟨hsub, List.cons_subset.mpr ⟨hname, List.nil_subset _⟩⟩
          · rw [← List.concat_eq_append, List.nodup_concat]
            exact ⟨hopened, hnodup⟩
          · rw [List.length_append, List.length_singleton]
            omega
        rw [expandFrom_of_load_eq_ok hopened hload, ← hbelow]

/-- Calls are nested at most as deep as there are names. -/
theorem expandWithin_eq_expand (hnames : library.NamesAre names)
    (otherwise : Text → Except Error Object) (file : Text) :
    expandWithin library otherwise (names.length + 1) [] file = expand library file :=
  expandWithin_eq_expandFrom hnames otherwise (List.nil_subset names) List.nodup_nil (by simp) file

end

theorem namesAre_ofDocuments (values : List (Text × Json)) : (Library.ofDocuments values []).NamesAre
    (values.map fun entry => Path.normalize entry.1) := by
  intro path document h
  obtain ⟨key, hmem, hname⟩ := exists_mem_of_load_ofDocuments h
  exact List.mem_map.mpr ⟨(key, document), hmem, hname⟩

end CachedWorkflow
