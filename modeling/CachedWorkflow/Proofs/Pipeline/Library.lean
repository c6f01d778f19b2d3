import CachedWorkflow.Pipeline.Library

/-!
# Proofs: libraries of documents

What a library of given documents has under a path is one of these documents, registered under a path
with the same normal form (`exists_mem_of_load_ofDocuments`).
-/

namespace CachedWorkflow

theorem exists_mem_of_registered? {α : Type} {name : Text} {value : α} {entries : List (Text × α)}
    (h : registered? name entries = some value) :
    ∃ key, (key, value) ∈ entries ∧ Path.normalize key = name := by
  induction entries with
  | nil => cases h
  | cons entry rest ih =>
    rw [registered?] at h
    split at h
    · next hlater =>
      cases h
      obtain ⟨key, hmem, hname⟩ := ih hlater
      exact ⟨key, List.mem_cons_of_mem entry hmem, hname⟩
    · split at h
      · next hname =>
        cases h
        exact ⟨entry.1, List.mem_cons_self, hname⟩
      · cases h

theorem exists_mem_of_load_ofDocuments {values : List (Text × Json)} {path : Text} {document : Json}
    (h : (Library.ofDocuments values []).load path = .ok document) :
    ∃ key, (key, document) ∈ values ∧ Path.normalize key = Path.normalize path := by
  unfold Library.ofDocuments at h
  dsimp only at h
  split at h
  · next value hvalue =>
    cases h
    exact exists_mem_of_registered? hvalue
  · cases h

end CachedWorkflow
