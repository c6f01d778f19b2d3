import CachedWorkflow.Error
import CachedWorkflow.Path
import CachedWorkflow.Yaml.Reader

/-!
# Libraries of documents

A pipeline calls other pipelines by their paths. Documents come from a library. Two paths with the same
normal form name the same document, and a library has documents under finitely many names. This module
holds libraries in general and those that are held in memory: of given documents, and of files that have
been read.
-/

namespace CachedWorkflow

/-- A collection of documents. -/
structure Library where
  load : Text → Except Error Json
  /-- There are finitely many normal forms of paths that have a document. -/
  finite : ∃ names : List Text, ∀ {path : Text} {document : Json}, load path = .ok document →
    Path.normalize path ∈ names

/-- Reads the YAML text of the document at a path. -/
def parseDocument (path text : Text) : Except Error Json :=
  match Yaml.read text with
  | some document => .ok document
  | none => .error (.unparsable path)

/-- The last entry that is registered under a name. -/
def registered? {α : Type} (name : Text) : List (Text × α) → Option α
  | [] => none
  | (key, value) :: rest =>
    match registered? name rest with
    | some later => some later
    | none => if Path.normalize key = name then some value else none

theorem mem_of_registered? {α : Type} {name : Text} {value : α} {entries : List (Text × α)}
    (h : registered? name entries = some value) :
    name ∈ entries.map fun entry => Path.normalize entry.1 := by
  induction entries generalizing value with
  | nil => simp [registered?] at h
  | cons entry rest ih =>
    simp only [registered?] at h
    split at h
    · rename_i later hlater
      exact List.mem_cons_of_mem _ (ih hlater)
    · split at h
      · rename_i hname
        simp [hname]
      · simp at h

/-- The library of documents that are held in memory, as values or as YAML texts. A value goes before a
text with the same name. -/
def Library.ofDocuments (values : List (Text × Json)) (texts : List (Text × Text)) : Library where
  load path :=
    match registered? (Path.normalize path) values with
    | some document => .ok document
    | none =>
      match registered? (Path.normalize path) texts with
      | some text => parseDocument path text
      | none => .error (.unreadable (Path.normalize path) .noSuchDocument)
  finite := by
    refine ⟨values.map (fun entry => Path.normalize entry.1)
      ++ texts.map fun entry => Path.normalize entry.1, fun {path document} h => ?_⟩
    rw [List.mem_append]
    split at h
    · rename_i hvalue
      exact .inl (mem_of_registered? hvalue)
    · split at h
      · rename_i htext
        exact .inr (mem_of_registered? htext)
      · simp at h

/-- The library of files that have been read, each with its text or with why it has none. -/
def Library.ofReadings (readings : List (Text × Except ReadFault Text)) : Library where
  load path :=
    match readings.lookup path with
    | some (.ok text) => parseDocument path text
    | some (.error fault) => .error (.unreadable path fault)
    | none => .error (.unreadable path (.file .noSuchFile))
  finite := by
    refine ⟨readings.map fun reading => Path.normalize reading.1, fun {path document} h => ?_⟩
    split at h
    · rename_i htext
      obtain ⟨before, after, rfl, _⟩ := List.lookup_eq_some_iff.mp htext
      simp
    · simp at h
    · simp at h

end CachedWorkflow
