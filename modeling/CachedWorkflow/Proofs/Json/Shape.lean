import CachedWorkflow.Job.Settings
import CachedWorkflow.Proofs.Outcome

/-!
# Proofs: values of the wrong shape

Reading a value as what a place of a document must hold fails in two ways only (`IsMisshapen`): the value is
of the wrong kind, or there is none.
-/

namespace CachedWorkflow

/-- What is wrong with a value that is read. -/
inductive IsMisshapen : Error → Prop where
  | wrongKind (location : Text) (expected : Expectation) (found : Kind) :
      IsMisshapen (.wrongKind location expected found)
  | missingField (location field : Text) : IsMisshapen (.missingField location field)

/-- The computation fails by misshapen values only. -/
abbrev FailsByShape {α : Type} (x : Except Error α) : Prop := FailsWith IsMisshapen x

theorem failsByShape_asObject (location : Text) (value : Json) : FailsByShape (value.asObject location) := by
  cases value <;> simp [Json.asObject, Json.mismatch, IsMisshapen.wrongKind]

theorem failsByShape_asArray (location : Text) (value : Json) : FailsByShape (value.asArray location) := by
  cases value <;> simp [Json.asArray, Json.mismatch, IsMisshapen.wrongKind]

theorem failsByShape_asString (location : Text) (value : Json) : FailsByShape (value.asString location) := by
  cases value <;> simp [Json.asString, Json.mismatch, IsMisshapen.wrongKind]

theorem failsByShape_asBool (location : Text) (value : Json) : FailsByShape (value.asBool location) := by
  cases value <;> simp [Json.asBool, Json.mismatch, IsMisshapen.wrongKind]

theorem failsByShape_require (object : Object) (field location : Text) :
    FailsByShape (object.require field location) := by
  rw [Object.require]
  cases object.get? field <;> simp [IsMisshapen.missingField]

theorem failsByShape_stringsFrom (location : Text) (index : Nat) (items : List Json) :
    FailsByShape (Json.stringsFrom location index items) := by
  induction items generalizing index with
  | nil => exact failsWith_ok
  | cons item rest ih =>
    exact (failsByShape_asString _ item).bind fun _ => (ih _).bind fun _ => failsWith_ok

theorem failsByShape_asStrings (location : Text) (value : Json) : FailsByShape (value.asStrings location) :=
  (failsByShape_asArray _ _).bind fun _ => failsByShape_stringsFrom _ _ _

theorem failsByShape_readNeeds (job : Object) (location : Text) : FailsByShape (readNeeds job location) := by
  unfold readNeeds
  split
  · exact failsWith_ok
  · exact failsWith_ok
  · exact failsWith_ok
  · exact failsByShape_asStrings _ _

end CachedWorkflow
