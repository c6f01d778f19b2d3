import CachedWorkflow.Error

/-!
# The shape of document values

Located assertions: a value that has the wrong shape is reported together with the place where it
stands.
-/

namespace CachedWorkflow

namespace Json

/-- The error for a value of the wrong kind. -/
def mismatch (location : Text) (expected : Expectation) (value : Json) : Error :=
  .wrongKind location expected value.kind

/-- The entries of an object. -/
def asObject (location : Text) : Json → Except Error Object
  | .object fields => .ok fields
  | value => .error (mismatch location .object value)

/-- The items of an array. -/
def asArray (location : Text) : Json → Except Error (List Json)
  | .array items => .ok items
  | value => .error (mismatch location .array value)

/-- The text of a string. -/
def asString (location : Text) : Json → Except Error Text
  | .string text => .ok text
  | value => .error (mismatch location .string value)

/-- The truth value of a bool. -/
def asBool (location : Text) : Json → Except Error Bool
  | .bool value => .ok value
  | value => .error (mismatch location .bool value)

/-- The texts of the items from position `index` on, with the first item that is no string reported
at its position. -/
def stringsFrom (location : Text) : (index : Nat) → List Json → Except Error (List Text)
  | _, [] => .ok []
  | index, item :: rest => do
    let text ← item.asString (location ++ "[" ++ Text.ofNat index ++ "]")
    let texts ← stringsFrom location (index + 1) rest
    .ok (text :: texts)

/-- The texts of an array of strings. -/
def asStrings (location : Text) (value : Json) : Except Error (List Text) := do
  stringsFrom location 0 (← value.asArray location)

/-- An array of strings. -/
def ofTexts (texts : List Text) : Json := .array (texts.map .string)

end Json

/-- The value of a property that must be there. -/
def Object.require (object : Object) (field location : Text) : Except Error Json :=
  match object.get? field with
  | some value => .ok value
  | none => .error (.missingField location field)

end CachedWorkflow
