import CachedWorkflow.Template.Renaming
import CachedWorkflow.Template.Value

/-!
# Binding names to values

A name is bound to a value together with everything below it: the members of an object by their
keys, the items of an array by their positions. A leaf that is exactly one bound expression takes
the value as it is; anywhere else the value is inlined as an expression.
-/

namespace CachedWorkflow.Binding

mutual

/-- Binds `name` to the value, and what is below it before the name itself. -/
def ofValue (name : Text) : Json → Binding
  | .array items => ofItems name 0 items ++ [(name, .array items)]
  | .object fields => ofFields name fields ++ [(name, .object fields)]
  | .null => [(name, .null)]
  | .bool value => [(name, .bool value)]
  | .number value => [(name, .number value)]
  | .string text => [(name, .string text)]

/-- Binds the items of an array, the first of which has position `index`. -/
def ofItems (name : Text) : (index : Nat) → List Json → Binding
  | _, [] => []
  | index, item :: rest =>
    ofValue (name ++ "[" ++ Text.ofNat index ++ "]") item ++ ofItems name (index + 1) rest

/-- Binds the members of an object. -/
def ofFields (name : Text) : List (Text × Json) → Binding
  | [] => []
  | (key, value) :: rest => ofValue (name ++ "." ++ key) value ++ ofFields name rest

end

/-- The bound values as expressions to inline. -/
def toRenaming (binding : Binding) : Except Error Renaming :=
  binding.mapM fun (name, value) => do
    let expression ← value.toExpression
    .ok (name, expression)

/-- Puts the bound values into a document: first into the leaves that are exactly one bound
expression, then into all other expressions. -/
def substitute (binding : Binding) (document : Json) : Except Error Json := do
  let inlined ← binding.toRenaming
  let document ← binding.applyToValue document
  inlined.applyToValue document

end CachedWorkflow.Binding
