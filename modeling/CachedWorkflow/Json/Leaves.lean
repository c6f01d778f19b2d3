import CachedWorkflow.Json.Basic

/-!
# String leaves

All rewriting of documents goes through `Json.mapStrings`, which visits the string leaves of a value
in document order. Keys are no leaves, and what a leaf is replaced by is not visited again.
-/

namespace CachedWorkflow.Json

variable {ε : Type}

mutual

/-- Replaces every string leaf by what `f` gives for it; `none` keeps the leaf. The first leaf that
`f` fails on, in document order, is the failure of the whole. -/
def mapStrings (f : Text → Except ε (Option Json)) : Json → Except ε Json
  | .string text => (f text).map fun new => new.getD (.string text)
  | .array items => (mapItems f items).map .array
  | .object fields => (mapFields f fields).map .object
  | .null => .ok .null
  | .bool value => .ok (.bool value)
  | .number value => .ok (.number value)

/-- Replaces the string leaves of a list of values. -/
def mapItems (f : Text → Except ε (Option Json)) : List Json → Except ε (List Json)
  | [] => .ok []
  | item :: rest => do
    let item ← mapStrings f item
    let rest ← mapItems f rest
    .ok (item :: rest)

/-- Replaces the string leaves of the values of a list of entries. -/
def mapFields (f : Text → Except ε (Option Json)) :
    List (Text × Json) → Except ε (List (Text × Json))
  | [] => .ok []
  | (key, value) :: rest => do
    let value ← mapStrings f value
    let rest ← mapFields f rest
    .ok ((key, value) :: rest)

end

mutual

/-- The string leaves of a value in document order. -/
def leaves : Json → List Text
  | .string text => [text]
  | .array items => leavesOfItems items
  | .object fields => leavesOfFields fields
  | .null | .bool _ | .number _ => []

/-- The string leaves of a list of values. -/
def leavesOfItems : List Json → List Text
  | [] => []
  | item :: rest => item.leaves ++ leavesOfItems rest

/-- The string leaves of the values of a list of entries. -/
def leavesOfFields : List (Text × Json) → List Text
  | [] => []
  | (_, value) :: rest => value.leaves ++ leavesOfFields rest

end

end CachedWorkflow.Json
