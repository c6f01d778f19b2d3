import CachedWorkflow.Json.Writer
import CachedWorkflow.Yaml.Merge

/-!
# Reading YAML documents

`Yaml.read` gives the document value of a YAML text. Merge keys are applied, and keys of mappings
become texts. What JSON does not have is null, and a tagged value becomes an object with the tag as its
only key.
-/

namespace CachedWorkflow.Yaml

/-- The text of a key; only strings, truth values and numbers have one. -/
def keyText? : Value → Option Text
  | .string text => some text
  | .bool true => some "true"
  | .bool false => some "false"
  | .number n => some n.toText
  | _ => none

/-- The document value of a value. Each collection and each tag takes one step of `depth`. -/
def Value.toJson? : (depth : Nat) → Value → Option Json
  | _, .null | _, .infinity _ | _, .notANumber => some .null
  | _, .bool b => some (.bool b)
  | _, .number n => some (.number n)
  | _, .string text => some (.string text)
  | 0, .sequence _ | 0, .mapping _ | 0, .tagged _ _ => none
  | depth + 1, .sequence items => (items.mapM (toJson? depth)).map .array
  | depth + 1, .mapping entries => do
    let fields ← (← mergedEntries entries).mapM fun (key, value) => do
      return (← keyText? key, ← toJson? depth value)
    return .object (Object.insertAll [] fields)
  | depth + 1, .tagged name value => do
    let name := match name with
      | '!' :: c :: rest => c :: rest
      | name => name
    return .object [('!' :: name, ← toJson? depth value)]

/-- The document value of a YAML text, null if it has no document; `none` if the text is malformed.
Every lexeme takes at most four steps to build nodes, and each collection of a value may have a tag
besides. -/
def read (text : Text) : Option Json := do
  let lexemes ← lexemes? text
  match ← (Building.document (4 * lexemes.length + 16)).run { lexemes } with
  | (none, _) => return .null
  | (some root, built) => (← built.valueOfRoot root).toJson? (2 * maxNesting + 1)

end CachedWorkflow.Yaml
