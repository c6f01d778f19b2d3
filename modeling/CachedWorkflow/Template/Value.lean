import CachedWorkflow.Json.Writer
import CachedWorkflow.Template.Format

/-!
# Values that hold templates

A document value whose strings are templates, as one expression or as a template of JSON text.
Arrays and objects have no literals in the expression language, so they go through `fromJSON`.
-/

namespace CachedWorkflow.Json

open Template

mutual

/-- JSON text in which every string of the value is a placeholder that calls `toJson`. Once the
placeholders are evaluated it is valid JSON. -/
def toJsonTemplate : Json → Except Error Text
  | .string text => do
    let expression ← Template.toExpression text
    .ok (opening ++ "toJson(" ++ expression ++ ")" ++ closing)
  | .array items => do
    let parts ← itemTemplates items
    .ok ("[" ++ List.intercalate "," parts ++ "]")
  | .object fields => do
    let parts ← fieldTemplates fields
    .ok ("\x7b" ++ List.intercalate "," parts ++ "\x7d")
  | .null => .ok (toText .null)
  | .bool value => .ok (toText (.bool value))
  | .number value => .ok (toText (.number value))

/-- The templates of the items of an array. -/
def itemTemplates : List Json → Except Error (List Text)
  | [] => .ok []
  | item :: rest => do
    let part ← item.toJsonTemplate
    let parts ← itemTemplates rest
    .ok (part :: parts)

/-- The templates of the entries of an object. -/
def fieldTemplates : List (Text × Json) → Except Error (List Text)
  | [] => .ok []
  | (key, value) :: rest => do
    let part ← value.toJsonTemplate
    let parts ← fieldTemplates rest
    .ok ((stringLiteral key ++ ":" ++ part) :: parts)

end

/-- The value as one expression. -/
def toExpression : Json → Except Error Text
  | .string text => Template.toExpression text
  | .array items => do
    let template ← (Json.array items).toJsonTemplate
    let tokens ← scan template
    .ok ("fromJSON(" ++ render tokens ++ ")")
  | .object fields => do
    let template ← (Json.object fields).toJsonTemplate
    let tokens ← scan template
    .ok ("fromJSON(" ++ render tokens ++ ")")
  | .null => .ok (toText .null)
  | .bool value => .ok (toText (.bool value))
  | .number value => .ok (toText (.number value))

end CachedWorkflow.Json
