import CachedWorkflow.Json.Basic
import CachedWorkflow.Number.Shortest
import CachedWorkflow.Text.Digits

/-!
# Compact JSON text

The text of a document value without blanks. Strings escape the quote, the backslash and the
characters below U+0020, and write every other character as it is.
-/

namespace CachedWorkflow

/-- A character inside a JSON string. -/
def escapedChar (c : Char) : Text :=
  if c = '"' then "\\\""
  else if c = '\\' then "\\\\"
  else if c = '\n' then "\\n"
  else if c = '\r' then "\\r"
  else if c = '\t' then "\\t"
  else if c = '\x08' then "\\b"
  else if c = '\x0c' then "\\f"
  else if c.toNat < 0x20 then "\\u" ++ hexDigits false 4 c.toNat
  else [c]

/-- A JSON string literal. -/
def stringLiteral (text : Text) : Text := "\"" ++ text.flatMap escapedChar ++ "\""

/-- The text of a number. -/
def Number.toText : Number → Text
  | .integer n => Text.ofInt n
  | .double x => x.toText

namespace Json

mutual

/-- The compact JSON text of a value. -/
def toText : Json → Text
  | .null => "null"
  | .bool true => "true"
  | .bool false => "false"
  | .number n => n.toText
  | .string s => stringLiteral s
  | .array items => "[" ++ List.intercalate "," (itemTexts items) ++ "]"
  | .object fields => "\x7b" ++ List.intercalate "," (fieldTexts fields) ++ "\x7d"

/-- The compact texts of the items of an array. -/
def itemTexts : List Json → List Text
  | [] => []
  | item :: rest => item.toText :: itemTexts rest

/-- The compact texts of the entries of an object, each a key, a colon and a value. -/
def fieldTexts : List (Text × Json) → List Text
  | [] => []
  | (key, value) :: rest => (stringLiteral key ++ ":" ++ value.toText) :: fieldTexts rest

end

end Json

end CachedWorkflow
