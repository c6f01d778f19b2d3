import CachedWorkflow.Template.Token
import CachedWorkflow.Text.Blank

/-!
# Templates as expressions

A template turns into one expression with the same value: a template that is a single placeholder
into the expression inside it, plain text into a string literal, and anything else into a call of
`format` whose arguments are the expressions of the template from left to right.
-/

namespace CachedWorkflow.Template

/-- A string literal of the expression language; a quote inside is doubled. -/
def quote (text : Text) : Text := "'" ++ Text.replacing '\'' "''" text ++ "'"

/-- A character of literal text inside the first argument of `format`: quotes and braces are
doubled. -/
def formatChar (c : Char) : Text :=
  if c = '\'' then "''"
  else if c = '{' then "\x7b\x7b"
  else if c = '}' then "\x7d\x7d"
  else [c]

/-- The first argument of `format` without its quotes. Each expression is the number of its
argument in braces; the first one gets number `index`. -/
def formatText : (index : Nat) → List Token → Text
  | _, [] => []
  | index, .literal text :: rest => text.flatMap formatChar ++ formatText index rest
  | index, .expression _ :: rest =>
    "\x7b" ++ Text.ofNat index ++ "\x7d" ++ formatText (index + 1) rest

/-- The sources of the expressions among the fragments. -/
def expressions (tokens : List Token) : List Text :=
  tokens.filterMap fun
    | .literal _ => none
    | .expression source => some source

/-- The fragments as one expression. -/
def render : List Token → Text
  | [] => quote []
  | [.literal text] => quote text
  | tokens =>
    "format('" ++ formatText 0 tokens ++ "'," ++ List.intercalate "," (expressions tokens) ++ ")"

/-- The expression of a template that is exactly one placeholder, without blanks around it. -/
def fullExpression? (template : Text) : Except Error (Option Text) :=
  if opening.isPrefixOf template then
    (scan template).map fun
      | [.literal [], .expression source, .literal []] => some (source.trimmed isWhiteSpace)
      | _ => none
  else .ok none

/-- The expression that has the same value as the template. -/
def toExpression (template : Text) : Except Error Text := do
  match ← fullExpression? template with
  | some expression => .ok expression
  | none => (scan template).map render

end CachedWorkflow.Template
