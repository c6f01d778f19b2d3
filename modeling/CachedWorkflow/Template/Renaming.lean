import CachedWorkflow.Json.Leaves
import CachedWorkflow.Template.Format
import CachedWorkflow.Text.Alphanumeric

/-!
# Renaming inside expressions

Qualified identifiers such as `needs.build.outputs` are replaced inside the placeholders of a
template only, never inside a string literal, and never as a part of a longer identifier or as a
member of another one. Replacing goes from left to right in a single pass, so that what has been
put in is never replaced again.
-/

namespace CachedWorkflow

/-- Pairs of an identifier and the expression text to put in its place. -/
abbrev Renaming := List (Text × Text)

/-- The characters that continue an identifier. -/
def isIdentifierChar (c : Char) : Bool := isAlphanumeric c || c == '_' || c == '-'

namespace Renaming

/-- Whether an identifier cannot begin after the character. -/
def joinsNext (c : Char) : Bool := isIdentifierChar c || c == '.'

/-- Whether `old` begins the text and ends there: no character that continues an identifier comes
after it. -/
def occursAt (old text : Text) : Bool :=
  match old.after? text with
  | none => false
  | some rest => !old.isEmpty && !rest.head?.any isIdentifierChar

/-- The pair with the longest identifier that occurs at the beginning of the text, and the last one
of these if there are several. -/
def longest? (text : Text) : Renaming → Option (Text × Text)
  | [] => none
  | pair :: rest =>
    match longest? text rest with
    | none => if occursAt pair.1 text then some pair else none
    | some best =>
      if occursAt pair.1 text && best.1.length < pair.1.length then some pair else some best

/-- Replaces in the rest of an expression. `joined` tells whether the character before the rest
keeps an identifier from beginning, `quoted` whether the rest begins inside a string literal, and
`skip` how many characters still belong to an identifier that has been replaced. -/
def applyFrom (pairs : Renaming) : (joined quoted : Bool) → (skip : Nat) → Text → Text
  | _, _, _, [] => []
  | _, _, skip + 1, c :: rest => applyFrom pairs (joinsNext c) false skip rest
  | joined, quoted, 0, c :: rest =>
    if c = '\'' then c :: applyFrom pairs false (!quoted) 0 rest
    else if quoted then c :: applyFrom pairs (joinsNext c) true 0 rest
    else if joined then c :: applyFrom pairs (joinsNext c) false 0 rest
    else
      match longest? (c :: rest) pairs with
      | some (old, new) => new ++ applyFrom pairs (joinsNext c) false (old.length - 1) rest
      | none => c :: applyFrom pairs (joinsNext c) false 0 rest

/-- Replaces the identifiers of one expression. -/
def apply (pairs : Renaming) (expression : Text) : Text :=
  applyFrom pairs false false 0 expression

/-- Replaces the identifiers in every placeholder of a template. A template without an opening, and
any template if there is nothing to replace, is not looked at further. -/
def applyToTemplate (pairs : Renaming) (template : Text) : Except Error Text :=
  if pairs.isEmpty || !Template.hasOpening template then .ok template
  else
    (Template.scan template).map fun tokens =>
      Template.embed <| tokens.map fun
        | .literal text => .literal text
        | .expression source => .expression (pairs.apply source)

/-- Replaces the identifiers in every string leaf of a value. -/
def applyToValue (pairs : Renaming) (value : Json) : Except Error Json :=
  value.mapStrings fun text => (pairs.applyToTemplate text).map fun new => some (.string new)

end Renaming

/-- Pairs of an expression and the value that stands for it. -/
abbrev Binding := List (Text × Json)

/-- The value that is bound to the expression: that of the first such pair. -/
def Binding.lookup? (binding : Binding) (expression : Text) : Option Json :=
  Object.get? binding expression

/-- Replaces every string leaf that is exactly one placeholder by the value bound to its
expression, if there is one. -/
def Binding.applyToValue (binding : Binding) (value : Json) : Except Error Json :=
  if binding.isEmpty then .ok value
  else
    value.mapStrings fun text =>
      (Template.fullExpression? text).map fun expression? => expression?.bind binding.lookup?

end CachedWorkflow
