import CachedWorkflow.Error

/-!
# Templates

A template is literal text with placeholders: an expression between an opening (a dollar sign and
two braces) and a closing (two braces). Inside a placeholder a quote begins or ends a string
literal, and braces within a literal close nothing. A doubled quote, which stands for a quote inside
a literal, needs no rule of its own: it ends one literal and begins the next.
-/

namespace CachedWorkflow

/-- A fragment of a template. -/
inductive Token where
  | literal (text : Text)
  /-- The source of an expression, between an opening and its closing. -/
  | expression (source : Text)
  deriving DecidableEq, Repr

namespace Template

/-- What begins a placeholder. -/
def opening : Text := ['$', '{', '{']

/-- What ends a placeholder. -/
def closing : Text := ['}', '}']

/-- The text of a fragment inside its template. -/
def tokenText : Token → Text
  | .literal text => text
  | .expression source => opening ++ source ++ closing

/-- The template that consists of the given fragments. -/
def embed (tokens : List Token) : Text := tokens.flatMap tokenText

/-- Whether a text has an opening anywhere. -/
def hasOpening : Text → Bool
  | '$' :: '{' :: '{' :: _ => true
  | _ :: rest => hasOpening rest
  | [] => false

/-- Where in a template a character stands. -/
inductive Mode where
  | literal
  /-- Inside a placeholder, and there inside a string literal or not. -/
  | expression (quoted : Bool)
  deriving DecidableEq, Repr

/-- Splits the rest of a template: the rest of the current fragment, and the fragments after it.
There is no result if the template ends inside a placeholder. -/
def split : Mode → Text → Option (Text × List Token)
  | .literal, '$' :: '{' :: '{' :: rest =>
    (split (.expression false) rest).map fun (source, tokens) => ([], .expression source :: tokens)
  | .literal, c :: rest => (split .literal rest).map fun (text, tokens) => (c :: text, tokens)
  | .literal, [] => some ([], [])
  | .expression false, '}' :: '}' :: rest =>
    (split .literal rest).map fun (text, tokens) => ([], .literal text :: tokens)
  | .expression quoted, c :: rest =>
    (split (.expression (if c = '\'' then !quoted else quoted)) rest).map
      fun (source, tokens) => (c :: source, tokens)
  | .expression _, [] => none

/-- The fragments of a template. A literal stands before every expression and at the end, even where
it is empty. -/
def scan (template : Text) : Except Error (List Token) :=
  match split .literal template with
  | some (text, tokens) => .ok (.literal text :: tokens)
  | none => .error (.malformedTemplate template)

/-- The placeholder of an expression. -/
def placeholder (expression : Text) : Text := opening ++ " " ++ expression ++ " " ++ closing

end Template

end CachedWorkflow
