import CachedWorkflow.Json.Basic

/-!
# Values of a YAML document

YAML has more values than JSON: mappings have keys of every kind, numbers may be infinite, and a tag
may give a value a name. This module holds these values and when two of them are the same key.
-/

namespace CachedWorkflow.Yaml

/-- A value of a YAML document. -/
inductive Value where
  | null
  | bool (value : Bool)
  | number (value : Number)
  | infinity (negative : Bool)
  | notANumber
  | string (text : Text)
  | sequence (items : List Value)
  | mapping (entries : List (Value × Value))
  /-- A value with the name that its tag gives it. -/
  | tagged (name : Text) (value : Value)
  deriving Repr, Inhabited

/-- Whether two numbers are the same. An integer is no double; the two zeros are the same. -/
def sameNumber : Number → Number → Bool
  | .integer a, .integer b => a == b
  | .double a, .double b => a == b || (a.significand == 0 && b.significand == 0)
  | _, _ => false

namespace Value

mutual

/-- Whether two values are the same. The order of the entries of mappings does not matter. -/
def same : Value → Value → Bool
  | .null, .null => true
  | .bool a, .bool b => a == b
  | .number a, .number b => sameNumber a b
  | .infinity a, .infinity b => a == b
  | .notANumber, .notANumber => true
  | .string a, .string b => a == b
  | .sequence a, .sequence b => sameItems a b
  | .mapping a, .mapping b => a.length == b.length && entriesIn a b
  | .tagged a x, .tagged b y => a == b && same x y
  | _, _ => false

/-- Whether two lists hold the same values in the same order. -/
def sameItems : List Value → List Value → Bool
  | [], [] => true
  | x :: xs, y :: ys => same x y && sameItems xs ys
  | _, _ => false

/-- Whether every entry of the first list is in the second one. -/
def entriesIn : List (Value × Value) → List (Value × Value) → Bool
  | [], _ => true
  | (key, value) :: rest, others =>
    (others.any fun other => same key other.1 && same value other.2) && entriesIn rest others

end

end Value

/-- Whether a list of entries has a key. -/
def hasKey (entries : List (Value × Value)) (key : Value) : Bool :=
  entries.any fun entry => key.same entry.1

end CachedWorkflow.Yaml
