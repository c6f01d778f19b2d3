import CachedWorkflow.Number.Binary64
import CachedWorkflow.Text

/-!
# Document values

The value of a pipeline document: JSON data whose objects keep the order in which their entries
were first inserted. The order is part of the value, because it is the order in which jobs and
properties are written out.
-/

namespace CachedWorkflow

/-- A number of a document is an integer, or a double precision number when it was written with a
fraction or an exponent. -/
inductive Number where
  | integer (value : Int)
  | double (value : Binary64)
  deriving DecidableEq, Repr

/-- A document value. -/
inductive Json where
  | null
  | bool (value : Bool)
  | number (value : Number)
  | string (text : Text)
  | array (items : List Json)
  | object (fields : List (Text × Json))
  deriving Repr, Inhabited

/-- The entries of an object in insertion order. A key that is listed twice has its first value. -/
abbrev Object := List (Text × Json)

namespace Object

/-- The value of a key. -/
def get? (object : Object) (key : Text) : Option Json :=
  match object with
  | [] => none
  | (k, v) :: rest => if k = key then some v else get? rest key

/-- Whether the object has the key. -/
def contains (object : Object) (key : Text) : Bool := (object.get? key).isSome

/-- The keys in insertion order. -/
def keys (object : Object) : List Text := object.map Prod.fst

/-- Gives `key` the value `value`. A key that is there keeps its place, a new one goes to the
end. -/
def insert (object : Object) (key : Text) (value : Json) : Object :=
  match object with
  | [] => [(key, value)]
  | (k, v) :: rest => if k = key then (k, value) :: rest else (k, v) :: insert rest key value

/-- Inserts all entries of a list, one after the other. -/
def insertAll (object : Object) (entries : List (Text × Json)) : Object :=
  entries.foldl (fun object entry => object.insert entry.1 entry.2) object

end Object

namespace Json

mutual

/-- Equality of values is decidable. -/
def decEq : (a b : Json) → Decidable (a = b)
  | .null, .null => isTrue rfl
  | .bool a, .bool b => decidable_of_iff (a = b) (by simp)
  | .number a, .number b => decidable_of_iff (a = b) (by simp)
  | .string a, .string b => decidable_of_iff (a = b) (by simp)
  | .array a, .array b => @decidable_of_iff _ (a = b) (by simp) (decEqItems a b)
  | .object a, .object b => @decidable_of_iff _ (a = b) (by simp) (decEqFields a b)
  | .null, .bool _ | .null, .number _ | .null, .string _ | .null, .array _ | .null, .object _
  | .bool _, .null | .bool _, .number _ | .bool _, .string _ | .bool _, .array _
  | .bool _, .object _ | .number _, .null | .number _, .bool _ | .number _, .string _
  | .number _, .array _ | .number _, .object _ | .string _, .null | .string _, .bool _
  | .string _, .number _ | .string _, .array _ | .string _, .object _ | .array _, .null
  | .array _, .bool _ | .array _, .number _ | .array _, .string _ | .array _, .object _
  | .object _, .null | .object _, .bool _ | .object _, .number _ | .object _, .string _
  | .object _, .array _ => isFalse (by simp)

/-- Equality of lists of values is decidable. -/
def decEqItems : (a b : List Json) → Decidable (a = b)
  | [], [] => isTrue rfl
  | x :: xs, y :: ys =>
    @decidable_of_iff _ (x = y ∧ xs = ys) (by simp)
      (@instDecidableAnd _ _ (decEq x y) (decEqItems xs ys))
  | [], _ :: _ | _ :: _, [] => isFalse (by simp)

/-- Equality of lists of entries is decidable. -/
def decEqFields : (a b : List (Text × Json)) → Decidable (a = b)
  | [], [] => isTrue rfl
  | (k, x) :: xs, (l, y) :: ys =>
    @decidable_of_iff _ (k = l ∧ x = y ∧ xs = ys) (by simp [and_assoc])
      (@instDecidableAnd _ _ inferInstance
        (@instDecidableAnd _ _ (decEq x y) (decEqFields xs ys)))
  | [], _ :: _ | _ :: _, [] => isFalse (by simp)

end

instance : DecidableEq Json := decEq

end Json

end CachedWorkflow
