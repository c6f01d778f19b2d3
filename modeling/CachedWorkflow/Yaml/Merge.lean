import CachedWorkflow.Yaml.Construction

/-!
# Merge keys

The entry of a mapping with the key `<<` lends it the entries of another mapping, or of several ones.
It is removed, and the lent entries whose keys are not there yet go to the end.
-/

namespace CachedWorkflow.Yaml

/-- The key that merges. -/
def mergeKey : Value := .string "<<"

/-- Removes the entry at a place; the last entry takes the place. -/
def removeAt (place : Nat) (entries : List (Value × Value)) : List (Value × Value) :=
  match entries.getLast? with
  | some last => if place + 1 = entries.length then entries.dropLast
      else entries.dropLast.set place last
  | none => []

/-- Adds the lent entries whose keys are not there yet. -/
def lend (entries lent : List (Value × Value)) : List (Value × Value) :=
  lent.foldl (fun entries entry => if hasKey entries entry.1 then entries else entries ++ [entry])
    entries

/-- Lends the entries of the value of a merge key, which is a mapping or a sequence of mappings. -/
def lendValue (entries : List (Value × Value)) : Value → Option (List (Value × Value))
  | .mapping lent => some (lend entries lent)
  | .sequence items => items.foldlM (fun entries item =>
      match item with
      | .mapping lent => some (lend entries lent)
      | _ => none) entries
  | _ => none

/-- The entries of a mapping once its merge key has been applied. A merge key among the lent entries
merges no more. -/
def mergedEntries (entries : List (Value × Value)) : Option (List (Value × Value)) :=
  match entries.findIdx? fun entry => mergeKey.same entry.1 with
  | none => some entries
  | some place => do
    let (_, value) ← entries[place]?
    lendValue (removeAt place entries) value

end CachedWorkflow.Yaml
