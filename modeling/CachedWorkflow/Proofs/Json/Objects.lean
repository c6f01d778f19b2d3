import CachedWorkflow.Json.Shape
import Mathlib.Data.List.Nodup

/-!
# Proofs: objects

An object is read through `Object.get?`, which sees the first entry of a key. An object that comes
from a document has no key twice (`Object.Distinct`); then its entries and what it gives for its
keys say the same, and an entry for a new key goes to the end.
-/

namespace CachedWorkflow.Object

/-- No key is listed twice. -/
def Distinct (object : Object) : Prop := object.keys.Nodup

instance (object : Object) : Decidable object.Distinct := inferInstanceAs (Decidable object.keys.Nodup)

theorem keys_cons (entry : Text × Json) (object : Object) :
    Object.keys (entry :: object) = entry.1 :: object.keys := rfl

theorem keys_append (a b : Object) : Object.keys (a ++ b) = a.keys ++ b.keys := List.map_append

theorem mem_keys_of_mem {object : Object} {key : Text} {value : Json}
    (h : (key, value) ∈ object) : key ∈ object.keys := List.mem_map.mpr ⟨_, h, rfl⟩

theorem mem_of_get? {object : Object} {key : Text} {value : Json}
    (h : object.get? key = some value) : (key, value) ∈ object := by
  induction object with
  | nil => simp [get?] at h
  | cons entry rest ih =>
    obtain ⟨k, v⟩ := entry
    rw [get?] at h
    split at h
    · next hk => cases h; rw [hk]; exact List.mem_cons_self
    · exact List.mem_cons_of_mem _ (ih h)

theorem get?_eq_none_iff {object : Object} {key : Text} :
    object.get? key = none ↔ key ∉ object.keys := by
  induction object with
  | nil => simp [get?, keys]
  | cons entry rest ih =>
    obtain ⟨k, v⟩ := entry
    rw [get?, keys_cons, List.mem_cons, not_or]
    split
    · next hk => simp [hk]
    · next hk => rw [ih]; simp [Ne.symm hk]

theorem mem_keys_of_get? {object : Object} {key : Text} {value : Json}
    (h : object.get? key = some value) : key ∈ object.keys := mem_keys_of_mem (mem_of_get? h)

theorem contains_iff {object : Object} {key : Text} :
    object.contains key = true ↔ key ∈ object.keys := by
  rw [contains, Option.isSome_iff_ne_none, ne_eq, get?_eq_none_iff, not_not]

theorem get?_of_mem {object : Object} (hd : object.Distinct) {key : Text} {value : Json}
    (h : (key, value) ∈ object) : object.get? key = some value := by
  induction object with
  | nil => simp at h
  | cons entry rest ih =>
    obtain ⟨k, v⟩ := entry
    obtain ⟨hk, hrest⟩ := List.nodup_cons.mp hd
    rw [get?]
    rcases List.mem_cons.mp h with heq | hmem
    · cases heq; rw [if_pos rfl]
    · rw [if_neg, ih hrest hmem]
      intro hkk
      exact hk (hkk ▸ mem_keys_of_mem hmem)

/-- The key of an entry is that of no other entry. -/
theorem not_mem_of_distinct {before after : Object} {key : Text} {value : Json}
    (hd : Object.Distinct (before ++ (key, value) :: after)) : key ∉ before.keys ∧ key ∉ after.keys := by
  rw [Distinct, keys_append, keys_cons, List.nodup_middle, List.nodup_cons, List.mem_append, not_or] at hd
  exact hd.1

/-- An object gives the same for its keys in every order of its entries. -/
theorem get?_perm {a b : Object} (hd : a.Distinct) (hperm : List.Perm a b) (key : Text) :
    a.get? key = b.get? key := by
  have hd' : b.Distinct := (hperm.map Prod.fst).nodup_iff.mp hd
  refine Option.ext fun value => ⟨fun h => ?_, fun h => ?_⟩
  · exact get?_of_mem hd' (hperm.mem_iff.mp (mem_of_get? h))
  · exact get?_of_mem hd (hperm.mem_iff.mpr (mem_of_get? h))

theorem get?_append {a b : Object} {key : Text} :
    Object.get? (a ++ b) key = (a.get? key).or (b.get? key) := by
  induction a with
  | nil => rfl
  | cons entry rest ih =>
    obtain ⟨k, v⟩ := entry
    rw [List.cons_append, get?, get?]
    split
    · rfl
    · exact ih

/-- Objects with related values under the same keys give related values. -/
theorem get?_forall₂ {R : Text × Json → Text × Json → Prop} {a b : Object}
    (h : List.Forall₂ R a b) (hkey : ∀ x y, R x y → y.1 = x.1) {key : Text} {value : Json}
    (hget : a.get? key = some value) :
    ∃ value', b.get? key = some value' ∧ R (key, value) (key, value') := by
  induction h with
  | nil => simp [get?] at hget
  | @cons x y a b hxy _ ih =>
    obtain ⟨k, v⟩ := x
    obtain ⟨k', v'⟩ := y
    obtain rfl : k' = k := hkey _ _ hxy
    rw [get?] at hget ⊢
    split at hget
    · next hk =>
      cases hget
      subst hk
      exact ⟨v', if_pos rfl, hxy⟩
    · next hk =>
      rw [if_neg hk]
      exact ih hget

/-- Entries whose keys are changed alike have the changed keys. -/
theorem keys_forall₂ {R : Text × Json → Text × Json → Prop} {k : Text → Text} {a b : Object}
    (h : List.Forall₂ R a b) (hkey : ∀ x y, R x y → y.1 = k x.1) : b.keys = a.keys.map k := by
  induction h with
  | nil => rfl
  | cons hentry _ ih => rw [keys_cons, keys_cons, List.map_cons, ih, hkey _ _ hentry]

/-! ## Insertion -/

theorem get?_insert (object : Object) (key key' : Text) (value : Json) :
    (object.insert key value).get? key' = if key = key' then some value else object.get? key' := by
  induction object with
  | nil => rfl
  | cons entry rest ih =>
    obtain ⟨k, v⟩ := entry
    rw [insert]
    by_cases hk : k = key
    · rw [if_pos hk, get?, get?]
      subst hk
      by_cases hk' : k = key' <;> simp [hk']
    · rw [if_neg hk, get?, get?, ih]
      by_cases hk' : k = key'
      · rw [if_pos hk', if_pos hk', if_neg (by rintro rfl; exact hk hk')]
      · rw [if_neg hk', if_neg hk']

@[simp] theorem get?_insert_self (object : Object) (key : Text) (value : Json) :
    (object.insert key value).get? key = some value := by rw [get?_insert, if_pos rfl]

theorem get?_insert_of_ne (object : Object) {key key' : Text} (value : Json) (h : key ≠ key') :
    (object.insert key value).get? key' = object.get? key' := by rw [get?_insert, if_neg h]

theorem insert_of_not_mem {object : Object} {key : Text} {value : Json} (h : key ∉ object.keys) :
    object.insert key value = object ++ [(key, value)] := by
  induction object with
  | nil => rfl
  | cons entry rest ih =>
    obtain ⟨k, v⟩ := entry
    rw [keys_cons, List.mem_cons, not_or] at h
    rw [insert, if_neg (Ne.symm h.1), ih h.2, List.cons_append]

theorem keys_insert_of_mem {object : Object} {key : Text} {value : Json} (h : key ∈ object.keys) :
    (object.insert key value).keys = object.keys := by
  induction object with
  | nil => simp [keys] at h
  | cons entry rest ih =>
    obtain ⟨k, v⟩ := entry
    rw [insert]
    split
    · rfl
    · next hk =>
      rw [keys_cons, keys_cons, ih]
      exact (List.mem_cons.mp h).resolve_left (Ne.symm hk)

theorem Distinct.insert {object : Object} (hd : object.Distinct) (key : Text) (value : Json) :
    (object.insert key value).Distinct := by
  by_cases h : key ∈ object.keys
  · rw [Distinct, keys_insert_of_mem h]
    exact hd
  · rw [insert_of_not_mem h, Distinct, keys_append]
    exact List.nodup_append.mpr ⟨hd, List.nodup_singleton key, fun a ha b hb =>
      by rw [List.mem_singleton.mp hb]; rintro rfl; exact h ha⟩

theorem mem_of_mem_insert {object : Object} {key : Text} {value : Json} {entry : Text × Json}
    (h : entry ∈ object.insert key value) : entry ∈ object ∨ entry = (key, value) := by
  induction object with
  | nil => exact .inr (List.mem_singleton.mp h)
  | cons first rest ih =>
    obtain ⟨k, v⟩ := first
    rw [insert] at h
    split at h
    · next hk =>
      rcases List.mem_cons.mp h with rfl | hrest
      · exact .inr (by rw [hk])
      · exact .inl (List.mem_cons_of_mem _ hrest)
    · rcases List.mem_cons.mp h with rfl | hrest
      · exact .inl List.mem_cons_self
      · exact (ih hrest).imp_left (List.mem_cons_of_mem _)

/-- The value that a key has is put in its place without effect. -/
theorem insert_eq_self {object : Object} {key : Text} {value : Json}
    (h : object.get? key = some value) : object.insert key value = object := by
  induction object with
  | nil => cases h
  | cons entry rest ih =>
    obtain ⟨k, v⟩ := entry
    rw [get?] at h
    rw [insert]
    split at h
    · next hk =>
      cases h
      rw [if_pos hk]
    · next hk => rw [if_neg hk, ih h]

/-- Of two values for one key the second one is kept. -/
theorem insert_insert (object : Object) (key : Text) (value value' : Json) :
    (object.insert key value).insert key value' = object.insert key value' := by
  induction object with
  | nil => simp [insert]
  | cons entry rest ih =>
    obtain ⟨k, v⟩ := entry
    by_cases hk : k = key
    · rw [insert, insert, if_pos hk, if_pos hk, insert, if_pos hk]
    · rw [insert, insert, if_neg hk, if_neg hk, insert, if_neg hk, ih]

/-- Values are put in the place of others in any order. -/
theorem insert_comm {object : Object} {key key' : Text} (hne : key ≠ key') (hkey : key ∈ object.keys)
    (value value' : Json) : (object.insert key value).insert key' value'
      = (object.insert key' value').insert key value := by
  induction object with
  | nil => simp [keys] at hkey
  | cons entry rest ih =>
    obtain ⟨k, v⟩ := entry
    by_cases hk : k = key
    · subst hk
      simp [insert, hne]
    · have hrest : key ∈ Object.keys rest := (List.mem_cons.mp hkey).resolve_left (Ne.symm hk)
      by_cases hk' : k = key'
      · subst hk'
        simp [insert, hk]
      · simp [insert, hk, hk', ih hrest]

/-- An object with the value of one key changed. -/
def mapKey (object : Object) (key : Text) (f : Json → Json) : Object :=
  object.map fun entry => (entry.1, if entry.1 = key then f entry.2 else entry.2)

theorem keys_mapKey (object : Object) (key : Text) (f : Json → Json) :
    (object.mapKey key f).keys = object.keys := by
  rw [keys, mapKey, List.map_map]
  rfl

theorem mapKey_of_not_mem {object : Object} {key : Text} (h : key ∉ object.keys) (f : Json → Json) :
    object.mapKey key f = object := by
  have hother : ∀ entry ∈ object, (entry.1, if entry.1 = key then f entry.2 else entry.2) = entry := by
    intro entry hentry
    have hne : entry.1 ≠ key := fun heq => h (heq ▸ mem_keys_of_mem hentry)
    rw [if_neg hne]
  rw [mapKey, List.map_congr_left hother, List.map_id']

/-- What is put in the place of a value changes this place alone. -/
theorem insert_eq_mapKey {object : Object} (hd : object.Distinct) {key : Text} {value : Json}
    (h : object.get? key = some value) (f : Json → Json) :
    object.insert key (f value) = object.mapKey key f := by
  induction object with
  | nil => cases h
  | cons entry rest ih =>
    obtain ⟨k, v⟩ := entry
    obtain ⟨hk, hrest⟩ := List.nodup_cons.mp hd
    rw [get?] at h
    rw [insert, mapKey, List.map_cons]
    split at h
    · next hkey =>
      cases h
      rw [if_pos hkey, if_pos hkey]
      exact congrArg _ (mapKey_of_not_mem (hkey ▸ hk) f).symm
    · next hkey =>
      rw [if_neg hkey, if_neg hkey, ih hrest h]
      rfl

/-- A selection by keys does not see the value of a key that it leaves out. -/
theorem filter_insert {p : Text → Bool} {key : Text} (hkey : p key = false) (object : Object)
    (value : Json) :
    (object.insert key value).filter (fun entry => p entry.1) = object.filter fun entry => p entry.1 := by
  induction object with
  | nil => simp [insert, hkey]
  | cons entry rest ih =>
    obtain ⟨k, v⟩ := entry
    rw [insert]
    split
    · next hk =>
      subst hk
      simp [hkey]
    · rw [List.filter_cons, List.filter_cons, ih]

/-- A selection by keys finds what it keeps. -/
theorem get?_filter {p : Text → Bool} {key : Text} (hkey : p key = true) (object : Object) :
    Object.get? (object.filter fun entry => p entry.1) key = object.get? key := by
  induction object with
  | nil => rfl
  | cons entry rest ih =>
    obtain ⟨k, v⟩ := entry
    cases hk : p k with
    | true =>
      rw [List.filter_cons, if_pos hk, get?, get?, ih]
    | false =>
      have hne : k ≠ key := by
        rintro rfl
        rw [hk] at hkey
        cases hkey
      rw [List.filter_cons, if_neg (by simp [hk]), ih, get?, if_neg hne]

theorem Distinct.filter {object : Object} (hd : object.Distinct) (p : Text × Json → Bool) :
    Object.Distinct (List.filter p object) := List.Nodup.sublist (List.filter_sublist.map _) hd

/-- Entries with new keys, no two of them equal, go to the end one after the other. -/
theorem insertAll_eq_append {object : Object} {entries : List (Text × Json)}
    (hd : Object.Distinct entries) (hnew : ∀ key ∈ Object.keys entries, key ∉ object.keys) :
    object.insertAll entries = object ++ entries := by
  induction entries generalizing object with
  | nil => rw [List.append_nil]; rfl
  | cons entry rest ih =>
    obtain ⟨hk, hrest⟩ := List.nodup_cons.mp hd
    have hins : object.insert entry.1 entry.2 = object ++ [entry] :=
      insert_of_not_mem (hnew _ List.mem_cons_self)
    show (object.insert entry.1 entry.2).insertAll rest = _
    rw [hins, ih hrest, List.append_assoc, List.singleton_append]
    intro key hkey
    rw [keys_append, List.mem_append, not_or]
    refine ⟨hnew key (List.mem_cons_of_mem _ hkey), ?_⟩
    intro hmem
    exact hk ((List.mem_singleton.mp hmem) ▸ hkey)

theorem mem_of_mem_insertAll {object : Object} {entries : List (Text × Json)} {entry : Text × Json}
    (h : entry ∈ object.insertAll entries) : entry ∈ object ∨ entry ∈ entries := by
  induction entries generalizing object with
  | nil => exact .inl h
  | cons first rest ih =>
    rcases ih h with hfirst | hrest
    · exact (mem_of_mem_insert hfirst).imp_right fun heq => List.mem_cons.mpr (.inl heq)
    · exact .inr (List.mem_cons_of_mem _ hrest)

theorem Distinct.insertAll {object : Object} (hd : object.Distinct) (entries : List (Text × Json)) :
    (object.insertAll entries).Distinct := by
  induction entries generalizing object with
  | nil => exact hd
  | cons first rest ih => exact ih (hd.insert first.1 first.2)

/-- Entries with other keys leave the value of a key alone. -/
theorem get?_insertAll_of_not_mem {object : Object} {entries : List (Text × Json)} {key : Text}
    (h : key ∉ Object.keys entries) : (object.insertAll entries).get? key = object.get? key := by
  induction entries generalizing object with
  | nil => rfl
  | cons entry rest ih =>
    rw [keys_cons, List.mem_cons, not_or] at h
    show ((object.insert entry.1 entry.2).insertAll rest).get? key = _
    rw [ih h.2, get?_insert_of_ne _ _ (Ne.symm h.1)]

/-- Entries with keys of their own, no two of them equal, put their values in. -/
theorem get?_insertAll_of_mem {object : Object} {entries : List (Text × Json)} (hd : Object.Distinct entries)
    {key : Text} (h : key ∈ Object.keys entries) : (object.insertAll entries).get? key = Object.get? entries key := by
  induction entries generalizing object with
  | nil => cases h
  | cons entry rest ih =>
    obtain ⟨hfirst, hrest⟩ := List.nodup_cons.mp hd
    show ((object.insert entry.1 entry.2).insertAll rest).get? key = _
    by_cases hkey : entry.1 = key
    · subst hkey
      rw [get?_insertAll_of_not_mem hfirst, get?_insert_self, get?, if_pos rfl]
    · rw [get?, if_neg hkey]
      exact ih hrest ((List.mem_cons.mp h).resolve_left (Ne.symm hkey))

end CachedWorkflow.Object
