import CachedWorkflow.Json.Leaves
import CachedWorkflow.Proofs.Json.Objects
import CachedWorkflow.Proofs.Outcome

/-!
# Proofs: passes over string leaves

A pass over the string leaves keeps the shape of a value: what stands at a position afterwards is
what the pass makes of what stood there before (`Json.at?_mapStrings`), and the value is unchanged
exactly if every leaf is (`Json.mapStrings_eq_self_iff`).
-/

namespace CachedWorkflow.Json

/-- A step from a value into one of its parts. -/
inductive Step where
  /-- To the value of a key. -/
  | member (key : Text)
  /-- To the item at an index. -/
  | item (index : Nat)
  deriving DecidableEq, Repr

/-- What stands at a position of a value; a position is the list of the steps to it. -/
def at? : Json → List Step → Option Json
  | value, [] => some value
  | .object fields, .member key :: rest => (Object.get? fields key).bind (at? · rest)
  | .array items, .item index :: rest => items[index]?.bind (at? · rest)
  | _, _ :: _ => none

theorem at?_string_eq_string {text text' : Text} {position : List Step}
    (h : (Json.string text).at? position = some (.string text')) : position = [] ∧ text' = text := by
  cases position with
  | nil =>
    simp only [at?, Option.some.injEq, Json.string.injEq] at h
    exact ⟨rfl, h.symm⟩
  | cons step rest => simp [at?] at h

/-- A string that stands in an object stands in one of its members. -/
theorem at?_object_eq_string {fields : Object} {text : Text} {position : List Step}
    (h : (Json.object fields).at? position = some (.string text)) :
    ∃ key value rest, position = .member key :: rest ∧ (key, value) ∈ fields ∧
      value.at? rest = some (.string text) := by
  cases position with
  | nil => simp [at?] at h
  | cons step rest =>
    cases step with
    | item index => simp [at?] at h
    | member key =>
      rw [at?, Option.bind_eq_some_iff] at h
      obtain ⟨value, hvalue, h⟩ := h
      exact ⟨key, value, rest, rfl, Object.mem_of_get? hvalue, h⟩

/-- The text of a string. -/
def string? : Json → Option Text
  | .string text => some text
  | _ => none

/-- The entries of an object. -/
def object? : Json → Option Object
  | .object fields => some fields
  | _ => none

/-- The value of a member of an object. -/
def member? (value : Json) (key : Text) : Option Json := value.object?.bind (·.get? key)

theorem asObject_eq_ok {location : Text} {value : Json} {object : Object} :
    value.asObject location = .ok object ↔ value = .object object := by
  cases value <;> simp [asObject]

theorem asArray_eq_ok {location : Text} {value : Json} {items : List Json} :
    value.asArray location = .ok items ↔ value = .array items := by
  cases value <;> simp [asArray]

theorem asString_eq_ok {location : Text} {value : Json} {text : Text} :
    value.asString location = .ok text ↔ value = .string text := by
  cases value <;> simp [asString]

end CachedWorkflow.Json

namespace CachedWorkflow

theorem Object.require_eq_ok {object : Object} {field location : Text} {value : Json} :
    object.require field location = .ok value ↔ object.get? field = some value := by
  rw [Object.require]
  cases object.get? field <;> simp

namespace Json

variable {ε : Type} {f : Text → Except ε (Option Json)}

theorem mapItems_eq_ok {items items' : List Json} :
    mapItems f items = .ok items' ↔
      List.Forall₂ (fun item item' => item.mapStrings f = .ok item') items items' := by
  induction items generalizing items' with
  | nil =>
    rw [List.forall₂_nil_left_iff, mapItems]
    exact ⟨fun h => by cases h; rfl, fun h => by rw [h]⟩
  | cons item rest ih =>
    rw [mapItems, bind_eq_ok, List.forall₂_cons_left_iff]
    refine exists_congr fun item' => ?_
    rw [bind_eq_ok]
    constructor
    · rintro ⟨hitem, rest', hrest, h⟩
      cases h
      exact ⟨rest', hitem, ih.mp hrest, rfl⟩
    · rintro ⟨rest', hitem, hrest, rfl⟩
      exact ⟨hitem, rest', ih.mpr hrest, rfl⟩

theorem mapFields_eq_ok {fields fields' : List (Text × Json)} :
    mapFields f fields = .ok fields' ↔
      List.Forall₂ (fun entry entry' => entry'.1 = entry.1 ∧
        entry.2.mapStrings f = .ok entry'.2) fields fields' := by
  induction fields generalizing fields' with
  | nil =>
    rw [List.forall₂_nil_left_iff, mapFields]
    exact ⟨fun h => by cases h; rfl, fun h => by rw [h]⟩
  | cons entry rest ih =>
    obtain ⟨key, value⟩ := entry
    rw [mapFields, bind_eq_ok, List.forall₂_cons_left_iff]
    constructor
    · rintro ⟨value', hvalue, h⟩
      obtain ⟨rest', hrest, h⟩ := bind_eq_ok.mp h
      cases h
      exact ⟨(key, value'), rest', ⟨rfl, hvalue⟩, ih.mp hrest, rfl⟩
    · rintro ⟨⟨key', value'⟩, rest', ⟨hkey, hvalue⟩, hrest, rfl⟩
      refine ⟨value', hvalue, bind_eq_ok.mpr ⟨rest', ih.mpr hrest, ?_⟩⟩
      rw [show key' = key from hkey]

theorem mapStrings_object {fields : Object} {value : Json}
    (h : (Json.object fields).mapStrings f = .ok value) :
    ∃ fields', value = .object fields' ∧
      List.Forall₂ (fun entry entry' => entry'.1 = entry.1 ∧
        entry.2.mapStrings f = .ok entry'.2) fields fields' := by
  rw [mapStrings, map_eq_ok] at h
  obtain ⟨fields', hfields, rfl⟩ := h
  exact ⟨fields', rfl, mapFields_eq_ok.mp hfields⟩

theorem mapStrings_array {items : List Json} {value : Json}
    (h : (Json.array items).mapStrings f = .ok value) :
    ∃ items', value = .array items' ∧
      List.Forall₂ (fun item item' => item.mapStrings f = .ok item') items items' := by
  rw [mapStrings, map_eq_ok] at h
  obtain ⟨items', hitems, rfl⟩ := h
  exact ⟨items', rfl, mapItems_eq_ok.mp hitems⟩

/-- A pass acts on every position by itself. -/
theorem at?_mapStrings {value value' part : Json} {position : List Step}
    (h : value.mapStrings f = .ok value') (hpart : value.at? position = some part) :
    ∃ part', value'.at? position = some part' ∧ part.mapStrings f = .ok part' := by
  induction position generalizing value value' with
  | nil =>
    rw [at?] at hpart
    cases hpart
    exact ⟨value', by rw [at?], h⟩
  | cons step rest ih =>
    cases value with
    | object fields =>
      cases step with
      | item => simp [at?] at hpart
      | member key =>
        rw [at?, Option.bind_eq_some_iff] at hpart
        obtain ⟨child, hchild, hpart⟩ := hpart
        obtain ⟨fields', rfl, hfields⟩ := mapStrings_object h
        obtain ⟨child', hget, -, hmap⟩ := Object.get?_forall₂ hfields (fun _ _ h => h.1) hchild
        obtain ⟨part', hat, hpart'⟩ := ih hmap hpart
        exact ⟨part', by rw [at?, hget, Option.bind_some, hat], hpart'⟩
    | array items =>
      cases step with
      | member => simp [at?] at hpart
      | item index =>
        rw [at?, Option.bind_eq_some_iff] at hpart
        obtain ⟨child, hchild, hpart⟩ := hpart
        obtain ⟨items', rfl, hitems⟩ := mapStrings_array h
        obtain ⟨hlt, hval⟩ := List.getElem?_eq_some_iff.mp hchild
        have hlt' : index < items'.length := hitems.length_eq ▸ hlt
        have hmap : child.mapStrings f = .ok items'[index] := hval ▸ hitems.get hlt hlt'
        obtain ⟨part', hat, hpart'⟩ := ih hmap hpart
        refine ⟨part', ?_, hpart'⟩
        rw [at?, List.getElem?_eq_getElem hlt', Option.bind_some, hat]
    | _ => simp [at?] at hpart

/-- What a pass makes of a leaf. -/
def leafResult (f : Text → Except ε (Option Json)) (text : Text) : Except ε Json :=
  (f text).map fun new => new.getD (.string text)

theorem mapStrings_string (text : Text) : (Json.string text).mapStrings f = leafResult f text := by
  rw [mapStrings, leafResult]

theorem mem_leavesOfItems {items : List Json} {text : Text} :
    text ∈ leavesOfItems items ↔ ∃ item ∈ items, text ∈ item.leaves := by
  induction items with
  | nil => simp [leavesOfItems]
  | cons item rest ih => simp [leavesOfItems, ih]

theorem mem_leavesOfFields {fields : List (Text × Json)} {text : Text} :
    text ∈ leavesOfFields fields ↔ ∃ entry ∈ fields, text ∈ entry.2.leaves := by
  induction fields with
  | nil => simp [leavesOfFields]
  | cons entry rest ih => simp [leavesOfFields, ih]

mutual

/-- A pass leaves a value unchanged exactly if it leaves every string leaf unchanged. -/
theorem mapStrings_eq_self_iff : ∀ value : Json,
    value.mapStrings f = .ok value ↔ ∀ text ∈ value.leaves, leafResult f text = .ok (.string text)
  | .string text => by simp [leaves, mapStrings_string]
  | .array items => by
    rw [mapStrings, map_eq_ok, leaves]
    rw [← mapItems_eq_self_iff items]
    simp
  | .object fields => by
    rw [mapStrings, map_eq_ok, leaves]
    rw [← mapFields_eq_self_iff fields]
    simp
  | .null => by simp [mapStrings, leaves]
  | .bool _ => by simp [mapStrings, leaves]
  | .number _ => by simp [mapStrings, leaves]

/-- The same for a list of values. -/
theorem mapItems_eq_self_iff : ∀ items : List Json,
    mapItems f items = .ok items ↔
      ∀ text ∈ leavesOfItems items, leafResult f text = .ok (.string text)
  | [] => by simp [mapItems, leavesOfItems]
  | item :: rest => by
    rw [mapItems_eq_ok, List.forall₂_cons, ← mapItems_eq_ok, mapStrings_eq_self_iff item,
      mapItems_eq_self_iff rest, leavesOfItems]
    simp only [List.mem_append, or_imp, forall_and]

/-- The same for a list of entries. -/
theorem mapFields_eq_self_iff : ∀ fields : List (Text × Json),
    mapFields f fields = .ok fields ↔
      ∀ text ∈ leavesOfFields fields, leafResult f text = .ok (.string text)
  | [] => by simp [mapFields, leavesOfFields]
  | (key, value) :: rest => by
    rw [mapFields_eq_ok, List.forall₂_cons, ← mapFields_eq_ok, mapStrings_eq_self_iff value,
      mapFields_eq_self_iff rest, leavesOfFields]
    simp only [true_and, List.mem_append, or_imp, forall_and]

end

mutual

/-- A pass does not fail if it does so on no leaf. -/
theorem exists_mapStrings : ∀ {value : Json}, (∀ text ∈ value.leaves, ∃ new, f text = .ok new) →
    ∃ value', value.mapStrings f = .ok value'
  | .string text, h => by
    obtain ⟨new, hnew⟩ := h text (List.mem_singleton_self text)
    rw [mapStrings_string, leafResult, hnew]
    exact ⟨_, rfl⟩
  | .array items, h => by
    obtain ⟨items', hitems⟩ := exists_mapItems h
    exact ⟨.array items', map_eq_ok.mpr ⟨items', hitems, rfl⟩⟩
  | .object fields, h => by
    obtain ⟨fields', hfields⟩ := exists_mapFields h
    exact ⟨.object fields', map_eq_ok.mpr ⟨fields', hfields, rfl⟩⟩
  | .null, _ => ⟨.null, rfl⟩
  | .bool value, _ => ⟨.bool value, rfl⟩
  | .number value, _ => ⟨.number value, rfl⟩

theorem exists_mapItems : ∀ {items : List Json},
    (∀ text ∈ leavesOfItems items, ∃ new, f text = .ok new) → ∃ items', mapItems f items = .ok items'
  | [], _ => ⟨[], rfl⟩
  | item :: rest, h => by
    obtain ⟨hitem, hrest⟩ := List.forall_mem_append.mp h
    obtain ⟨item', hitem'⟩ := exists_mapStrings hitem
    obtain ⟨rest', hrest'⟩ := exists_mapItems hrest
    exact ⟨item' :: rest', bind_eq_ok.mpr ⟨item', hitem', bind_eq_ok.mpr ⟨rest', hrest', rfl⟩⟩⟩

theorem exists_mapFields : ∀ {fields : List (Text × Json)},
    (∀ text ∈ leavesOfFields fields, ∃ new, f text = .ok new) → ∃ fields', mapFields f fields = .ok fields'
  | [], _ => ⟨[], rfl⟩
  | (key, value) :: rest, h => by
    obtain ⟨hvalue, hrest⟩ := List.forall_mem_append.mp h
    obtain ⟨value', hvalue'⟩ := exists_mapStrings hvalue
    obtain ⟨rest', hrest'⟩ := exists_mapFields hrest
    exact ⟨(key, value') :: rest', bind_eq_ok.mpr ⟨value', hvalue', bind_eq_ok.mpr ⟨rest', hrest', rfl⟩⟩⟩

end

mutual

/-- A pass that does not fail has failed on no leaf. -/
theorem exists_of_mapStrings {text : Text} : ∀ {value value' : Json}, value.mapStrings f = .ok value' →
    text ∈ value.leaves → ∃ new, f text = .ok new
  | .string leaf, _, h, htext => by
    obtain rfl := List.mem_singleton.mp htext
    obtain ⟨new, hnew, -⟩ := map_eq_ok.mp h
    exact ⟨new, hnew⟩
  | .array items, _, h, htext => by
    obtain ⟨items', hitems, -⟩ := map_eq_ok.mp h
    exact exists_of_mapItems hitems htext
  | .object fields, _, h, htext => by
    obtain ⟨fields', hfields, -⟩ := map_eq_ok.mp h
    exact exists_of_mapFields hfields htext

theorem exists_of_mapItems {text : Text} : ∀ {items items' : List Json}, mapItems f items = .ok items' →
    text ∈ leavesOfItems items → ∃ new, f text = .ok new
  | item :: rest, _, h, htext => by
    obtain ⟨item', hitem, h⟩ := bind_eq_ok.mp h
    obtain ⟨rest', hrest, -⟩ := bind_eq_ok.mp h
    rcases List.mem_append.mp htext with htext | htext
    · exact exists_of_mapStrings hitem htext
    · exact exists_of_mapItems hrest htext

theorem exists_of_mapFields {text : Text} : ∀ {fields fields' : List (Text × Json)},
    mapFields f fields = .ok fields' → text ∈ leavesOfFields fields → ∃ new, f text = .ok new
  | (key, value) :: rest, _, h, htext => by
    obtain ⟨value', hvalue, h⟩ := bind_eq_ok.mp h
    obtain ⟨rest', hrest, -⟩ := bind_eq_ok.mp h
    rcases List.mem_append.mp htext with htext | htext
    · exact exists_of_mapStrings hvalue htext
    · exact exists_of_mapFields hrest htext

end

mutual

/-- Every leaf after a pass is one of what the pass makes of a leaf. -/
theorem exists_mem_leaves_of_mapStrings {text : Text} : ∀ {value value' : Json},
    value.mapStrings f = .ok value' → text ∈ value'.leaves →
      ∃ leaf ∈ value.leaves, ∃ new, leafResult f leaf = .ok new ∧ text ∈ new.leaves
  | .string leaf, value', h, htext => by
    rw [mapStrings_string] at h
    exact ⟨leaf, List.mem_singleton_self leaf, value', h, htext⟩
  | .array items, _, h, htext => by
    obtain ⟨items', hitems, rfl⟩ := map_eq_ok.mp h
    exact exists_mem_leaves_of_mapItems hitems htext
  | .object fields, _, h, htext => by
    obtain ⟨fields', hfields, rfl⟩ := map_eq_ok.mp h
    exact exists_mem_leaves_of_mapFields hfields htext
  | .null, _, h, htext | .bool _, _, h, htext | .number _, _, h, htext => by
    cases h
    cases htext

/-- The same for a list of values. -/
theorem exists_mem_leaves_of_mapItems {text : Text} : ∀ {items items' : List Json},
    mapItems f items = .ok items' → text ∈ leavesOfItems items' →
      ∃ leaf ∈ leavesOfItems items, ∃ new, leafResult f leaf = .ok new ∧ text ∈ new.leaves
  | [], _, h, htext => by
    cases h
    cases htext
  | item :: rest, _, h, htext => by
    obtain ⟨item', hitem, h⟩ := bind_eq_ok.mp h
    obtain ⟨rest', hrest, h⟩ := bind_eq_ok.mp h
    cases h
    rcases List.mem_append.mp htext with htext | htext
    · obtain ⟨leaf, hleaf, hnew⟩ := exists_mem_leaves_of_mapStrings hitem htext
      exact ⟨leaf, List.mem_append_left _ hleaf, hnew⟩
    · obtain ⟨leaf, hleaf, hnew⟩ := exists_mem_leaves_of_mapItems hrest htext
      exact ⟨leaf, List.mem_append_right _ hleaf, hnew⟩

/-- The same for a list of entries. -/
theorem exists_mem_leaves_of_mapFields {text : Text} : ∀ {fields fields' : List (Text × Json)},
    mapFields f fields = .ok fields' → text ∈ leavesOfFields fields' →
      ∃ leaf ∈ leavesOfFields fields, ∃ new, leafResult f leaf = .ok new ∧ text ∈ new.leaves
  | [], _, h, htext => by
    cases h
    cases htext
  | (key, value) :: rest, _, h, htext => by
    obtain ⟨value', hvalue, h⟩ := bind_eq_ok.mp h
    obtain ⟨rest', hrest, h⟩ := bind_eq_ok.mp h
    cases h
    rcases List.mem_append.mp htext with htext | htext
    · obtain ⟨leaf, hleaf, hnew⟩ := exists_mem_leaves_of_mapStrings hvalue htext
      exact ⟨leaf, List.mem_append_left _ hleaf, hnew⟩
    · obtain ⟨leaf, hleaf, hnew⟩ := exists_mem_leaves_of_mapFields hrest htext
      exact ⟨leaf, List.mem_append_right _ hleaf, hnew⟩

end

/-! ## Shape -/

/-- Two values of one shape, whose string leaves are related one by one. -/
inductive LeafWise (R : Text → Text → Prop) : Json → Json → Prop where
  | null : LeafWise R .null .null
  | bool (value : Bool) : LeafWise R (.bool value) (.bool value)
  | number (value : Number) : LeafWise R (.number value) (.number value)
  | string {text text' : Text} (h : R text text') : LeafWise R (.string text) (.string text')
  | array {items items' : List Json} (h : List.Forall₂ (LeafWise R) items items') :
      LeafWise R (.array items) (.array items')
  | object {fields fields' : Object} (hkeys : fields'.keys = fields.keys)
      (h : List.Forall₂ (LeafWise R) (fields.map Prod.snd) (fields'.map Prod.snd)) :
      LeafWise R (.object fields) (.object fields')

section

variable {R : Text → Text → Prop}

/-- What an object has become is an object, with the same keys. -/
theorem LeafWise.exists_fields {fields : Object} {value : Json} (h : LeafWise R (.object fields) value) :
    ∃ fields', value = .object fields' ∧
      List.Forall₂ (fun entry entry' => entry'.1 = entry.1 ∧ LeafWise R entry.2 entry'.2) fields fields' := by
  cases h with
  | @object _ fields' hkeys hvalues =>
    refine ⟨fields', rfl, ?_⟩
    induction fields generalizing fields' with
    | nil =>
      cases fields' with
      | nil => exact .nil
      | cons => cases hkeys
    | cons entry fields ih =>
      cases fields' with
      | nil => cases hkeys
      | cons entry' fields' =>
        obtain ⟨hkey, hothers⟩ := List.cons.inj hkeys
        obtain ⟨hvalue, hrest⟩ := List.forall₂_cons.mp hvalues
        exact .cons ⟨hkey, hvalue⟩ (ih hothers hrest)

theorem exists_strings {texts : List Text} {items : List Json}
    (h : List.Forall₂ (LeafWise R) (texts.map .string) items) :
    ∃ texts', items = texts'.map .string ∧ List.Forall₂ R texts texts' := by
  induction texts generalizing items with
  | nil =>
    cases h
    exact ⟨[], rfl, .nil⟩
  | cons text texts ih =>
    obtain ⟨item, rest, hitem, hrest, rfl⟩ := List.forall₂_cons_left_iff.mp h
    obtain ⟨texts', rfl, htexts⟩ := ih hrest
    cases hitem with
    | @string _ text' hR => exact ⟨text' :: texts', rfl, .cons hR htexts⟩

/-- What an array of strings has become is one. -/
theorem LeafWise.exists_texts {texts : List Text} {value : Json} (h : LeafWise R (.ofTexts texts) value) :
    ∃ texts', value = .ofTexts texts' ∧ List.Forall₂ R texts texts' := by
  cases h with
  | array hitems =>
    obtain ⟨texts', rfl, htexts⟩ := exists_strings hitems
    exact ⟨texts', rfl, htexts⟩

theorem leafWise_ofTexts {texts texts' : List Text} (h : List.Forall₂ R texts texts') :
    LeafWise R (.ofTexts texts) (.ofTexts texts') := by
  refine .array ?_
  rw [List.forall₂_map_left_iff, List.forall₂_map_right_iff]
  exact h.imp fun _ _ => LeafWise.string

mutual

/-- A pass that makes related texts of the leaves makes a value of the same shape. -/
theorem leafWise_of_mapStrings : ∀ {value value' : Json}, value.mapStrings f = .ok value' →
    (∀ text ∈ value.leaves, ∀ new, leafResult f text = .ok new → ∃ text', new = .string text' ∧ R text text') →
    LeafWise R value value'
  | .string text, value', h, hf => by
    rw [mapStrings_string] at h
    obtain ⟨text', rfl, hR⟩ := hf text (List.mem_singleton_self text) value' h
    exact .string hR
  | .array items, _, h, hf => by
    obtain ⟨items', hitems, rfl⟩ := map_eq_ok.mp h
    exact .array (leafWise_of_mapItems hitems hf)
  | .object fields, _, h, hf => by
    obtain ⟨fields', hfields, rfl⟩ := map_eq_ok.mp h
    obtain ⟨hkeys, hvalues⟩ := leafWise_of_mapFields hfields hf
    exact .object hkeys hvalues
  | .null, _, h, _ => by cases h; exact .null
  | .bool value, _, h, _ => by cases h; exact .bool value
  | .number value, _, h, _ => by cases h; exact .number value

/-- The same for a list of values. -/
theorem leafWise_of_mapItems : ∀ {items items' : List Json}, mapItems f items = .ok items' →
    (∀ text ∈ leavesOfItems items, ∀ new, leafResult f text = .ok new →
      ∃ text', new = .string text' ∧ R text text') → List.Forall₂ (LeafWise R) items items'
  | [], _, h, _ => by cases h; exact .nil
  | item :: rest, _, h, hf => by
    obtain ⟨item', hitem, h⟩ := bind_eq_ok.mp h
    obtain ⟨rest', hrest, h⟩ := bind_eq_ok.mp h
    cases h
    obtain ⟨hfirst, hothers⟩ := List.forall_mem_append.mp hf
    exact .cons (leafWise_of_mapStrings hitem hfirst) (leafWise_of_mapItems hrest hothers)

/-- The same for a list of entries. -/
theorem leafWise_of_mapFields : ∀ {fields fields' : Object}, mapFields f fields = .ok fields' →
    (∀ text ∈ leavesOfFields fields, ∀ new, leafResult f text = .ok new →
      ∃ text', new = .string text' ∧ R text text') → fields'.keys = fields.keys ∧
      List.Forall₂ (LeafWise R) (fields.map Prod.snd) (fields'.map Prod.snd)
  | [], _, h, _ => by cases h; exact ⟨rfl, .nil⟩
  | (key, value) :: rest, _, h, hf => by
    obtain ⟨value', hvalue, h⟩ := bind_eq_ok.mp h
    obtain ⟨rest', hrest, h⟩ := bind_eq_ok.mp h
    cases h
    obtain ⟨hfirst, hothers⟩ := List.forall_mem_append.mp hf
    obtain ⟨hkeys, hvalues⟩ := leafWise_of_mapFields hrest hothers
    exact ⟨congrArg (key :: ·) hkeys, .cons (leafWise_of_mapStrings hvalue hfirst) hvalues⟩

end

mutual

/-- A pass that makes of every new leaf the one that it is related to leads back. -/
theorem mapStrings_of_leafWise (hf : ∀ text text', R text text' → leafResult f text' = .ok (.string text)) :
    ∀ {value value' : Json}, LeafWise R value value' → value'.mapStrings f = .ok value
  | .string text, _, .string h => by rw [mapStrings_string, hf text _ h]
  | .array items, _, .array h => map_eq_ok.mpr ⟨items, mapItems_of_leafWise hf h, rfl⟩
  | .object fields, _, .object hkeys h => map_eq_ok.mpr ⟨fields, mapFields_of_leafWise hf hkeys h, rfl⟩
  | .null, _, .null => rfl
  | .bool _, _, .bool _ => rfl
  | .number _, _, .number _ => rfl

/-- The same for a list of values. -/
theorem mapItems_of_leafWise (hf : ∀ text text', R text text' → leafResult f text' = .ok (.string text)) :
    ∀ {items items' : List Json}, List.Forall₂ (LeafWise R) items items' → mapItems f items' = .ok items
  | [], _, .nil => rfl
  | item :: rest, _, .cons h hrest => by
    rw [mapItems]
    exact bind_eq_ok.mpr ⟨item, mapStrings_of_leafWise hf h,
      bind_eq_ok.mpr ⟨rest, mapItems_of_leafWise hf hrest, rfl⟩⟩

/-- The same for a list of entries. -/
theorem mapFields_of_leafWise (hf : ∀ text text', R text text' → leafResult f text' = .ok (.string text)) :
    ∀ {fields fields' : Object}, fields'.keys = fields.keys →
      List.Forall₂ (LeafWise R) (fields.map Prod.snd) (fields'.map Prod.snd) → mapFields f fields' = .ok fields
  | [], [], _, _ => rfl
  | (key, value) :: rest, (key', value') :: rest', hkeys, h => by
    obtain ⟨hkey, hothers⟩ := List.cons.inj hkeys
    obtain rfl : key' = key := hkey
    obtain ⟨hvalue, hrest⟩ := List.forall₂_cons.mp h
    rw [mapFields]
    exact bind_eq_ok.mpr ⟨value, mapStrings_of_leafWise hf hvalue,
      bind_eq_ok.mpr ⟨rest, mapFields_of_leafWise hf hothers hrest, rfl⟩⟩

end

end

end Json

end CachedWorkflow
