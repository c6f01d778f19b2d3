import CachedWorkflow.Proofs.Template.Rewiring
import CachedWorkflow.Template.Value

/-!
# Proofs: values whose strings are templates

A pass that has looked into every placeholder of a value leaves a value all of whose strings are templates
(`isScannable_of_ne_nil`). To such a value further passes can be made without failure, and it can be
rendered (`exists_applyToValue`, `exists_toJsonTemplate`).
-/

namespace CachedWorkflow

open Template

/-- Every string leaf of the value is a template. -/
def Json.IsScannable (value : Json) : Prop := ∀ text ∈ value.leaves, ∃ tokens, scan text = .ok tokens

theorem isScannable_array_iff {items : List Json} :
    (Json.array items).IsScannable ↔ ∀ item ∈ items, item.IsScannable := by
  constructor
  · intro h item hitem text htext
    exact h text (Json.mem_leavesOfItems.mpr ⟨item, hitem, htext⟩)
  · intro h text htext
    obtain ⟨item, hitem, htext⟩ := Json.mem_leavesOfItems.mp htext
    exact h item hitem text htext

/-! ## Passes -/

namespace Renaming

/-- A pair that can be put into any placeholder without breaking it. -/
structure IsSafe (pair : Text × Text) : Prop where
  balanced : endsQuoted pair.1 = false
  placeable : IsPlaceable pair.2

variable {pairs : Renaming} {value value' : Json}

/-- After a pass that had something to replace, all strings are templates. -/
theorem isScannable_of_ne_nil (hne : pairs ≠ []) (hsafe : ∀ pair ∈ pairs, IsSafe pair)
    (h : pairs.applyToValue value = .ok value') : value'.IsScannable := by
  intro text htext
  obtain ⟨leaf, -, new, hnew, hmem⟩ := Json.exists_mem_leaves_of_mapStrings h htext
  obtain ⟨new?, hmap, rfl⟩ := map_eq_ok.mp hnew
  obtain ⟨text', htext', rfl⟩ := map_eq_ok.mp hmap
  obtain rfl := List.mem_singleton.mp hmem
  obtain ⟨tokens, hscan, rfl⟩ := (applyToTemplate_eq_ok hne).mp htext'
  exact ⟨_, scan_rewritten hscan (fun pair hpair => (hsafe pair hpair).balanced)
    fun pair hpair => (hsafe pair hpair).placeable⟩

/-- A pass over templates does not fail. -/
theorem exists_applyToValue (pairs : Renaming) (h : value.IsScannable) :
    ∃ value', pairs.applyToValue value = .ok value' := by
  refine Json.exists_mapStrings fun text htext => ?_
  obtain ⟨tokens, hscan⟩ := h text htext
  rw [applyToTemplate_eq hscan]
  exact ⟨_, rfl⟩

/-- Templates stay templates in a pass. -/
theorem isScannable_of_applyToValue (hsafe : ∀ pair ∈ pairs, IsSafe pair) (h : value.IsScannable)
    (hpass : pairs.applyToValue value = .ok value') : value'.IsScannable := by
  by_cases hne : pairs = []
  · subst hne
    have hsame : Renaming.applyToValue [] value = .ok value :=
      (Json.mapStrings_eq_self_iff value).mpr fun text _ => rfl
    rw [hsame] at hpass
    cases hpass
    exact h
  · exact isScannable_of_ne_nil hne hsafe hpass

end Renaming

/-! ## Rendering -/

theorem exists_fullExpression? {text : Text} (h : ∃ tokens, scan text = .ok tokens) :
    ∃ expression?, fullExpression? text = .ok expression? := by
  obtain ⟨tokens, hscan⟩ := h
  rw [fullExpression?, hscan]
  split
  · exact ⟨_, rfl⟩
  · exact ⟨none, rfl⟩

theorem exists_toExpression {text : Text} (h : ∃ tokens, scan text = .ok tokens) :
    ∃ expression, Template.toExpression text = .ok expression := by
  obtain ⟨expression?, hfull⟩ := exists_fullExpression? h
  obtain ⟨tokens, hscan⟩ := h
  cases expression? with
  | some expression => exact ⟨expression, bind_eq_ok.mpr ⟨_, hfull, rfl⟩⟩
  | none =>
    refine ⟨render tokens, bind_eq_ok.mpr ⟨_, hfull, ?_⟩⟩
    show (scan text).map render = _
    rw [hscan]
    rfl

namespace Json

mutual

/-- Templates can be rendered. -/
theorem exists_toJsonTemplate : ∀ {value : Json}, (∀ text ∈ value.leaves, ∃ tokens, scan text = .ok tokens) →
    ∃ template, value.toJsonTemplate = .ok template
  | .string text, h => by
    obtain ⟨expression, hexpression⟩ := exists_toExpression (h text (List.mem_singleton_self text))
    exact ⟨_, by rw [toJsonTemplate]; exact bind_eq_ok.mpr ⟨expression, hexpression, rfl⟩⟩
  | .array items, h => by
    obtain ⟨parts, hparts⟩ := exists_itemTemplates h
    exact ⟨_, by rw [toJsonTemplate]; exact bind_eq_ok.mpr ⟨parts, hparts, rfl⟩⟩
  | .object fields, h => by
    obtain ⟨parts, hparts⟩ := exists_fieldTemplates h
    exact ⟨_, by rw [toJsonTemplate]; exact bind_eq_ok.mpr ⟨parts, hparts, rfl⟩⟩
  | .null, _ => ⟨_, by rw [toJsonTemplate]⟩
  | .bool _, _ => ⟨_, by rw [toJsonTemplate]⟩
  | .number _, _ => ⟨_, by rw [toJsonTemplate]⟩

theorem exists_itemTemplates : ∀ {items : List Json},
    (∀ text ∈ leavesOfItems items, ∃ tokens, scan text = .ok tokens) →
    ∃ parts, itemTemplates items = .ok parts
  | [], _ => ⟨[], by rw [itemTemplates]⟩
  | item :: rest, h => by
    obtain ⟨hitem, hrest⟩ := List.forall_mem_append.mp h
    obtain ⟨part, hpart⟩ := exists_toJsonTemplate hitem
    obtain ⟨parts, hparts⟩ := exists_itemTemplates hrest
    refine ⟨part :: parts, ?_⟩
    rw [itemTemplates]
    exact bind_eq_ok.mpr ⟨part, hpart, bind_eq_ok.mpr ⟨parts, hparts, rfl⟩⟩

theorem exists_fieldTemplates : ∀ {fields : List (Text × Json)},
    (∀ text ∈ leavesOfFields fields, ∃ tokens, scan text = .ok tokens) →
    ∃ parts, fieldTemplates fields = .ok parts
  | [], _ => ⟨[], by rw [fieldTemplates]⟩
  | (key, value) :: rest, h => by
    obtain ⟨hvalue, hrest⟩ := List.forall_mem_append.mp h
    obtain ⟨part, hpart⟩ := exists_toJsonTemplate hvalue
    obtain ⟨parts, hparts⟩ := exists_fieldTemplates hrest
    refine ⟨(stringLiteral key ++ ":" ++ part) :: parts, ?_⟩
    rw [fieldTemplates]
    exact bind_eq_ok.mpr ⟨part, hpart, bind_eq_ok.mpr ⟨parts, hparts, rfl⟩⟩

end

end Json

end CachedWorkflow
