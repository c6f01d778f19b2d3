import CachedWorkflow.Pipeline.Binding
import CachedWorkflow.Proofs.Json.Leaves
import CachedWorkflow.Proofs.Template.Renaming

/-!
# Proofs: binding names to values

All names of a binding extend the name that is bound, by members and items. A binding is put into a
document in two passes: a leaf that is exactly one bound name takes the value, and then the second
pass goes over the whole document, the values of the first pass included. So what stands in the place
of such a leaf is not the bound value but what the second pass makes of it (`input_leaf`).
-/

namespace CachedWorkflow

open Renaming Template

namespace Binding

/-! ## The names of a binding -/

/-- What follows the bound name in the name of a part: nothing, or a member or an item. -/
def IsAccess (suffix : Text) : Prop := ∀ c ∈ suffix.head?, c = '.' ∨ c = '['

theorem IsAccess.head?_not_name {suffix : Text} (h : IsAccess suffix) :
    ∀ c ∈ suffix.head?, isJobIdChar c = false := by
  intro c hc
  rcases h c hc with rfl | rfl <;> decide

mutual

theorem exists_access_of_mem_ofValue : ∀ (name : Text) (value : Json),
    ∀ pair ∈ ofValue name value, ∃ suffix, pair.1 = name ++ suffix ∧ IsAccess suffix
  | name, .array items, pair, h => by
    rw [ofValue, List.mem_append, List.mem_singleton] at h
    rcases h with h | rfl
    · obtain ⟨suffix, hs, -, ha⟩ := exists_access_of_mem_ofItems name 0 items pair h
      exact ⟨suffix, hs, ha⟩
    · exact ⟨[], (List.append_nil name).symm, nofun⟩
  | name, .object fields, pair, h => by
    rw [ofValue, List.mem_append, List.mem_singleton] at h
    rcases h with h | rfl
    · obtain ⟨suffix, hs, -, ha⟩ := exists_access_of_mem_ofFields name fields pair h
      exact ⟨suffix, hs, ha⟩
    · exact ⟨[], (List.append_nil name).symm, nofun⟩
  | name, .null, pair, h | name, .bool _, pair, h | name, .number _, pair, h
  | name, .string _, pair, h => by
    rw [ofValue, List.mem_singleton] at h
    exact ⟨[], by rw [h, List.append_nil], nofun⟩

theorem exists_access_of_mem_ofItems : ∀ (name : Text) (index : Nat) (items : List Json),
    ∀ pair ∈ ofItems name index items,
      ∃ suffix, pair.1 = name ++ suffix ∧ suffix ≠ [] ∧ IsAccess suffix
  | _, _, [], _, h => by simp [ofItems] at h
  | name, index, item :: rest, pair, h => by
    rw [ofItems, List.mem_append] at h
    rcases h with h | h
    · obtain ⟨suffix, hs, -⟩ := exists_access_of_mem_ofValue _ item pair h
      refine ⟨"[" ++ Text.ofNat index ++ "]" ++ suffix, ?_, by simp, ?_⟩
      · simp [hs]
      · intro c hc
        exact .inr (Option.some.inj hc).symm
    · exact exists_access_of_mem_ofItems name (index + 1) rest pair h

theorem exists_access_of_mem_ofFields : ∀ (name : Text) (fields : List (Text × Json)),
    ∀ pair ∈ ofFields name fields,
      ∃ suffix, pair.1 = name ++ suffix ∧ suffix ≠ [] ∧ IsAccess suffix
  | _, [], _, h => by simp [ofFields] at h
  | name, (key, value) :: rest, pair, h => by
    rw [ofFields, List.mem_append] at h
    rcases h with h | h
    · obtain ⟨suffix, hs, -⟩ := exists_access_of_mem_ofValue _ value pair h
      refine ⟨"." ++ key ++ suffix, ?_, by simp, ?_⟩
      · simp [hs]
      · intro c hc
        exact .inl (Option.some.inj hc).symm
    · exact exists_access_of_mem_ofFields name rest pair h

end

/-! ## Looking up a bound name -/

theorem lookup?_ofItems_self (name : Text) (index : Nat) (items : List Json) :
    Object.get? (ofItems name index items) name = none := by
  rw [Object.get?_eq_none_iff]
  intro hmem
  obtain ⟨pair, hpair, hname⟩ := List.mem_map.mp hmem
  obtain ⟨suffix, hs, hne, -⟩ := exists_access_of_mem_ofItems name index items pair hpair
  exact hne (List.append_right_eq_self.mp (hs.symm.trans hname))

theorem lookup?_ofFields_self (name : Text) (fields : List (Text × Json)) :
    Object.get? (ofFields name fields) name = none := by
  rw [Object.get?_eq_none_iff]
  intro hmem
  obtain ⟨pair, hpair, hname⟩ := List.mem_map.mp hmem
  obtain ⟨suffix, hs, hne, -⟩ := exists_access_of_mem_ofFields name fields pair hpair
  exact hne (List.append_right_eq_self.mp (hs.symm.trans hname))

/-- The bound name itself stands for the value. -/
theorem lookup?_ofValue_self (name : Text) (value : Json) :
    Object.get? (ofValue name value) name = some value := by
  cases value with
  | array items =>
    rw [ofValue, Object.get?_append, lookup?_ofItems_self, Option.none_or, Object.get?, if_pos rfl]
  | object fields =>
    rw [ofValue, Object.get?_append, lookup?_ofFields_self, Option.none_or, Object.get?, if_pos rfl]
  | _ => rw [ofValue, Object.get?, if_pos rfl]

/-- The name of a member stands for its value, if the keys of the object are names. -/
theorem get?_ofFields {name : Text} {fields : Object} (hkeys : ∀ key ∈ fields.keys, IsName key)
    {key : Text} {value : Json} (h : fields.get? key = some value) :
    Object.get? (ofFields name fields) (name ++ "." ++ key) = some value := by
  have hkey : IsName key := hkeys key (Object.mem_keys_of_get? h)
  induction fields with
  | nil => cases h
  | cons entry rest ih =>
    obtain ⟨first, v⟩ := entry
    rw [ofFields, Object.get?_append]
    rw [Object.get?] at h
    by_cases hfirst : first = key
    · rw [if_pos hfirst] at h
      cases h
      rw [hfirst, lookup?_ofValue_self, Option.some_or]
    · rw [if_neg hfirst] at h
      have hnone : Object.get? (ofValue (name ++ "." ++ first) v) (name ++ "." ++ key) = none := by
        rw [Object.get?_eq_none_iff]
        intro hmem
        obtain ⟨pair, hpair, hname⟩ := List.mem_map.mp hmem
        obtain ⟨suffix, hs, ha⟩ := exists_access_of_mem_ofValue _ v pair hpair
        have heq : first ++ suffix = key ++ [] := by
          rw [hs, List.append_assoc] at hname
          rw [List.append_nil]
          exact List.append_cancel_left hname
        exact hfirst (run_append_inj (hkeys first List.mem_cons_self).chars hkey.chars
          ha.head?_not_name (by simp) heq).1
      rw [hnone, Option.none_or]
      exact ih (fun k hk => hkeys k (List.mem_cons_of_mem _ hk)) h

/-- The binding of the inputs of a pipeline. -/
def ofInputs (inputs : Object) : Binding := ofValue "inputs" (.object inputs)

/-- An input is known by its key. -/
theorem lookup?_input {inputs : Object} (hkeys : ∀ key ∈ inputs.keys, IsName key) {key : Text}
    {value : Json} (h : inputs.get? key = some value) :
    (ofInputs inputs).lookup? ("inputs." ++ key) = some value := by
  have hfield : Object.get? (ofFields "inputs" inputs) ("inputs." ++ key) = some value :=
    get?_ofFields hkeys h
  rw [lookup?, ofInputs, ofValue, Object.get?_append, hfield, Option.some_or]

/-! ## The two passes of a substitution -/

/-- The inlined expressions are those of the bound values, under the same names. -/
theorem toRenaming_eq_ok {binding : Binding} {inlined : Renaming} :
    binding.toRenaming = .ok inlined ↔
      List.Forall₂ (fun pair pair' => pair'.1 = pair.1 ∧ pair.2.toExpression = .ok pair'.2)
        binding inlined := by
  rw [toRenaming, mapM_eq_ok]
  refine iff_of_eq (congrArg (List.Forall₂ · binding inlined) ?_)
  funext ⟨name, value⟩ ⟨name', expression⟩
  rw [bind_eq_ok, eq_iff_iff]
  constructor
  · rintro ⟨e, he, h⟩
    cases h
    exact ⟨rfl, he⟩
  · rintro ⟨rfl, h⟩
    exact ⟨expression, h, rfl⟩

theorem names_of_toRenaming {binding : Binding} {inlined : Renaming}
    (h : binding.toRenaming = .ok inlined) :
    inlined.map Prod.fst = Object.keys binding := by
  have hpairs := toRenaming_eq_ok.mp h
  clear h
  induction hpairs with
  | nil => rfl
  | cons hpair _ ih => rw [List.map_cons, ih, hpair.1, Object.keys_cons]

theorem leafResult_renaming {pairs : Renaming} {text new : Text} :
    Json.leafResult (fun t => (pairs.applyToTemplate t).map fun new => some (.string new)) text
      = .ok (.string new) ↔ pairs.applyToTemplate text = .ok new := by
  rw [Json.leafResult]
  cases pairs.applyToTemplate text <;> simp [Except.map]

/-- What both passes of a substitution keep of a document the substitution keeps. -/
theorem substitute_object {binding : Binding} {motive : Object → Prop} {document : Object} {value : Json}
    (hresult : binding.substitute (.object document) = .ok value) (h : motive document)
    (hvalues : ∀ document value, motive document → (Json.object document).mapStrings
      (fun text => (fullExpression? text).map fun e => e.bind binding.lookup?) = .ok value →
        ∃ document', value = .object document' ∧ motive document')
    (hinlining : ∀ inlined, binding.toRenaming = .ok inlined → ∀ document value, motive document →
      inlined.applyToValue (.object document) = .ok value →
        ∃ document', value = .object document' ∧ motive document') :
    ∃ document', value = .object document' ∧ motive document' := by
  obtain ⟨inlined, hinlined, hpasses⟩ := bind_eq_ok.mp hresult
  obtain ⟨between, hfirst, hsecond⟩ := bind_eq_ok.mp hpasses
  have hbetween : ∃ document', between = .object document' ∧ motive document' := by
    rw [Binding.applyToValue] at hfirst
    by_cases hempty : binding.isEmpty = true
    · rw [if_pos hempty] at hfirst
      cases hfirst
      exact ⟨document, rfl, h⟩
    · rw [if_neg hempty] at hfirst
      exact hvalues document between h hfirst
  obtain ⟨document', rfl, hdocument'⟩ := hbetween
  exact hinlining inlined hinlined document' value hdocument' hsecond

/-- A leaf that is exactly one bound name ends up as what the second pass makes of the bound value. -/
theorem substitute_leaf {binding : Binding} {document result value : Json}
    {position : List Json.Step} {leaf name : Text}
    (hleaf : document.at? position = some (.string leaf))
    (hfull : fullExpression? leaf = .ok (some name)) (hvalue : binding.lookup? name = some value)
    (hresult : binding.substitute document = .ok result) :
    ∃ inlined bound, binding.toRenaming = .ok inlined ∧ result.at? position = some bound ∧
      inlined.applyToValue value = .ok bound := by
  rw [substitute, bind_eq_ok] at hresult
  obtain ⟨inlined, hinlined, hresult⟩ := hresult
  obtain ⟨between, hfirst, hsecond⟩ := bind_eq_ok.mp hresult
  have hbinding : ¬ binding.isEmpty = true := by
    rw [List.isEmpty_iff]
    rintro rfl
    cases hvalue
  rw [Binding.applyToValue, if_neg hbinding] at hfirst
  obtain ⟨part, hpart, hmap⟩ := Json.at?_mapStrings hfirst hleaf
  have hpartvalue : part = value := by
    rw [Json.mapStrings_string, Json.leafResult, hfull] at hmap
    simp only [Except.map, Option.bind_some, hvalue, Option.getD_some, Except.ok.injEq] at hmap
    exact hmap.symm
  subst hpartvalue
  obtain ⟨bound, hbound, hmap⟩ := Json.at?_mapStrings hsecond hpart
  exact ⟨inlined, bound, hinlined, hbound, hmap⟩

/-- A leaf that is not exactly one bound name ends up with its expressions rewritten. -/
theorem substitute_other {binding : Binding} {inlined : Renaming} {document between result : Json}
    {position : List Json.Step} {leaf : Text} {tokens : List Token}
    (hleaf : document.at? position = some (.string leaf)) (hscan : scan leaf = .ok tokens)
    (hother : ∀ name, fullExpression? leaf = .ok (some name) → binding.lookup? name = none)
    (hfirst : binding.applyToValue document = .ok between)
    (hsecond : inlined.applyToValue between = .ok result) :
    result.at? position = some (.string (embed (tokens.map inlined.rewritten))) := by
  have hbetween : between.at? position = some (.string leaf) := by
    rw [Binding.applyToValue] at hfirst
    by_cases hempty : binding.isEmpty = true
    · rw [if_pos hempty] at hfirst
      cases hfirst
      exact hleaf
    · rw [if_neg hempty] at hfirst
      obtain ⟨part, hpart, hmap⟩ := Json.at?_mapStrings hfirst hleaf
      obtain ⟨new, hnew, rfl⟩ := map_eq_ok.mp hmap
      obtain ⟨full, hfull, rfl⟩ := map_eq_ok.mp hnew
      have hnone : full.bind binding.lookup? = none := by
        cases full with
        | none => rfl
        | some name => exact hother name hfull
      rw [hnone] at hpart
      exact hpart
  obtain ⟨bound, hbound, hmap⟩ := Json.at?_mapStrings hsecond hbetween
  rw [Json.mapStrings_string, leafResult_renaming.mpr (applyToTemplate_eq hscan)] at hmap
  cases hmap
  exact hbound

/-- The second pass leaves a value alone exactly if it leaves every template in it alone. -/
theorem applyToValue_eq_self_iff {pairs : Renaming} {value : Json} :
    pairs.applyToValue value = .ok value ↔
      ∀ text ∈ value.leaves, pairs.applyToTemplate text = .ok text := by
  rw [Renaming.applyToValue, Json.mapStrings_eq_self_iff]
  exact forall_congr' fun text => imp_congr_right fun _ => leafResult_renaming

/-! ## Inputs -/

theorem eq_of_mem_ofValue_self {name : Text} {value v : Json} (h : (name, v) ∈ ofValue name value) :
    v = value := by
  have hitems : ∀ items, (name, v) ∉ ofItems name 0 items := fun items hmem =>
    Object.get?_eq_none_iff.mp (lookup?_ofItems_self name 0 items) (Object.mem_keys_of_mem hmem)
  have hfields : ∀ fields, (name, v) ∉ ofFields name fields := fun fields hmem =>
    Object.get?_eq_none_iff.mp (lookup?_ofFields_self name fields) (Object.mem_keys_of_mem hmem)
  cases value <;> simp_all [ofValue]

/-- A name of the inputs is that of all inputs, or that of one input and a part of its value. -/
theorem mem_ofInputs {inputs : Object} {pair : Text × Json} (h : pair ∈ ofInputs inputs) :
    pair.1 = "inputs" ∨ ∃ key value suffix, (key, value) ∈ inputs ∧ IsAccess suffix ∧
      pair.1 = "inputs." ++ key ++ suffix ∧ pair ∈ ofValue ("inputs." ++ key) value := by
  rw [ofInputs, ofValue, List.mem_append, List.mem_singleton] at h
  rcases h with h | rfl
  · right
    suffices ∀ fields : Object, pair ∈ ofFields "inputs" fields →
        ∃ key value, (key, value) ∈ fields ∧ pair ∈ ofValue ("inputs." ++ key) value by
      obtain ⟨key, value, hmem, hpair⟩ := this inputs h
      obtain ⟨suffix, hs, ha⟩ := exists_access_of_mem_ofValue _ _ _ hpair
      exact ⟨key, value, suffix, hmem, ha, hs, hpair⟩
    intro fields
    induction fields with
    | nil => intro h; cases h
    | cons entry rest ih =>
      intro h
      rw [ofFields, List.mem_append] at h
      rcases h with h | h
      · exact ⟨entry.1, entry.2, List.mem_cons_self, h⟩
      · obtain ⟨key, value, hmem, hpair⟩ := ih h
        exact ⟨key, value, List.mem_cons_of_mem _ hmem, hpair⟩
  · exact .inl rfl

/-- The name of an input stands for nothing else than its value. -/
theorem eq_of_mem_ofInputs {inputs : Object} (hkeys : ∀ key ∈ inputs.keys, IsName key)
    (hd : inputs.Distinct) {key : Text} {value v : Json} (hkey : IsName key)
    (hvalue : inputs.get? key = some value) (h : ("inputs." ++ key, v) ∈ ofInputs inputs) :
    v = value := by
  rcases mem_ofInputs h with hname | ⟨k, value', suffix, hmem, ha, hname, hpair⟩
  · exact absurd hname (by simp)
  · have heq : key ++ [] = k ++ suffix := by
      have hsame : ("inputs." : Text) ++ key = "inputs." ++ (k ++ suffix) :=
        hname.trans (List.append_assoc _ _ _)
      rw [List.append_nil]
      exact List.append_cancel_left hsame
    obtain ⟨rfl, -⟩ := run_append_inj hkey.chars (hkeys k (Object.mem_keys_of_mem hmem)).chars
      (by simp) ha.head?_not_name heq
    rw [eq_of_mem_ofValue_self hpair]
    exact Option.some.inj ((Object.get?_of_mem hd hmem).symm.trans hvalue)

theorem head?_of_mem_ofInputs {inputs : Object} {inlined : Renaming}
    (h : (ofInputs inputs).toRenaming = .ok inlined) :
    ∀ pair ∈ inlined, ∀ c ∈ pair.1.head?, isIdentifierChar c = true := by
  intro pair hpair c hc
  have hname : pair.1 ∈ Object.keys (ofInputs inputs) := by
    rw [← names_of_toRenaming h]
    exact List.mem_map.mpr ⟨pair, hpair, rfl⟩
  obtain ⟨bound, hbound, heq⟩ := List.mem_map.mp hname
  obtain ⟨suffix, hs, -⟩ := exists_access_of_mem_ofValue _ _ bound hbound
  rw [← heq, hs] at hc
  cases hc
  decide

/-- Of the names of the inputs that begin a reference to an input, none is longer than the
reference. -/
theorem length_le_of_occursAt {inputs : Object} (hkeys : ∀ key ∈ inputs.keys, IsName key)
    {key after : Text} (hkey : IsName key) (hafter : ∀ c ∈ after, isWhiteSpace c = true)
    {pair : Text × Json} (hpair : pair ∈ ofInputs inputs)
    (hocc : occursAt pair.1 ("inputs." ++ key ++ after) = true) :
    pair.1.length ≤ ("inputs." ++ key : Text).length := by
  rcases mem_ofInputs hpair with hname | ⟨k, value, suffix, hmem, ha, hname, -⟩
  · rw [hname, List.length_append]
    exact Nat.le_add_right_of_le (by decide)
  · obtain ⟨-, rest, hrest, hend⟩ := occursAt_iff.mp hocc
    have heq : key ++ after = k ++ (suffix ++ rest) := by
      have hsame : ("inputs." : Text) ++ (key ++ after) = "inputs." ++ (k ++ (suffix ++ rest)) := by
        rw [← List.append_assoc, hrest, hname, List.append_assoc, List.append_assoc]
      exact List.append_cancel_left hsame
    have hk : ∀ c ∈ k, isJobIdChar c = true := (hkeys k (Object.mem_keys_of_mem hmem)).chars
    have hblank : ∀ c ∈ after.head?, isJobIdChar c = false := fun c hc =>
      isJobIdChar_eq_false (isIdentifierChar_of_isWhiteSpace (hafter c (List.mem_of_mem_head? hc)))
    cases suffix with
    | nil =>
      obtain ⟨rfl, -⟩ := run_append_inj hkey.chars hk hblank
        (fun c hc => isJobIdChar_eq_false (hend c hc)) heq
      rw [hname, List.append_nil]
    | cons c suffix =>
      obtain ⟨-, rfl⟩ := run_append_inj (s := c :: (suffix ++ rest)) hkey.chars hk hblank
        ha.head?_not_name heq
      -- the access would begin with a blank
      have hspace := hafter c List.mem_cons_self
      rcases ha c rfl with rfl | rfl <;> cases hspace

/-- A placeholder that is exactly one input becomes the placeholder of what stands for it. -/
theorem applyToTemplate_input {inputs : Object} {inlined : Renaming} {text key : Text} {value : Json}
    (hkeys : ∀ key ∈ inputs.keys, IsName key) (hd : inputs.Distinct)
    (hinlined : (ofInputs inputs).toRenaming = .ok inlined)
    (hfull : fullExpression? text = .ok (some ("inputs." ++ key)))
    (hvalue : inputs.get? key = some value) :
    ∃ before expression after, value.toExpression = .ok expression ∧
      inlined.applyToTemplate text = .ok (opening ++ (before ++ expression ++ after) ++ closing) := by
  obtain ⟨source, hscan, htrim⟩ := fullExpression?_eq_some.mp hfull
  obtain ⟨before, after, hbefore, hafter, hsource⟩ := Text.exists_eq_trimmed isWhiteSpace source
  rw [htrim] at hsource
  have hkey : IsName key := hkeys key (Object.mem_keys_of_get? hvalue)
  have hpairs := toRenaming_eq_ok.mp hinlined
  have hocc : occursAt ("inputs." ++ key) ("inputs." ++ key ++ after) = true :=
    occursAt_iff.mpr ⟨by simp, after, rfl, fun c hc =>
      isIdentifierChar_of_isWhiteSpace (hafter c (List.mem_of_mem_head? hc))⟩
  have hbound : ∃ pair ∈ inlined, pair.1 = "inputs." ++ key := by
    obtain ⟨pair, hmem, hname, -⟩ := exists_of_mem_left hpairs
      (Object.mem_of_get? (lookup?_input hkeys hvalue))
    exact ⟨pair, hmem, hname⟩
  have hmax : ∀ pair ∈ inlined, occursAt pair.1 ("inputs." ++ key ++ after) = true →
      pair.1.length ≤ ("inputs." ++ key : Text).length := by
    intro pair hpair hpairocc
    obtain ⟨bound, hmem, hname, -⟩ := exists_of_mem_right hpairs hpair
    rw [hname] at hpairocc ⊢
    exact length_le_of_occursAt hkeys hkey hafter hmem hpairocc
  obtain ⟨expression, hmem, hlongest⟩ := longest?_eq_of_mem hbound hocc hmax
  refine ⟨before, expression, after, ?_, ?_⟩
  · obtain ⟨⟨name, v⟩, hpair, hname, he⟩ := exists_of_mem_right hpairs hmem
    obtain rfl : "inputs." ++ key = name := hname
    rwa [eq_of_mem_ofInputs hkeys hd hkey hvalue hpair] at he
  · have hlead : ∀ c ∈ ("inputs." : Text), joinsNext c = true := by decide
    have hjoins : ∀ c ∈ ("inputs." ++ key : Text), joinsNext c = true := by
      intro c hc
      rcases List.mem_append.mp hc with hc | hc
      · exact hlead c hc
      · exact joinsNext_of_isIdentifierChar (isIdentifierChar_of_isJobIdChar (hkey.chars c hc))
    rw [applyToTemplate_placeholder hscan, hsource,
      apply_reference hbefore hafter (head?_of_mem_ofInputs hinlined) hjoins hlongest]

/-- A template none of whose expressions mentions one of the names. -/
def IsFreeOf (names : List Text) (template : Text) : Prop :=
  ∃ tokens, scan template = .ok tokens ∧
    ∀ source, .expression source ∈ tokens → ∀ name ∈ names, ¬ Mentions source name

/-- What becomes of a leaf that is exactly one input. It takes the value of the input, but only what
the second pass makes of it: the leaf ends up as the value precisely if that pass leaves every
template in the value alone. It does if none of them mentions an input. A value that is itself
exactly one input, as when a caller hands on an input of its own, is captured: it gives way to the
expression of the input that has this name here. -/
theorem input_leaf_eq_value_iff {inputs : Object} {child result value : Json}
    {position : List Json.Step} {leaf key : Text}
    (hkeys : ∀ key ∈ inputs.keys, IsName key) (hd : inputs.Distinct)
    (hleaf : child.at? position = some (.string leaf))
    (hfull : fullExpression? leaf = .ok (some ("inputs." ++ key)))
    (hvalue : inputs.get? key = some value)
    (hresult : (ofInputs inputs).substitute child = .ok result) :
    ∃ inlined bound, (ofInputs inputs).toRenaming = .ok inlined ∧
      result.at? position = some bound ∧
      (bound = value ↔ ∀ text ∈ value.leaves, inlined.applyToTemplate text = .ok text) ∧
      ((∀ text ∈ value.leaves, IsFreeOf (Object.keys (ofInputs inputs)) text) → bound = value) ∧
      ∀ text other v, value = .string text →
        fullExpression? text = .ok (some ("inputs." ++ other)) → inputs.get? other = some v →
        ∃ before expression after, v.toExpression = .ok expression ∧
          bound = .string (opening ++ (before ++ expression ++ after) ++ closing) := by
  obtain ⟨inlined, bound, hinlined, hbound, hpass⟩ :=
    substitute_leaf hleaf hfull (lookup?_input hkeys hvalue) hresult
  have hiff : bound = value ↔ ∀ text ∈ value.leaves, inlined.applyToTemplate text = .ok text := by
    rw [← applyToValue_eq_self_iff, hpass, Except.ok.injEq]
  refine ⟨inlined, bound, hinlined, hbound, hiff, ?_, ?_⟩
  · intro hfree
    rw [hiff]
    intro text htext
    obtain ⟨tokens, hscan, hno⟩ := hfree text htext
    refine applyToTemplate_eq_self hscan fun source hsource pair hpair => ?_
    refine hno source hsource pair.1 ?_
    rw [← names_of_toRenaming hinlined]
    exact List.mem_map.mpr ⟨pair, hpair, rfl⟩
  · rintro text other v rfl htext hother
    obtain ⟨before, expression, after, hexpression, happly⟩ :=
      applyToTemplate_input hkeys hd hinlined htext hother
    refine ⟨before, expression, after, hexpression, ?_⟩
    rw [Renaming.applyToValue, Json.mapStrings_string, Json.leafResult, happly] at hpass
    exact (Except.ok.inj hpass).symm

/-- The inputs of a call site that hands on an input of its own, by another name of the child. -/
def handedOn : Object :=
  [("target", .string (placeholder "inputs.other")), ("other", .string "v")]

/-- A child with a leaf that is exactly one of these inputs. -/
def handedOnTo : Json := .object [("env", .string (placeholder "inputs.target"))]

theorem input_leaf_eq_value_iff_handedOn :
    ∃ (inlined : Renaming) (bound : Json), (ofInputs handedOn).toRenaming = .ok inlined ∧
      (Json.object [("env", .string (placeholder "'v'"))]).at? [.member "env"] = some bound ∧
      (bound = .string (placeholder "inputs.other") ↔
        ∀ text ∈ (Json.string (placeholder "inputs.other")).leaves,
          inlined.applyToTemplate text = .ok text) := by
  have hleaf : handedOnTo.at? [.member "env"] = some (.string (placeholder "inputs.target")) := by
    decide +kernel
  have hfull : fullExpression? (placeholder "inputs.target") = .ok (some ("inputs." ++ "target")) := by
    decide +kernel
  have hvalue : handedOn.get? "target" = some (.string (placeholder "inputs.other")) := by
    decide +kernel
  have hresult : (ofInputs handedOn).substitute handedOnTo
      = .ok (.object [("env", .string (placeholder "'v'"))]) := by
    decide +kernel
  obtain ⟨inlined, bound, hinlined, hbound, hiff, -⟩ := input_leaf_eq_value_iff
    (by decide +kernel) (by decide +kernel) hleaf hfull hvalue hresult
  exact ⟨inlined, bound, hinlined, hbound, hiff⟩

/-- A leaf that is exactly one input does not always end up as the value of the input. -/
theorem not_forall_input_leaf_eq_value :
    ¬ ∀ (inputs : Object) (child result value : Json) (position : List Json.Step) (leaf key : Text),
      (∀ key ∈ inputs.keys, IsName key) → inputs.Distinct →
      child.at? position = some (.string leaf) →
      fullExpression? leaf = .ok (some ("inputs." ++ key)) → inputs.get? key = some value →
      (ofInputs inputs).substitute child = .ok result → result.at? position = some value := by
  intro h
  have hvalue := h handedOn handedOnTo (.object [("env", .string (placeholder "'v'"))])
    (.string (placeholder "inputs.other")) [.member "env"] (placeholder "inputs.target") "target"
    (by decide +kernel) (by decide +kernel) (by decide +kernel) (by decide +kernel)
    (by decide +kernel) (by decide +kernel)
  revert hvalue
  decide +kernel

end Binding

end CachedWorkflow
