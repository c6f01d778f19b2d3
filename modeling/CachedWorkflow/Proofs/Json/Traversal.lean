import CachedWorkflow.Proofs.Json.Leaves

/-!
# Proofs: passes as traversals

What a pass makes of a value can be told without the pass (`Replaced`): everything stays as it is, but for the
string leaves. Two passes, of which the first one puts strings in the place of strings, are one pass
(`mapStrings_chained`), and a pass fails as a pass over the list of the leaves does (`agrees_mapStrings`). The
three laws together make a pass a traversal of the string leaves (`mapStrings_traverses`).
-/

namespace CachedWorkflow.Json

variable {ε : Type} {f g : Text → Except ε (Option Json)}

/-! ## What a pass makes of a value -/

/-- The values are the same except at the string leaves of the first one, each of which is related to what
stands in its place. What is put there has nothing to do with the rest of the value. -/
inductive Replaced (R : Text → Json → Prop) : Json → Json → Prop where
  | null : Replaced R .null .null
  | bool (value : Bool) : Replaced R (.bool value) (.bool value)
  | number (value : Number) : Replaced R (.number value) (.number value)
  | string {text : Text} {new : Json} (h : R text new) : Replaced R (.string text) new
  | array {items items' : List Json} (h : List.Forall₂ (Replaced R) items items') :
      Replaced R (.array items) (.array items')
  | object {fields fields' : Object} (hkeys : fields'.keys = fields.keys)
      (h : List.Forall₂ (Replaced R) (fields.map Prod.snd) (fields'.map Prod.snd)) :
      Replaced R (.object fields) (.object fields')

/-- What a replacer has for a leaf: a value, or the leaf itself if it declines. -/
def Gives (f : Text → Except ε (Option Json)) (text : Text) (new : Json) : Prop :=
  f text = .ok (some new) ∨ f text = .ok none ∧ new = .string text

theorem leafResult_eq_ok {text : Text} {new : Json} : leafResult f text = .ok new ↔ Gives f text new := by
  rw [leafResult, map_eq_ok, Gives]
  constructor
  · rintro ⟨new?, hf, rfl⟩
    cases new? with
    | none => exact .inr ⟨hf, rfl⟩
    | some new => exact .inl hf
  · rintro (hf | ⟨hf, rfl⟩)
    · exact ⟨some new, hf, rfl⟩
    · exact ⟨none, hf, rfl⟩

mutual

theorem replaced_of_mapStrings : ∀ {value value' : Json}, value.mapStrings f = .ok value' →
    Replaced (Gives f) value value'
  | .string _, _, h => .string (leafResult_eq_ok.mp h)
  | .array _, _, h => by
    obtain ⟨items', hitems, rfl⟩ := map_eq_ok.mp h
    exact .array (replaced_of_mapItems hitems)
  | .object _, _, h => by
    obtain ⟨fields', hfields, rfl⟩ := map_eq_ok.mp h
    obtain ⟨hkeys, hvalues⟩ := replaced_of_mapFields hfields
    exact .object hkeys hvalues
  | .null, _, h => by cases h; exact .null
  | .bool value, _, h => by cases h; exact .bool value
  | .number value, _, h => by cases h; exact .number value

theorem replaced_of_mapItems : ∀ {items items' : List Json}, mapItems f items = .ok items' →
    List.Forall₂ (Replaced (Gives f)) items items'
  | [], _, h => by cases h; exact .nil
  | item :: rest, _, h => by
    obtain ⟨item', hitem, h⟩ := bind_eq_ok.mp h
    obtain ⟨rest', hrest, h⟩ := bind_eq_ok.mp h
    cases h
    exact .cons (replaced_of_mapStrings hitem) (replaced_of_mapItems hrest)

theorem replaced_of_mapFields : ∀ {fields fields' : Object}, mapFields f fields = .ok fields' →
    fields'.keys = fields.keys ∧
      List.Forall₂ (Replaced (Gives f)) (fields.map Prod.snd) (fields'.map Prod.snd)
  | [], _, h => by cases h; exact ⟨rfl, .nil⟩
  | (key, value) :: rest, _, h => by
    obtain ⟨value', hvalue, h⟩ := bind_eq_ok.mp h
    obtain ⟨rest', hrest, h⟩ := bind_eq_ok.mp h
    cases h
    obtain ⟨hkeys, hvalues⟩ := replaced_of_mapFields hrest
    exact ⟨congrArg (key :: ·) hkeys, .cons (replaced_of_mapStrings hvalue) hvalues⟩

end

mutual

theorem mapStrings_of_replaced : ∀ {value value' : Json}, Replaced (Gives f) value value' →
    value.mapStrings f = .ok value'
  | .string _, _, .string h => leafResult_eq_ok.mpr h
  | .array _, .array items', .array h => map_eq_ok.mpr ⟨items', mapItems_of_replaced h, rfl⟩
  | .object _, .object fields', .object hkeys h =>
    map_eq_ok.mpr ⟨fields', mapFields_of_replaced hkeys h, rfl⟩
  | .null, _, .null => rfl
  | .bool _, _, .bool _ => rfl
  | .number _, _, .number _ => rfl

theorem mapItems_of_replaced : ∀ {items items' : List Json},
    List.Forall₂ (Replaced (Gives f)) items items' → mapItems f items = .ok items'
  | [], _, .nil => rfl
  | _ :: _, item' :: rest', .cons h hrest => bind_eq_ok.mpr ⟨item', mapStrings_of_replaced h,
      bind_eq_ok.mpr ⟨rest', mapItems_of_replaced hrest, rfl⟩⟩

theorem mapFields_of_replaced : ∀ {fields fields' : Object}, fields'.keys = fields.keys →
    List.Forall₂ (Replaced (Gives f)) (fields.map Prod.snd) (fields'.map Prod.snd) →
    mapFields f fields = .ok fields'
  | [], [], _, _ => rfl
  | (key, value) :: rest, (key', value') :: rest', hkeys, h => by
    obtain ⟨hkey, hothers⟩ := List.cons.inj hkeys
    obtain rfl : key' = key := hkey
    obtain ⟨hvalue, hrest⟩ := List.forall₂_cons.mp h
    exact bind_eq_ok.mpr ⟨value', mapStrings_of_replaced hvalue,
      bind_eq_ok.mpr ⟨rest', mapFields_of_replaced hothers hrest, rfl⟩⟩

end

/-- A pass has exactly the result in which every string leaf is what the replacer has for it. -/
theorem mapStrings_eq_ok_iff {value value' : Json} :
    value.mapStrings f = .ok value' ↔ Replaced (Gives f) value value' :=
  ⟨replaced_of_mapStrings, mapStrings_of_replaced⟩

/-! ## Two passes -/

/-- One replacer after the other: the second one is given what the first one has for a leaf. It is not given
what is no string. -/
def chained (f g : Text → Except ε (Option Json)) (text : Text) : Except ε (Option Json) := do
  match ← leafResult f text with
  | .string text' => (leafResult g text').map some
  | new => .ok (some new)

/-- The replacer only puts strings in the place of strings. -/
def YieldsStrings (f : Text → Except ε (Option Json)) : Prop :=
  ∀ text new, f text = .ok (some new) → ∃ text', new = .string text'

theorem YieldsStrings.exists_text (hf : YieldsStrings f) {text : Text} {new : Json}
    (h : leafResult f text = .ok new) : ∃ text', new = .string text' := by
  rcases leafResult_eq_ok.mp h with h | ⟨-, rfl⟩
  · exact hf text new h
  · exact ⟨text, rfl⟩

theorem leafResult_chained (hf : YieldsStrings f) {text : Text} {new : Json} :
    leafResult (chained f g) text = .ok new ↔
      ∃ text', leafResult f text = .ok (.string text') ∧ leafResult g text' = .ok new := by
  rw [leafResult, map_eq_ok, chained]
  constructor
  · rintro ⟨new?, hchained, rfl⟩
    obtain ⟨first, hfirst, hrest⟩ := bind_eq_ok.mp hchained
    obtain ⟨text', rfl⟩ := hf.exists_text hfirst
    obtain ⟨second, hsecond, rfl⟩ := map_eq_ok.mp hrest
    exact ⟨text', hfirst, hsecond⟩
  · rintro ⟨text', hfirst, hsecond⟩
    exact ⟨some new, bind_eq_ok.mpr ⟨_, hfirst, map_eq_ok.mpr ⟨new, hsecond, rfl⟩⟩, rfl⟩

mutual

/-- Two passes are one if the first one puts strings in the place of strings. -/
theorem mapStrings_chained (hf : YieldsStrings f) : ∀ {value value'' : Json},
    value.mapStrings (chained f g) = .ok value'' ↔
      ∃ value', value.mapStrings f = .ok value' ∧ value'.mapStrings g = .ok value''
  | .string text, value'' => by
    rw [mapStrings_string, leafResult_chained hf]
    constructor
    · rintro ⟨text', hfirst, hsecond⟩
      exact ⟨.string text', hfirst, hsecond⟩
    · rintro ⟨new, hfirst, hsecond⟩
      obtain ⟨text', rfl⟩ := hf.exists_text hfirst
      exact ⟨text', hfirst, hsecond⟩
  | .array items, value'' => by
    simp only [mapStrings, map_eq_ok, mapItems_chained hf]
    constructor
    · rintro ⟨items'', ⟨items', hfirst, hsecond⟩, rfl⟩
      exact ⟨.array items', ⟨items', hfirst, rfl⟩, map_eq_ok.mpr ⟨items'', hsecond, rfl⟩⟩
    · rintro ⟨_, ⟨items', hfirst, rfl⟩, h⟩
      obtain ⟨items'', hsecond, rfl⟩ := map_eq_ok.mp h
      exact ⟨items'', ⟨items', hfirst, hsecond⟩, rfl⟩
  | .object fields, value'' => by
    simp only [mapStrings, map_eq_ok, mapFields_chained hf]
    constructor
    · rintro ⟨fields'', ⟨fields', hfirst, hsecond⟩, rfl⟩
      exact ⟨.object fields', ⟨fields', hfirst, rfl⟩, map_eq_ok.mpr ⟨fields'', hsecond, rfl⟩⟩
    · rintro ⟨_, ⟨fields', hfirst, rfl⟩, h⟩
      obtain ⟨fields'', hsecond, rfl⟩ := map_eq_ok.mp h
      exact ⟨fields'', ⟨fields', hfirst, hsecond⟩, rfl⟩
  | .null, _ => by simp [mapStrings]
  | .bool _, _ => by simp [mapStrings]
  | .number _, _ => by simp [mapStrings]

theorem mapItems_chained (hf : YieldsStrings f) : ∀ {items items'' : List Json},
    mapItems (chained f g) items = .ok items'' ↔
      ∃ items', mapItems f items = .ok items' ∧ mapItems g items' = .ok items''
  | [], _ => by simp [mapItems]
  | item :: rest, items'' => by
    simp only [mapItems, bind_eq_ok, mapStrings_chained hf, mapItems_chained hf]
    constructor
    · rintro ⟨item'', ⟨item', hitem, hitem'⟩, rest'', ⟨rest', hrest, hrest'⟩, h⟩
      exact ⟨item' :: rest', ⟨item', hitem, rest', hrest, rfl⟩,
        bind_eq_ok.mpr ⟨item'', hitem', bind_eq_ok.mpr ⟨rest'', hrest', h⟩⟩⟩
    · rintro ⟨_, ⟨item', hitem, rest', hrest, ⟨⟩⟩, h⟩
      obtain ⟨item'', hitem', h⟩ := bind_eq_ok.mp h
      obtain ⟨rest'', hrest', h⟩ := bind_eq_ok.mp h
      exact ⟨item'', ⟨item', hitem, hitem'⟩, rest'', ⟨rest', hrest, hrest'⟩, h⟩

theorem mapFields_chained (hf : YieldsStrings f) : ∀ {fields fields'' : Object},
    mapFields (chained f g) fields = .ok fields'' ↔
      ∃ fields', mapFields f fields = .ok fields' ∧ mapFields g fields' = .ok fields''
  | [], _ => by simp [mapFields]
  | (key, value) :: rest, fields'' => by
    simp only [mapFields, bind_eq_ok, mapStrings_chained hf, mapFields_chained hf]
    constructor
    · rintro ⟨value'', ⟨value', hvalue, hvalue'⟩, rest'', ⟨rest', hrest, hrest'⟩, h⟩
      exact ⟨(key, value') :: rest', ⟨value', hvalue, rest', hrest, rfl⟩,
        bind_eq_ok.mpr ⟨value'', hvalue', bind_eq_ok.mpr ⟨rest'', hrest', h⟩⟩⟩
    · rintro ⟨_, ⟨value', hvalue, rest', hrest, ⟨⟩⟩, h⟩
      obtain ⟨value'', hvalue', h⟩ := bind_eq_ok.mp h
      obtain ⟨rest'', hrest', h⟩ := bind_eq_ok.mp h
      exact ⟨value'', ⟨value', hvalue, hvalue'⟩, rest'', ⟨rest', hrest, hrest'⟩, h⟩

end

/-! ## Failures -/

mutual

/-- A pass fails as the pass over the list of the leaves does. -/
theorem agrees_mapStrings (f : Text → Except ε (Option Json)) : ∀ value : Json,
    Agrees (fun _ _ => True) (value.mapStrings f) (value.leaves.mapM f)
  | .string text => by
    cases h : f text with
    | error e => simpa [mapStrings, leaves, h, Except.map] using Agrees.error e
    | ok new => simpa [mapStrings, leaves, h, Except.map] using Agrees.ok trivial
  | .array items => (agrees_mapItems f items).map_left
  | .object fields => (agrees_mapFields f fields).map_left
  | .null => .ok trivial
  | .bool _ => .ok trivial
  | .number _ => .ok trivial

theorem agrees_mapItems (f : Text → Except ε (Option Json)) : ∀ items : List Json,
    Agrees (fun _ _ => True) (mapItems f items) ((leavesOfItems items).mapM f)
  | [] => .ok trivial
  | item :: rest => by
    rw [mapItems, leavesOfItems, List.mapM_append]
    exact (agrees_mapStrings f item).bind fun _ _ _ _ =>
      (agrees_mapItems f rest).bind fun _ _ _ _ => .ok trivial

theorem agrees_mapFields (f : Text → Except ε (Option Json)) : ∀ fields : Object,
    Agrees (fun _ _ => True) (mapFields f fields) ((leavesOfFields fields).mapM f)
  | [] => .ok trivial
  | (_, value) :: rest => by
    rw [mapFields, leavesOfFields, List.mapM_append]
    exact (agrees_mapStrings f value).bind fun _ _ _ _ =>
      (agrees_mapFields f rest).bind fun _ _ _ _ => .ok trivial

end

/-! ## The laws -/

/-- A pass is a traversal of the string leaves. Its result is the value in which each of them is what the
replacer has for it, and nothing else is different; a pass after one that puts strings in the place of strings
is one pass with both replacers; and a pass fails exactly if the replacer fails on a leaf, as it does on the
first one. -/
theorem mapStrings_traverses (f g : Text → Except ε (Option Json)) (value : Json) :
    (∀ value', value.mapStrings f = .ok value' ↔ Replaced (Gives f) value value') ∧
      (YieldsStrings f → ∀ value'', value.mapStrings (chained f g) = .ok value'' ↔
        ∃ value', value.mapStrings f = .ok value' ∧ value'.mapStrings g = .ok value'') ∧
      ∀ e, value.mapStrings f = .error e ↔ ∃ before leaf after, value.leaves = before ++ leaf :: after ∧
        f leaf = .error e ∧ ∀ earlier ∈ before, ∃ new, f earlier = .ok new := by
  refine ⟨fun value' => mapStrings_eq_ok_iff, fun hf value'' => mapStrings_chained hf, fun e => ?_⟩
  rw [(agrees_mapStrings f value).eq_error_iff, mapM_eq_error]

/-- Puts the name of a runner in the place of a placeholder. -/
def named (text : Text) : Except Error (Option Json) :=
  .ok (if text = "$\x7b\x7b inputs.os \x7d\x7d" then some (.string "linux") else none)

/-- Puts a description of a runner in the place of its name. -/
def described (text : Text) : Except Error (Option Json) :=
  .ok (if text = "linux" then some (.object [("group", .string "linux")]) else none)

theorem yieldsStrings_named : YieldsStrings named := by
  intro text new h
  rw [named] at h
  split at h
  · cases h
    exact ⟨_, rfl⟩
  · cases h

/-- What the second pass puts in is not looked at again, and no key is looked at. -/
theorem mapStrings_traverses_runner : YieldsStrings named ∧
    (Json.object [("runs-on", .string "$\x7b\x7b inputs.os \x7d\x7d"),
        ("linux", .array [.bool true, .string "make"])]).mapStrings (chained named described)
      = .ok (.object [("runs-on", .object [("group", .string "linux")]),
        ("linux", .array [.bool true, .string "make"])]) := by
  obtain ⟨-, hchained, -⟩ := mapStrings_traverses named described
    (.object [("runs-on", .string "$\x7b\x7b inputs.os \x7d\x7d"),
      ("linux", .array [.bool true, .string "make"])])
  exact ⟨yieldsStrings_named, (hchained yieldsStrings_named _).mpr
    ⟨.object [("runs-on", .string "linux"), ("linux", .array [.bool true, .string "make"])], rfl, rfl⟩⟩

end CachedWorkflow.Json
