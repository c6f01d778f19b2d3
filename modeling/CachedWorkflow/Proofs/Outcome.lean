import CachedWorkflow.Error
import Mathlib.Data.List.Perm.Basic

/-!
# Proofs: steps that may fail

A rule of this library that may fail is a chain of smaller ones. The lemmas take a chain apart that
did not fail: a bind into its two steps, a pass over a list into one step per element. Two chains that
differ in what they are given are compared step by step (`Agrees.bind`).
-/

namespace CachedWorkflow

variable {ε α β : Type}

theorem exists_of_mem_left {R : α → β → Prop} {l : List α} {r : List β} (h : List.Forall₂ R l r)
    {a : α} (ha : a ∈ l) : ∃ b ∈ r, R a b := by
  induction h with
  | nil => cases ha
  | cons hab _ ih =>
    rcases List.mem_cons.mp ha with rfl | ha
    · exact ⟨_, List.mem_cons_self, hab⟩
    · obtain ⟨b, hb, hab⟩ := ih ha
      exact ⟨b, List.mem_cons_of_mem _ hb, hab⟩

theorem exists_of_mem_right {R : α → β → Prop} {l : List α} {r : List β} (h : List.Forall₂ R l r)
    {b : β} (hb : b ∈ r) : ∃ a ∈ l, R a b := exists_of_mem_left h.flip hb

/-- Elements that are related to something each are so one by one. -/
theorem exists_forall₂ {R : α → β → Prop} {l : List α} (h : ∀ a ∈ l, ∃ b, R a b) :
    ∃ r, List.Forall₂ R l r := by
  induction l with
  | nil => exact ⟨[], .nil⟩
  | cons a l ih =>
    obtain ⟨hfirst, hothers⟩ := List.forall_mem_cons.mp h
    obtain ⟨b, hb⟩ := hfirst
    obtain ⟨r, hr⟩ := ih hothers
    exact ⟨b :: r, .cons hb hr⟩

/-- Two relations between lists one after the other. -/
theorem forall₂_comp {γ : Type} {R : α → β → Prop} {S : β → γ → Prop} {l : List α} {m : List β} {r : List γ}
    (h : List.Forall₂ R l m) (h' : List.Forall₂ S m r) : List.Forall₂ (fun a c => ∃ b, R a b ∧ S b c) l r := by
  induction h generalizing r with
  | nil =>
    cases h'
    exact .nil
  | cons hab _ ih =>
    cases h' with
    | cons hbc hrest => exact .cons ⟨_, hab, hbc⟩ (ih hrest)

theorem bind_eq_ok {x : Except ε α} {f : α → Except ε β} {b : β} :
    x >>= f = .ok b ↔ ∃ a, x = .ok a ∧ f a = .ok b := by
  cases x with
  | error e => exact ⟨fun h => (nomatch h), fun ⟨_, h, _⟩ => (nomatch h)⟩
  | ok a => exact ⟨fun h => ⟨a, rfl, h⟩, fun ⟨_, ha, h⟩ => by cases ha; exact h⟩

theorem bind_eq_error {x : Except ε α} {f : α → Except ε β} {e : ε} :
    x >>= f = .error e ↔ x = .error e ∨ ∃ a, x = .ok a ∧ f a = .error e := by
  cases x with
  | error e' =>
    constructor
    · exact fun h => .inl (by cases h; rfl)
    · rintro (h | ⟨_, h, _⟩)
      · cases h; rfl
      · cases h
  | ok a =>
    constructor
    · exact fun h => .inr ⟨a, rfl, h⟩
    · rintro (h | ⟨_, ha, h⟩)
      · cases h
      · cases ha; exact h

theorem exists_bind_eq_ok_iff {x : Except ε α} {f : α → Except ε β} :
    (∃ b, x >>= f = .ok b) ↔ ∃ a, x = .ok a ∧ ∃ b, f a = .ok b := by
  simp only [bind_eq_ok]
  exact ⟨fun ⟨b, a, ha, hb⟩ => ⟨a, ha, b, hb⟩, fun ⟨a, ha, b, hb⟩ => ⟨b, a, ha, hb⟩⟩

/-- A computation goes on with the result of its first step. -/
theorem eq_ok_of_bind {x : Except ε α} {f : α → Except ε β} {a : α} {b : β} (hx : x = .ok a)
    (h : x >>= f = .ok b) : f a = .ok b := by
  rw [hx] at h
  exact h

theorem map_eq_ok {x : Except ε α} {f : α → β} {b : β} :
    x.map f = .ok b ↔ ∃ a, x = .ok a ∧ f a = b := by
  cases x <;> simp [Except.map]

theorem toOption_eq_some {x : Except ε α} {a : α} : x.toOption = some a ↔ x = .ok a := by
  cases x <;> simp [Except.toOption]

theorem toBool_eq_true {x : Except ε α} : x.toBool = true ↔ ∃ a, x = .ok a := by
  cases x <;> simp [Except.toBool]

/-- A pass over a list that does not fail has one result per element, in order. -/
theorem mapM_eq_ok {f : α → Except ε β} {l : List α} {r : List β} :
    l.mapM f = .ok r ↔ List.Forall₂ (fun a b => f a = .ok b) l r := by
  induction l generalizing r with
  | nil =>
    rw [List.forall₂_nil_left_iff]
    exact ⟨fun h => by cases h; rfl, fun h => by rw [h]; rfl⟩
  | cons a l ih =>
    rw [List.mapM_cons, bind_eq_ok, List.forall₂_cons_left_iff]
    constructor
    · rintro ⟨b, hb, h⟩
      rw [bind_eq_ok] at h
      obtain ⟨bs, hbs, h⟩ := h
      cases h
      exact ⟨b, bs, hb, ih.mp hbs, rfl⟩
    · rintro ⟨b, bs, hb, hbs, rfl⟩
      refine ⟨b, hb, ?_⟩
      rw [bind_eq_ok]
      exact ⟨bs, ih.mpr hbs, rfl⟩

/-- A pass over a list that fails does so at the first element that fails. -/
theorem mapM_eq_error {f : α → Except ε β} {l : List α} {e : ε} :
    l.mapM f = .error e ↔ ∃ before a after, l = before ++ a :: after ∧ f a = .error e ∧
      ∀ b ∈ before, ∃ c, f b = .ok c := by
  induction l with
  | nil =>
    constructor
    · intro h
      cases h
    · rintro ⟨before, a, after, hsplit, -⟩
      simp at hsplit
  | cons head l ih =>
    rw [List.mapM_cons, bind_eq_error]
    simp only [bind_eq_error, ih]
    constructor
    · rintro (hhead | ⟨b, hb, ⟨before, a, after, rfl, ha, hbefore⟩ | ⟨_, -, h⟩⟩)
      · exact ⟨[], head, l, rfl, hhead, by simp⟩
      · exact ⟨head :: before, a, after, rfl, ha, List.forall_mem_cons.mpr ⟨⟨b, hb⟩, hbefore⟩⟩
      · cases h
    · rintro ⟨before, a, after, hsplit, ha, hbefore⟩
      cases before with
      | nil =>
        cases hsplit
        exact .inl ha
      | cons first before =>
        cases hsplit
        obtain ⟨⟨b, hb⟩, hbefore⟩ := List.forall_mem_cons.mp hbefore
        exact .inr ⟨b, hb, .inl ⟨before, a, after, rfl, ha, hbefore⟩⟩

/-- A pass over a list does not fail if none of its steps does. -/
theorem exists_mapM_eq_ok_iff {f : α → Except ε β} {l : List α} :
    (∃ r, l.mapM f = .ok r) ↔ ∀ a ∈ l, ∃ b, f a = .ok b := by
  simp only [mapM_eq_ok]
  constructor
  · rintro ⟨r, h⟩ a ha
    obtain ⟨b, -, hb⟩ := exists_of_mem_left h ha
    exact ⟨b, hb⟩
  · intro h
    exact exists_forall₂ h

/-- A pass over a list in another order has the same results in another order. -/
theorem perm_of_mapM {f : α → Except ε β} {l l' : List α} (hperm : l.Perm l') {r r' : List β}
    (h : l.mapM f = .ok r) (h' : l'.mapM f = .ok r') : r.Perm r' := by
  obtain ⟨s, hs, hsr⟩ := List.perm_comp_forall₂ hperm (mapM_eq_ok.mp h')
  have heq := (mapM_eq_ok.mpr hs).symm.trans h
  exact Except.ok.inj heq ▸ hsr

/-- A run over a list does not fail if no element makes a step fail, whatever the state. -/
theorem exists_foldlM_eq_ok_iff {f : β → α → Except ε β} {p : α → Prop}
    (hstep : ∀ b a, (∃ b', f b a = .ok b') ↔ p a) {l : List α} {init : β} :
    (∃ r, l.foldlM f init = .ok r) ↔ ∀ a ∈ l, p a := by
  induction l generalizing init with
  | nil => simp [pure, Except.pure]
  | cons a rest ih =>
    rw [List.forall_mem_cons, ← hstep init a, List.foldlM_cons]
    constructor
    · rintro ⟨r, h⟩
      obtain ⟨b, hb, hrest⟩ := bind_eq_ok.mp h
      exact ⟨⟨b, hb⟩, ih.mp ⟨r, hrest⟩⟩
    · rintro ⟨⟨b, hb⟩, hrest⟩
      obtain ⟨r, hr⟩ : ∃ r, rest.foldlM f b = .ok r := ih.mpr hrest
      exact ⟨r, bind_eq_ok.mpr ⟨b, hb, hr⟩⟩

/-- A run over a list that fails does so in one of its steps. -/
theorem exists_of_foldlM_eq_error {f : β → α → Except ε β} {l : List α} {init : β} {e : ε}
    (h : l.foldlM f init = .error e) : ∃ a ∈ l, ∃ b, f b a = .error e := by
  induction l generalizing init with
  | nil => cases h
  | cons a rest ih =>
    rw [List.foldlM_cons, bind_eq_error] at h
    rcases h with h | ⟨b, -, h⟩
    · exact ⟨a, List.mem_cons_self, init, h⟩
    · obtain ⟨a', ha', b', h⟩ := ih h
      exact ⟨a', List.mem_cons_of_mem _ ha', b', h⟩

/-- What holds before a run over a list and is kept by every step of it holds after the run. The
motive may speak of the elements that have been seen. -/
theorem foldlM_induction {f : β → α → Except ε β} {motive : List α → β → Prop} {l : List α}
    {init r : β} (h : l.foldlM f init = .ok r) (start : motive [] init)
    (step : ∀ seen a rest b b', l = seen ++ a :: rest → motive seen b → f b a = .ok b' →
      motive (seen ++ [a]) b') : motive l r := by
  suffices ∀ rest seen b, l = seen ++ rest → motive seen b → rest.foldlM f b = .ok r →
      motive l r from this l [] init rfl start h
  intro rest
  induction rest with
  | nil =>
    intro seen b hl hb hr
    rw [List.append_nil] at hl
    cases hr
    exact hl ▸ hb
  | cons a rest ih =>
    intro seen b hl hb hr
    rw [List.foldlM_cons, bind_eq_ok] at hr
    obtain ⟨b', hb', hr⟩ := hr
    exact ih (seen ++ [a]) b' (by simpa using hl) (step seen a rest b b' hl hb hb') hr

/-- A run that does not fail is also one of a step that fails less often. -/
theorem foldlM_mono {f g : β → α → Except ε β} (hstep : ∀ b a b', f b a = .ok b' → g b a = .ok b')
    {l : List α} {init r : β} (h : l.foldlM f init = .ok r) : l.foldlM g init = .ok r := by
  induction l generalizing init with
  | nil => exact h
  | cons a rest ih =>
    rw [List.foldlM_cons, bind_eq_ok] at h ⊢
    obtain ⟨b, hb, hr⟩ := h
    exact ⟨b, hstep init a b hb, ih hr⟩

/-! ## Failures -/

/-- If the computation fails, it does so with a failure of this kind. -/
def FailsWith (p : ε → Prop) (x : Except ε α) : Prop := ∀ e, x = .error e → p e

section

variable {p : ε → Prop}

@[simp] theorem failsWith_ok {a : α} : FailsWith p (.ok a : Except ε α) := fun _ h => nomatch h

@[simp] theorem failsWith_error {e : ε} : FailsWith p (.error e : Except ε α) ↔ p e :=
  ⟨fun h => h e rfl, fun h _ he => Except.error.inj he ▸ h⟩

/-- What comes second only counts for the result of what comes first. -/
theorem FailsWith.bind_of_eq_ok {x : Except ε α} {f : α → Except ε β} (hx : FailsWith p x)
    (hf : ∀ a, x = .ok a → FailsWith p (f a)) : FailsWith p (x >>= f) := by
  intro e h
  rcases bind_eq_error.mp h with h | ⟨a, ha, h⟩
  · exact hx e h
  · exact hf a ha e h

theorem FailsWith.bind {x : Except ε α} {f : α → Except ε β} (hx : FailsWith p x)
    (hf : ∀ a, FailsWith p (f a)) : FailsWith p (x >>= f) := hx.bind_of_eq_ok fun a _ => hf a

theorem FailsWith.mono {q : ε → Prop} {x : Except ε α} (hx : FailsWith p x) (hpq : ∀ e, p e → q e) :
    FailsWith q x := fun e h => hpq e (hx e h)

/-- What does not fail fails in no way at all. -/
theorem failsWith_of_exists {x : Except ε α} (h : ∃ a, x = .ok a) : FailsWith p x := by
  obtain ⟨a, rfl⟩ := h
  exact failsWith_ok

theorem FailsWith.map {x : Except ε α} {f : α → β} (hx : FailsWith p x) : FailsWith p (x.map f) := by
  cases x with
  | ok a => exact failsWith_ok
  | error e => exact failsWith_error.mpr (hx e rfl)

theorem FailsWith.mapM_of_mem {f : α → Except ε β} {l : List α} (hf : ∀ a ∈ l, FailsWith p (f a)) :
    FailsWith p (l.mapM f) := by
  intro e h
  obtain ⟨before, a, after, hsplit, ha, -⟩ := mapM_eq_error.mp h
  have hmem : a ∈ l := hsplit ▸ List.mem_append_right before List.mem_cons_self
  exact hf a hmem e ha

theorem FailsWith.mapM {f : α → Except ε β} {l : List α} (hf : ∀ a, FailsWith p (f a)) :
    FailsWith p (l.mapM f) := .mapM_of_mem fun a _ => hf a

theorem FailsWith.foldlM {f : β → α → Except ε β} {l : List α} {init : β}
    (hf : ∀ b a, FailsWith p (f b a)) : FailsWith p (l.foldlM f init) := by
  intro e h
  obtain ⟨a, -, b, h⟩ := exists_of_foldlM_eq_error h
  exact hf b a e h

theorem FailsWith.anyM {f : α → Except ε Bool} {l : List α} (hf : ∀ a, FailsWith p (f a)) :
    FailsWith p (l.anyM f) := by
  induction l with
  | nil => exact failsWith_ok
  | cons a rest ih =>
    rw [List.anyM]
    exact (hf a).bind fun found => by cases found <;> [exact ih; exact failsWith_ok]

end

/-! ## Two runs -/

/-- Two computations fail for the same reason, or both have a result and the results are related. -/
inductive Agrees {β : Type} (R : α → β → Prop) : Except ε α → Except ε β → Prop where
  | error (e : ε) : Agrees R (.error e) (.error e)
  | ok {a : α} {b : β} : R a b → Agrees R (.ok a) (.ok b)

section

variable {γ δ : Type} {R : α → β → Prop} {S : γ → δ → Prop}

theorem agrees_self (x : Except ε α) : Agrees (fun a b => a = b) x x := by
  cases x with
  | error e => exact .error e
  | ok a => exact .ok rfl

theorem agrees_map (x : Except ε α) (f : α → β) : Agrees (fun a b => b = f a) x (x.map f) := by
  cases x with
  | error e => exact .error e
  | ok a => exact .ok rfl

theorem Agrees.mono {T : α → β → Prop} {x : Except ε α} {y : Except ε β} (h : Agrees R x y)
    (hRT : ∀ a b, R a b → T a b) : Agrees T x y := by
  cases h with
  | error e => exact .error e
  | ok hab => exact .ok (hRT _ _ hab)

theorem Agrees.exists_of_ok {a : α} {y : Except ε β} (h : Agrees R (.ok a) y) : ∃ b, y = .ok b ∧ R a b := by
  cases h with
  | ok hab => exact ⟨_, rfl, hab⟩

/-- What is made of a result does not matter where only failures are compared. -/
theorem Agrees.map_left {x : Except ε α} {y : Except ε β} (h : Agrees (fun _ _ => True) x y) {f : α → γ} :
    Agrees (fun _ _ => True) (x.map f) y := by
  cases h with
  | error e => exact .error e
  | ok _ => exact .ok trivial

theorem Agrees.eq_error_iff {x : Except ε α} {y : Except ε β} (h : Agrees R x y) {e : ε} :
    x = .error e ↔ y = .error e := by
  cases h <;> simp

/-- Computations that agree still do so after steps that agree on related results. -/
theorem Agrees.bind {x : Except ε α} {y : Except ε β} {f : α → Except ε γ} {g : β → Except ε δ}
    (h : Agrees R x y) (hnext : ∀ a b, x = .ok a → R a b → Agrees S (f a) (g b)) :
    Agrees S (x >>= f) (y >>= g) := by
  cases h with
  | error e => exact .error e
  | ok hab => exact hnext _ _ rfl hab

/-- Two passes over lists that differ in one element agree if the steps at this element do. -/
theorem Agrees.mapM_split {f g : α → Except ε β} {before after : List α} {a a' : α} {T : β → β → Prop}
    (hbefore : ∀ b ∈ before, g b = f b) (hafter : ∀ b ∈ after, g b = f b) (h : Agrees T (f a) (g a')) :
    Agrees (fun r r' => ∃ front back b b', T b b' ∧ r = front ++ b :: back ∧ r' = front ++ b' :: back)
      ((before ++ a :: after).mapM f) ((before ++ a' :: after).mapM g) := by
  have hmapM : ∀ l : List α, (∀ b ∈ l, g b = f b) → l.mapM g = l.mapM f := by
    intro l hl
    induction l with
    | nil => rfl
    | cons b rest ih =>
      rw [List.forall_mem_cons] at hl
      rw [List.mapM_cons, List.mapM_cons, hl.1, ih hl.2]
  rw [List.mapM_append, List.mapM_append, List.mapM_cons, List.mapM_cons, hmapM before hbefore,
    hmapM after hafter]
  refine (agrees_self (before.mapM f)).bind fun front _ _ hfront => ?_
  cases hfront
  have hrest : Agrees (fun r r' => ∃ back b b', T b b' ∧ r = b :: back ∧ r' = b' :: back)
      (f a >>= fun b => after.mapM f >>= fun back => pure (b :: back))
      (g a' >>= fun b => after.mapM f >>= fun back => pure (b :: back)) := by
    refine h.bind fun b b' _ hb => ?_
    refine (agrees_self (after.mapM f)).bind fun back _ _ hback => ?_
    cases hback
    exact .ok ⟨back, b, b', hb, rfl, rfl⟩
  refine hrest.bind fun r r' _ hr => ?_
  obtain ⟨back, b, b', hb, rfl, rfl⟩ := hr
  exact .ok ⟨front, back, b, b', hb, rfl, rfl⟩

end

end CachedWorkflow
