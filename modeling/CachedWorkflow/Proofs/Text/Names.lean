import CachedWorkflow.Template.Renaming
import CachedWorkflow.Workflow.Compile
import Mathlib.Data.List.TakeWhile

/-!
# Proofs: names

A name is a text of letters and digits of ASCII, underscores and dashes. All of its characters
continue an identifier, so an identifier that is read as far as possible ends where the name ends
(`run_append_inj`).
-/

namespace CachedWorkflow

/-- What holds of all characters of a text is decided along the text, not over all characters. -/
instance decidableForallText (p : Char → Prop) [DecidablePred p] (text : Text) :
    Decidable (∀ c ∈ text, p c) :=
  List.decidableBAll p text

instance decidableForallHead (p : Char → Prop) [DecidablePred p] (c? : Option Char) :
    Decidable (∀ c ∈ c?, p c) :=
  Option.decidableForallMem c?

/-- A non-empty text over letters, digits, underscores and dashes. -/
structure IsName (text : Text) : Prop where
  ne_nil : text ≠ []
  chars : ∀ c ∈ text, isJobIdChar c = true

instance (text : Text) : Decidable (IsName text) :=
  decidable_of_iff (text ≠ [] ∧ ∀ c ∈ text, isJobIdChar c = true)
    ⟨fun h => ⟨h.1, h.2⟩, fun h => ⟨h.ne_nil, h.chars⟩⟩

/-! ## Characters -/

theorem toNat_lt_of_isAlphanum {c : Char} (h : c.isAlphanum = true) : c.toNat < 128 := by
  rcases Bool.or_eq_true_iff.mp h with h | h
  · rcases Bool.or_eq_true_iff.mp h with h | h
    · have hle : c.val ≤ 'Z'.val := (of_decide_eq_true h).2
      exact lt_of_le_of_lt (UInt32.le_iff_toNat_le.mp hle) (by decide)
    · have hle : c.val ≤ 'z'.val := of_decide_eq_true (Bool.and_eq_true_iff.mp h).2
      exact lt_of_le_of_lt (UInt32.le_iff_toNat_le.mp hle) (by decide)
  · have hle : c.val ≤ '9'.val := of_decide_eq_true (Bool.and_eq_true_iff.mp h).2
    exact lt_of_le_of_lt (UInt32.le_iff_toNat_le.mp hle) (by decide)

theorem isIdentifierChar_of_isJobIdChar {c : Char} (h : isJobIdChar c = true) :
    isIdentifierChar c = true := by
  simp only [isJobIdChar, isIdentifierChar, Bool.or_eq_true] at h ⊢
  rcases h with (h | h) | h
  · exact .inl (.inl (isAlphanumeric_of_ascii (toNat_lt_of_isAlphanum h) ▸ h))
  · exact .inl (.inr h)
  · exact .inr h

theorem isJobIdChar_eq_false {c : Char} (h : isIdentifierChar c = false) : isJobIdChar c = false := by
  rw [Bool.eq_false_iff]
  intro hc
  rw [isIdentifierChar_of_isJobIdChar hc] at h
  cases h

/-- The code points of white space. -/
def whiteSpacePoints : List Nat :=
  [9, 10, 11, 12, 13, 0x20, 0x85, 0xA0, 0x1680, 0x2000, 0x2001, 0x2002, 0x2003, 0x2004, 0x2005,
    0x2006, 0x2007, 0x2008, 0x2009, 0x200A, 0x2028, 0x2029, 0x202F, 0x205F, 0x3000]

theorem toNat_mem_whiteSpacePoints {c : Char} (h : isWhiteSpace c = true) :
    c.toNat ∈ whiteSpacePoints := by
  simp only [isWhiteSpace, Bool.or_eq_true, Bool.and_eq_true, decide_eq_true_eq, beq_iff_eq] at h
  simp only [whiteSpacePoints, List.mem_cons, List.not_mem_nil, or_false]
  omega

/-- No white space is in the table of alphanumeric characters. -/
theorem whiteSpacePoints_not_alphanumeric : ∀ n ∈ whiteSpacePoints,
    alphanumericRanges.toList.any (fun range => range.1 ≤ n && n ≤ range.2) = false := by
  decide +kernel

/-- A blank never continues an identifier. -/
theorem isIdentifierChar_of_isWhiteSpace {c : Char} (h : isWhiteSpace c = true) :
    isIdentifierChar c = false := by
  have hn := toNat_mem_whiteSpacePoints h
  have htable := whiteSpacePoints_not_alphanumeric _ hn
  have hascii : c.toNat < 128 → c.isAlphanum = false ∧ c ≠ '_' ∧ c ≠ '-' := by
    intro hlt
    simp only [whiteSpacePoints, List.mem_cons, List.not_mem_nil, or_false] at hn
    rw [← Char.ofNat_toNat c]
    have hcases : c.toNat = 9 ∨ c.toNat = 10 ∨ c.toNat = 11 ∨ c.toNat = 12 ∨ c.toNat = 13 ∨
        c.toNat = 0x20 := by omega
    rcases hcases with h | h | h | h | h | h <;> rw [h] <;> decide
  have hother : ¬ c.toNat < 128 → c ≠ '_' ∧ c ≠ '-' := by
    intro hle
    constructor <;> (rintro rfl; exact hle (by decide))
  rw [isIdentifierChar, isAlphanumeric, ← Array.any_toList, htable]
  by_cases hlt : c.toNat < 128
  · obtain ⟨h1, h2, h3⟩ := hascii hlt
    rw [if_pos hlt, h1]
    simp [h2, h3]
  · obtain ⟨h2, h3⟩ := hother hlt
    rw [if_neg hlt]
    simp [h2, h3]

/-! ## Reading a name -/

/-- Characters of one class are read up to the first one that is not of the class. -/
theorem takeWhile_run {p : Char → Bool} {run rest : Text} (hrun : ∀ c ∈ run, p c = true)
    (hrest : ∀ c ∈ rest.head?, p c = false) : (run ++ rest).takeWhile p = run := by
  rw [List.takeWhile_append_of_pos hrun]
  cases rest with
  | nil => rw [List.takeWhile_nil, List.append_nil]
  | cons c rest => rw [List.takeWhile_cons_of_neg (by simp [hrest c rfl]), List.append_nil]

/-- What begins with such a run and then something else is so in one way only. -/
theorem run_append_inj {p : Char → Bool} {a b r s : Text} (ha : ∀ c ∈ a, p c = true)
    (hb : ∀ c ∈ b, p c = true) (hr : ∀ c ∈ r.head?, p c = false) (hs : ∀ c ∈ s.head?, p c = false)
    (h : a ++ r = b ++ s) : a = b ∧ r = s := by
  have hab : a = b := by rw [← takeWhile_run ha hr, h, takeWhile_run hb hs]
  subst hab
  exact ⟨rfl, List.append_cancel_left h⟩

/-- A name with more characters of names before it is a name. -/
theorem isName_append {lead name : Text} (hlead : ∀ c ∈ lead, isJobIdChar c = true) (hname : IsName name) :
    IsName (lead ++ name) :=
  ⟨fun h => hname.ne_nil (List.append_eq_nil_iff.mp h).2, List.forall_mem_append.mpr ⟨hlead, hname.chars⟩⟩

theorem IsName.not_mem {name : Text} (h : IsName name) {c : Char} (hc : isJobIdChar c = false) :
    c ∉ name := by
  intro hmem
  rw [h.chars c hmem] at hc
  cases hc

/-- A name neither begins a string literal nor ends a placeholder. -/
theorem IsName.plain {name : Text} (h : IsName name) : ∀ c ∈ name, c ≠ '\'' ∧ c ≠ '}' := by
  intro c hc
  have hchar := h.chars c hc
  constructor
  · rintro rfl
    exact absurd hchar (by decide)
  · rintro rfl
    exact absurd hchar (by decide)

end CachedWorkflow
