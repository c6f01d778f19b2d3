/-!
# Text

Every rule of this library about text is a recursion on its characters, so a text is simply the
list of them. This module holds the handful of operations that all the other modules share.
-/

namespace CachedWorkflow

/-- A text, as the list of its characters. -/
abbrev Text := List Char

instance : Coe String Text := ⟨String.toList⟩

namespace Text

/-- The decimal digits of a natural number. -/
def ofNat (n : Nat) : Text := Nat.toDigits 10 n

/-- An integer in plain decimal, with a minus sign when it is negative. -/
def ofInt : Int → Text
  | .ofNat n => ofNat n
  | .negSucc n => '-' :: ofNat (n + 1)

/-- The length of the text in UTF-8. -/
def byteLength (text : Text) : Nat := text.foldl (fun n c => n + c.utf8Size) 0

@[simp]
theorem byteLength_nil : byteLength [] = 0 := rfl

theorem byteLength_append (a b : Text) : byteLength (a ++ b) = a.byteLength + b.byteLength := by
  suffices ∀ n, b.foldl (fun n c => n + c.utf8Size) n = n + b.byteLength by
    rw [byteLength, List.foldl_append, this]
    rfl
  induction b with
  | nil => simp
  | cons c b ih =>
    intro n
    rw [byteLength, List.foldl_cons, List.foldl_cons, ih, ih, Nat.zero_add, Nat.add_assoc]

@[simp]
theorem byteLength_cons (c : Char) (text : Text) : byteLength (c :: text) = c.utf8Size + text.byteLength := by
  have hc : byteLength [c] = c.utf8Size := Nat.zero_add _
  rw [← List.singleton_append, byteLength_append, hc]

theorem length_le_byteLength (text : Text) : text.length ≤ text.byteLength := by
  induction text with
  | nil => exact Nat.le_refl 0
  | cons c rest ih =>
    have hc := c.utf8Size_pos
    rw [List.length_cons, byteLength_cons]
    omega

/-- There are finitely many characters. -/
theorem exists_forall_mem_chars : ∃ chars : List Char, ∀ c : Char, c ∈ chars := by
  refine ⟨(List.range 0x110000).map Char.ofNat, fun c => ?_⟩
  refine List.mem_map.mpr ⟨c.toNat, List.mem_range.mpr ?_, Char.ofNat_toNat c⟩
  have := c.valid
  simp only [UInt32.isValidChar, Nat.isValidChar] at this
  simp only [Char.toNat]
  omega

/-- There are finitely many texts of at most `n` characters. -/
theorem exists_forall_mem_of_length_le (n : Nat) :
    ∃ texts : List Text, ∀ text : Text, text.length ≤ n → text ∈ texts := by
  obtain ⟨chars, hchars⟩ := exists_forall_mem_chars
  induction n with
  | zero => exact ⟨[[]], fun text h => by simp [List.length_eq_zero_iff.mp (Nat.le_zero.mp h)]⟩
  | succ n ih =>
    obtain ⟨texts, htexts⟩ := ih
    refine ⟨[] :: chars.flatMap fun c => texts.map (c :: ·), fun text h => ?_⟩
    cases text with
    | nil => simp
    | cons c rest =>
      refine List.mem_cons_of_mem _ (List.mem_flatMap.mpr ⟨c, hchars c, ?_⟩)
      exact List.mem_map.mpr ⟨rest, htexts rest (Nat.le_of_succ_le_succ h), rfl⟩

/-- What is left of `text` after `lead`, if `text` begins with it. -/
def after? : (lead text : Text) → Option Text
  | [], text => some text
  | _ :: _, [] => none
  | a :: lead, c :: text => if a = c then after? lead text else none

/-- Drops the characters at both ends that `blank` holds of. -/
def trimmed (blank : Char → Bool) (text : Text) : Text :=
  ((text.dropWhile blank).reverse.dropWhile blank).reverse

/-- Every occurrence of the character `c` replaced by the text `new`. -/
def replacing (c : Char) (new : Text) (text : Text) : Text :=
  text.flatMap fun d => if d = c then new else [d]

end Text

end CachedWorkflow
