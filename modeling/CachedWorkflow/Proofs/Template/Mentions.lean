import CachedWorkflow.Proofs.Template.Grammar

/-!
# Proofs: mentions of a reference

Whether an expression mentions a reference can be told by recursion on the expression
(`mentions_iff`). A mention in two texts one after the other begins in one of them
(`mentionsFrom_append`), and lies in one of them if a character that no reference contains stands between
them (`mentionsFrom_append_separator`).
-/

namespace CachedWorkflow

namespace Renaming

/-- An identifier may stand between the two texts: outside string literals and at the boundaries of
identifiers. -/
def Frames (before after : Text) : Prop :=
  endsQuoted before = false ∧ (∀ c ∈ before.getLast?, joinsNext c = false) ∧
    ∀ c ∈ after.head?, isIdentifierChar c = false

/-- A reference consists of the characters of identifiers and dots, and begins with one of the former. -/
structure IsReference (identifier : Text) : Prop where
  joins : ∀ c ∈ identifier, joinsNext c = true
  head : ∃ c ∈ identifier.head?, isIdentifierChar c = true

/-- Text that is put in before `rest` introduces an identifier: the identifier can be read from within
the text on, also across its end. -/
def Introduces (new rest identifier : Text) : Prop :=
  ∃ front back, new = front ++ back ∧ back ≠ [] ∧ endsQuoted front = false ∧
    (∀ c ∈ front.getLast?, joinsNext c = false) ∧ occursAt identifier (back ++ rest) = true

theorem IsReference.ne_nil {identifier : Text} (h : IsReference identifier) : identifier ≠ [] := by
  rintro rfl
  obtain ⟨c, hc, -⟩ := h.head
  cases hc

/-- Where a reference occurs, an identifier begins. -/
theorem IsReference.head_of_occursAt {identifier text : Text} (h : IsReference identifier)
    (hocc : occursAt identifier text = true) : ∃ c ∈ text.head?, isIdentifierChar c = true := by
  obtain ⟨-, rest, rfl, -⟩ := occursAt_iff.mp hocc
  obtain ⟨c, hc, hchar⟩ := h.head
  refine ⟨c, ?_, hchar⟩
  rw [List.head?_append, hc]
  rfl

/-- No reference begins with any other character. -/
theorem IsReference.occursAt_eq_false {identifier : Text} (h : IsReference identifier) {c : Char}
    (hc : isIdentifierChar c = false) (rest : Text) : occursAt identifier (c :: rest) = false := by
  rw [Bool.eq_false_iff]
  intro hocc
  obtain ⟨d, hd, hchar⟩ := h.head_of_occursAt hocc
  cases hd
  rw [hc] at hchar
  cases hchar

/-! ## Mentions by recursion -/

/-- Whether an identifier is mentioned in the rest of an expression; `joined` and `quoted` tell what
stands before it, as in `applyFrom`. -/
def mentionsFrom (identifier : Text) : (joined quoted : Bool) → Text → Bool
  | _, _, [] => false
  | joined, quoted, c :: rest =>
    (!joined && !quoted && occursAt identifier (c :: rest))
      || mentionsFrom identifier (joinsNext c) (quoted ^^ (c == '\'')) rest

/-- A reference that is mentioned in two texts one after the other begins in one of them. -/
theorem mentionsFrom_append {identifier new rest : Text} {joined quoted : Bool} :
    mentionsFrom identifier joined quoted (new ++ rest) = true ↔
      (∃ front back, new = front ++ back ∧ back ≠ [] ∧ (endsQuoted front ^^ quoted) = false ∧
        joinsAfter joined front = false ∧ occursAt identifier (back ++ rest) = true) ∨
      mentionsFrom identifier (joinsAfter joined new) (endsQuoted new ^^ quoted) rest = true := by
  induction new generalizing joined quoted with
  | nil => simp [joinsAfter, endsQuoted]
  | cons c new ih =>
    rw [List.cons_append, mentionsFrom, Bool.or_eq_true, Bool.and_eq_true, Bool.and_eq_true, ih,
      ← endsQuoted_cons_xor, joinsAfter_cons, or_assoc.symm]
    refine or_congr_left ⟨?_, ?_⟩
    · rintro (⟨⟨hjoined, hquoted⟩, hocc⟩ | ⟨front, back, rfl, hne, hq, hj, hocc⟩)
      · refine ⟨[], c :: new, rfl, List.cons_ne_nil _ _, ?_, ?_, hocc⟩
        · simpa [endsQuoted] using hquoted
        · simpa [joinsAfter] using hjoined
      · refine ⟨c :: front, back, rfl, hne, ?_, ?_, hocc⟩
        · rwa [endsQuoted_cons_xor]
        · rwa [joinsAfter_cons]
    · rintro ⟨front, back, hsplit, hne, hq, hj, hocc⟩
      cases front with
      | nil =>
        obtain rfl : c :: new = back := hsplit
        refine .inl ⟨⟨?_, ?_⟩, hocc⟩
        · simpa [joinsAfter] using hj
        · simpa [endsQuoted] using hq
      | cons d front =>
        obtain ⟨rfl, rfl⟩ := List.cons.inj hsplit
        rw [endsQuoted_cons_xor] at hq
        rw [joinsAfter_cons] at hj
        exact .inr ⟨front, back, rfl, hne, hq, hj, hocc⟩

/-- Where the reference begins is the place where it is mentioned. -/
theorem mentionsFrom_iff {identifier : Text} (hne : identifier ≠ []) {joined quoted : Bool}
    {text : Text} : mentionsFrom identifier joined quoted text = true ↔
      ∃ before after, text = before ++ identifier ++ after ∧ (endsQuoted before ^^ quoted) = false ∧
        joinsAfter joined before = false ∧ ∀ c ∈ after.head?, isIdentifierChar c = false := by
  rw [← List.append_nil text, mentionsFrom_append]
  constructor
  · rintro (⟨before, back, rfl, -, hquoted, hjoined, hocc⟩ | h)
    · rw [List.append_nil, occursAt_iff] at hocc
      obtain ⟨-, after, rfl, hafter⟩ := hocc
      exact ⟨before, after, by simp, hquoted, hjoined, hafter⟩
    · cases h
  · rintro ⟨before, after, hsplit, hquoted, hjoined, hafter⟩
    rw [List.append_nil, List.append_assoc] at hsplit
    refine .inl ⟨before, identifier ++ after, hsplit, by simp [hne], hquoted, hjoined, ?_⟩
    rw [List.append_nil]
    exact occursAt_iff.mpr ⟨hne, after, rfl, hafter⟩

theorem mentions_iff {identifier : Text} (hne : identifier ≠ []) {expression : Text} :
    Mentions expression identifier ↔ mentionsFrom identifier false false expression = true := by
  rw [mentionsFrom_iff hne, Mentions]
  refine exists_congr fun before => exists_congr fun after => ?_
  rw [Bool.xor_false, joinsAfter_false]

/-- Where no identifier begins, it does not matter what stands before. -/
theorem mentionsFrom_congr {identifier : Text} (hid : IsReference identifier) {text : Text}
    (htext : ∀ c ∈ text.head?, isIdentifierChar c = false) (joined joined' quoted : Bool) :
    mentionsFrom identifier joined quoted text = mentionsFrom identifier joined' quoted text := by
  cases text with
  | nil => rfl
  | cons c rest =>
    rw [mentionsFrom, mentionsFrom, hid.occursAt_eq_false (htext c rfl), Bool.and_false, Bool.and_false]

/-- A reference does not occur across a character that it cannot contain. -/
theorem occursAt_append_separator {identifier : Text} (hid : IsReference identifier) {c : Char}
    (hc : joinsNext c = false) (text rest : Text) :
    occursAt identifier (text ++ c :: rest) = occursAt identifier text := by
  rw [Bool.eq_iff_iff, occursAt_iff, occursAt_iff]
  refine and_congr_right fun _ => ⟨?_, ?_⟩
  · rintro ⟨behind, hsplit, hbehind⟩
    rcases List.append_eq_append_iff.mp hsplit with ⟨inside, hinside, hrest⟩ | ⟨inside, rfl, hrest⟩
    · cases inside with
      | nil => exact ⟨[], by simpa using hinside.symm, fun d hd => by cases hd⟩
      | cons d inside =>
        -- the separator would be a part of the reference
        have hd := hid.joins d (by rw [hinside]; exact List.mem_append_right _ List.mem_cons_self)
        rw [← (List.cons.inj hrest).1, hc] at hd
        cases hd
    · refine ⟨inside, rfl, fun d hd => hbehind d ?_⟩
      rw [hrest, List.head?_append, hd]
      rfl
  · rintro ⟨behind, rfl, hbehind⟩
    refine ⟨behind ++ c :: rest, List.append_assoc _ _ _, ?_⟩
    cases behind with
    | nil =>
      intro d hd
      cases hd
      exact (Bool.or_eq_false_iff.mp hc).1
    | cons d behind => exact hbehind

/-- What is mentioned in two texts with such a character between them is mentioned in one of them. -/
theorem mentionsFrom_append_separator {identifier : Text} (hid : IsReference identifier) {c : Char}
    (hc : joinsNext c = false) (hquote : c ≠ '\'') (joined quoted : Bool) (text rest : Text) :
    mentionsFrom identifier joined quoted (text ++ c :: rest)
      = (mentionsFrom identifier joined quoted text
        || mentionsFrom identifier false (endsQuoted text ^^ quoted) rest) := by
  have hno : occursAt identifier (c :: rest) = false :=
    hid.occursAt_eq_false (Bool.or_eq_false_iff.mp hc).1 rest
  induction text generalizing joined quoted with
  | nil => simp [mentionsFrom, hno, hc, beq_false_of_ne hquote, endsQuoted]
  | cons d text ih =>
    rw [List.cons_append, mentionsFrom, mentionsFrom, ih, ← List.cons_append,
      occursAt_append_separator hid hc, endsQuoted_cons_xor, Bool.or_assoc]

/-- Text that ends in such a character introduces what is mentioned before. -/
theorem mentionsFrom_of_introduces {identifier : Text} (hid : IsReference identifier) {c : Char}
    (hc : joinsNext c = false) {new rest : Text} (h : Introduces (new ++ [c]) rest identifier) :
    mentionsFrom identifier false false new = true := by
  obtain ⟨front, back, hsplit, hne, hquoted, hjoined, hocc⟩ := h
  obtain ⟨back, last, rfl⟩ : ∃ init last, back = init ++ [last] :=
    ⟨back.dropLast, back.getLast hne, (List.dropLast_append_getLast hne).symm⟩
  rw [← List.append_assoc] at hsplit
  obtain ⟨rfl, hlast⟩ := List.append_inj' hsplit rfl
  cases hlast
  rw [List.append_assoc, List.singleton_append, occursAt_append_separator hid hc] at hocc
  have hback : back ≠ [] := by
    rintro rfl
    obtain ⟨hne, after, hafter, -⟩ := occursAt_iff.mp hocc
    exact hne (List.append_eq_nil_iff.mp hafter.symm).1
  rw [← List.append_nil (front ++ back), mentionsFrom_append]
  refine .inl ⟨front, back, rfl, hback, ?_, joinsAfter_false.mpr hjoined, ?_⟩
  · rw [hquoted]
    rfl
  · rw [List.append_nil]
    exact hocc

end Renaming

/-! ## References to outputs -/

/-- The reference to the outputs of a job that is known in a context. -/
def outputsReference (context name : Text) : Text := context ++ "." ++ name ++ ".outputs"

/-- A name of a context, a dot and more that continues an identifier are a reference. -/
theorem isReference_member {context name : Text} (hcontext : IsName context)
    (hname : ∀ c ∈ name, isIdentifierChar c = true) : Renaming.IsReference (context ++ "." ++ name) := by
  obtain ⟨c, rest, rfl⟩ := List.exists_cons_of_ne_nil hcontext.ne_nil
  refine ⟨?_, c, rfl, isIdentifierChar_of_isJobIdChar (hcontext.chars c List.mem_cons_self)⟩
  have hchars : ∀ d ∈ c :: rest, Renaming.joinsNext d = true := fun d hd =>
    Renaming.joinsNext_of_isIdentifierChar (isIdentifierChar_of_isJobIdChar (hcontext.chars d hd))
  simp only [List.forall_mem_append]
  exact ⟨⟨hchars, by decide⟩, fun d hd => Renaming.joinsNext_of_isIdentifierChar (hname d hd)⟩

theorem isReference_outputsReference {context name : Text} (hcontext : IsName context)
    (hname : ∀ c ∈ name, isJobIdChar c = true) :
    Renaming.IsReference (outputsReference context name) := by
  have hmember := isReference_member hcontext fun c hc => isIdentifierChar_of_isJobIdChar (hname c hc)
  obtain ⟨c, hc, hchar⟩ := hmember.head
  refine ⟨List.forall_mem_append.mpr ⟨hmember.joins, by decide⟩, c, ?_, hchar⟩
  rw [outputsReference, List.head?_append, hc]
  rfl

end CachedWorkflow
