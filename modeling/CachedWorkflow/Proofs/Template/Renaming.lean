import CachedWorkflow.Proofs.Template.Scan
import CachedWorkflow.Proofs.Text.Names

/-!
# Proofs: renaming inside expressions

An expression that mentions none of the renamed identifiers is not changed (`apply_eq_self`). Of an
expression that is a single reference the identifier is replaced and the blanks around it are kept
(`apply_reference`).
-/

namespace CachedWorkflow.Renaming

/-- Whether what comes after the text stands inside a string literal. -/
def endsQuoted (text : Text) : Bool := text.count '\'' % 2 == 1

/-- An expression mentions an identifier where it stands outside string literals, begins at the
boundary of an identifier and ends at one. -/
def Mentions (expression identifier : Text) : Prop :=
  ∃ before after, expression = before ++ identifier ++ after ∧ endsQuoted before = false ∧
    (∀ c ∈ before.getLast?, joinsNext c = false) ∧ ∀ c ∈ after.head?, isIdentifierChar c = false

theorem joinsNext_quote : joinsNext '\'' = false := by decide

theorem joinsNext_of_isIdentifierChar {c : Char} (h : isIdentifierChar c = true) :
    joinsNext c = true := by rw [joinsNext, h, Bool.true_or]

theorem ne_quote_of_joinsNext {c : Char} (h : joinsNext c = true) : c ≠ '\'' := by
  rintro rfl
  rw [joinsNext_quote] at h
  cases h

theorem endsQuoted_eq_false {text : Text} (h : '\'' ∉ text) : endsQuoted text = false := by
  rw [endsQuoted, List.count_eq_zero.mpr h]
  rfl

theorem endsQuoted_append (text rest : Text) :
    endsQuoted (text ++ rest) = (endsQuoted text ^^ endsQuoted rest) := by
  rw [endsQuoted, endsQuoted, endsQuoted, List.count_append, Nat.add_mod]
  rcases Nat.mod_two_eq_zero_or_one (List.count '\'' text) with htext | htext <;>
    rcases Nat.mod_two_eq_zero_or_one (List.count '\'' rest) with hrest | hrest <;>
    rw [htext, hrest] <;> rfl

theorem endsQuoted_singleton (c : Char) : endsQuoted [c] = (c == '\'') := by
  rw [endsQuoted, List.count_singleton]
  cases c == '\'' <;> rfl

theorem endsQuoted_cons (c : Char) (text : Text) :
    endsQuoted (c :: text) = (endsQuoted text ^^ (c == '\'')) := by
  rw [← List.singleton_append, endsQuoted_append, endsQuoted_singleton, Bool.xor_comm]

/-- What has been passed of a text may as well be part of the state. -/
theorem endsQuoted_cons_xor (c : Char) (text : Text) (quoted : Bool) :
    (endsQuoted (c :: text) ^^ quoted) = (endsQuoted text ^^ (quoted ^^ (c == '\''))) := by
  rw [endsQuoted_cons, Bool.xor_assoc, Bool.xor_comm (c == '\'')]

/-- Whether a character joins, or `joined` if there is none: whether the character before what follows
keeps an identifier from beginning. -/
def joinsAfter (joined : Bool) (text : Text) : Bool := (text.getLast?.map joinsNext).getD joined

theorem joinsAfter_cons (joined : Bool) (c : Char) (text : Text) :
    joinsAfter joined (c :: text) = joinsAfter (joinsNext c) text := by
  rw [joinsAfter, joinsAfter, List.getLast?_cons, Option.map_some, Option.getD_some]
  cases text.getLast? <;> rfl

theorem joinsAfter_append (joined : Bool) (text rest : Text) :
    joinsAfter joined (text ++ rest) = joinsAfter (joinsAfter joined text) rest := by
  induction text generalizing joined with
  | nil => rfl
  | cons c text ih => rw [List.cons_append, joinsAfter_cons, joinsAfter_cons, ih]

theorem joinsAfter_false {text : Text} :
    joinsAfter false text = false ↔ ∀ c ∈ text.getLast?, joinsNext c = false := by
  rw [joinsAfter]
  cases text.getLast? <;> simp

/-! ## The identifier that is replaced -/

theorem occursAt_iff {old text : Text} :
    occursAt old text = true ↔
      old ≠ [] ∧ ∃ rest, text = old ++ rest ∧ ∀ c ∈ rest.head?, isIdentifierChar c = false := by
  rw [occursAt]
  split
  · next h =>
    have hno : ∀ rest, text ≠ old ++ rest := by
      rintro rest rfl
      rw [Text.after?_eq_some.mpr rfl] at h
      cases h
    simp [hno]
  · next rest h =>
    obtain rfl := Text.after?_eq_some.mp h
    simp [Option.any_eq_false]

/-- Two identifiers of one length do not both occur, unless they are the same. -/
theorem eq_of_occursAt {old old' text : Text} (h : occursAt old text = true)
    (h' : occursAt old' text = true) (hlength : old.length = old'.length) : old = old' := by
  obtain ⟨-, rest, hrest, -⟩ := occursAt_iff.mp h
  obtain ⟨-, rest', hrest', -⟩ := occursAt_iff.mp h'
  exact List.append_inj_left (hrest.symm.trans hrest') hlength

theorem longest?_eq_none_iff {text : Text} {pairs : Renaming} :
    longest? text pairs = none ↔ ∀ pair ∈ pairs, occursAt pair.1 text = false := by
  induction pairs with
  | nil => simp [longest?]
  | cons pair rest ih =>
    rw [longest?, List.forall_mem_cons]
    cases h : longest? text rest with
    | none =>
      have hall := ih.mp h
      by_cases hocc : occursAt pair.1 text = true
      · simp [hocc]
      · simp only [hocc, Bool.false_eq_true, ↓reduceIte, true_iff]
        exact ⟨trivial, hall⟩
    | some best =>
      have hno : ¬ ∀ p ∈ rest, occursAt p.1 text = false := by rw [← ih, h]; simp
      simp only [hno, and_false, iff_false]
      split <;> simp

theorem longest?_eq_some {text : Text} {pairs : Renaming} {pair : Text × Text}
    (h : longest? text pairs = some pair) : pair ∈ pairs ∧ occursAt pair.1 text = true := by
  induction pairs generalizing pair with
  | nil => cases h
  | cons first rest ih =>
    rw [longest?] at h
    cases hrest : longest? text rest with
    | none =>
      simp only [hrest, Option.ite_none_right_eq_some, Option.some.injEq] at h
      exact h.2 ▸ ⟨List.mem_cons_self, h.1⟩
    | some best =>
      simp only [hrest] at h
      split at h
      · next hc =>
        cases h
        exact ⟨List.mem_cons_self, (Bool.and_eq_true _ _ ▸ hc).1⟩
      · cases h
        obtain ⟨hmem, hocc⟩ := ih hrest
        exact ⟨List.mem_cons_of_mem _ hmem, hocc⟩

/-- No identifier that occurs is longer than the one that is taken. -/
theorem length_le_of_longest? {text : Text} {pairs : Renaming} {best : Text × Text}
    (h : longest? text pairs = some best) :
    ∀ pair ∈ pairs, occursAt pair.1 text = true → pair.1.length ≤ best.1.length := by
  induction pairs generalizing best with
  | nil => cases h
  | cons first rest ih =>
    rw [longest?] at h
    cases hrest : longest? text rest with
    | none =>
      simp only [hrest, Option.ite_none_right_eq_some, Option.some.injEq] at h
      obtain ⟨-, rfl⟩ := h
      intro pair hpair hocc
      rcases List.mem_cons.mp hpair with rfl | hmem
      · exact le_refl _
      · rw [longest?_eq_none_iff.mp hrest pair hmem] at hocc
        cases hocc
    | some inner =>
      simp only [hrest, Bool.and_eq_true, decide_eq_true_eq] at h
      intro pair hpair hocc
      split at h
      · next hc =>
        cases h
        rcases List.mem_cons.mp hpair with rfl | hmem
        · exact le_refl _
        · have := ih hrest pair hmem hocc
          omega
      · next hc =>
        cases h
        rcases List.mem_cons.mp hpair with rfl | hmem
        · have : ¬ best.1.length < pair.1.length := fun hlt => hc ⟨hocc, hlt⟩
          omega
        · exact ih hrest pair hmem hocc

/-- The identifier that is taken, if there is one that occurs and none that occurs is longer. -/
theorem longest?_eq_of_mem {text : Text} {pairs : Renaming} {old : Text}
    (hmem : ∃ pair ∈ pairs, pair.1 = old) (hocc : occursAt old text = true)
    (hmax : ∀ pair ∈ pairs, occursAt pair.1 text = true → pair.1.length ≤ old.length) :
    ∃ new, (old, new) ∈ pairs ∧ longest? text pairs = some (old, new) := by
  obtain ⟨pair, hpair, rfl⟩ := hmem
  cases h : longest? text pairs with
  | none =>
    rw [longest?_eq_none_iff.mp h pair hpair] at hocc
    cases hocc
  | some best =>
    obtain ⟨hbest, hbestocc⟩ := longest?_eq_some h
    have hlen : best.1.length = pair.1.length :=
      Nat.le_antisymm (hmax best hbest hbestocc) (length_le_of_longest? h pair hpair hocc)
    have heq : best.1 = pair.1 := eq_of_occursAt hbestocc hocc hlen
    exact ⟨best.2, heq ▸ hbest, by rw [← heq]⟩

/-- No identifier occurs where none can begin. -/
theorem longest?_eq_none_of_head {pairs : Renaming} {c : Char} (hc : isIdentifierChar c = false)
    (hpairs : ∀ pair ∈ pairs, ∀ c ∈ pair.1.head?, isIdentifierChar c = true) (rest : Text) :
    longest? (c :: rest) pairs = none := by
  rw [longest?_eq_none_iff]
  intro pair hpair
  rw [Bool.eq_false_iff, ne_eq, occursAt_iff]
  rintro ⟨hne, after, hsplit, -⟩
  obtain ⟨d, old, hold⟩ := List.exists_cons_of_ne_nil hne
  have hd := hpairs pair hpair d (by rw [hold]; rfl)
  rw [hold, List.cons_append, List.cons.injEq] at hsplit
  rw [← hsplit.1, hc] at hd
  cases hd

/-! ## Steps of the pass -/

theorem applyFrom_kept {pairs : Renaming} {joined quoted : Bool} {c : Char} {rest : Text}
    (h : c = '\'' ∨ quoted = true ∨ joined = true ∨ longest? (c :: rest) pairs = none) :
    applyFrom pairs joined quoted 0 (c :: rest)
      = c :: applyFrom pairs (joinsNext c) (quoted ^^ (c == '\'')) 0 rest := by
  rw [applyFrom]
  by_cases hquote : c = '\''
  · rw [if_pos hquote, hquote, joinsNext_quote, beq_self_eq_true, Bool.xor_true]
  · rw [if_neg hquote, beq_false_of_ne hquote, Bool.xor_false]
    by_cases hquoted : quoted = true
    · rw [if_pos hquoted, hquoted]
    · rw [if_neg hquoted, Bool.eq_false_iff.mpr hquoted]
      by_cases hjoined : joined = true
      · rw [if_pos hjoined]
      · rw [if_neg hjoined, ((h.resolve_left hquote).resolve_left hquoted).resolve_left hjoined]

/-- The characters of an identifier that has been replaced are skipped. -/
theorem applyFrom_skipped {pairs : Renaming} (skipped rest : Text) (joined : Bool) :
    applyFrom pairs joined false skipped.length (skipped ++ rest)
      = applyFrom pairs (joinsAfter joined skipped) false 0 rest := by
  induction skipped generalizing joined with
  | nil => rfl
  | cons c skipped ih => rw [List.length_cons, List.cons_append, applyFrom, ih, joinsAfter_cons]

theorem applyFrom_replaced {pairs : Renaming} {old new rest : Text}
    (hhead : ∀ c ∈ old.head?, c ≠ '\'') (h : longest? (old ++ rest) pairs = some (old, new)) :
    applyFrom pairs false false 0 (old ++ rest)
      = new ++ applyFrom pairs (joinsAfter false old) false 0 rest := by
  obtain ⟨hne, -⟩ := occursAt_iff.mp (longest?_eq_some h).2
  obtain ⟨c, tail, rfl⟩ := List.exists_cons_of_ne_nil hne
  rw [List.cons_append] at h
  rw [List.cons_append, applyFrom, if_neg (hhead c rfl), if_neg (by simp), if_neg (by simp), h]
  show new ++ applyFrom pairs (joinsNext c) false tail.length (tail ++ rest) = _
  rw [applyFrom_skipped, joinsAfter_cons]

/-! ## Expressions without a mention -/

/-- The pass changes nothing in the rest of an expression none of whose identifiers is mentioned. The
part `before` has been passed, and the state of the pass is the one that it leaves. -/
theorem applyFrom_eq_self {pairs : Renaming} {before rest : Text}
    (h : ∀ pair ∈ pairs, ¬ Mentions (before ++ rest) pair.1) :
    applyFrom pairs (joinsAfter false before) (endsQuoted before) 0 rest = rest := by
  induction rest generalizing before with
  | nil => rw [applyFrom]
  | cons c rest ih =>
    have hkept : c = '\'' ∨ endsQuoted before = true ∨ joinsAfter false before = true ∨
        longest? (c :: rest) pairs = none := by
      by_cases hquoted : endsQuoted before = true
      · exact .inr (.inl hquoted)
      by_cases hjoined : joinsAfter false before = true
      · exact .inr (.inr (.inl hjoined))
      refine .inr (.inr (.inr (longest?_eq_none_iff.mpr fun pair hpair => ?_)))
      -- what occurs here would be a mention
      rw [Bool.eq_false_iff, ne_eq, occursAt_iff]
      rintro ⟨-, after, hsplit, hafter⟩
      exact h pair hpair ⟨before, after, by rw [hsplit, List.append_assoc],
        Bool.eq_false_iff.mpr hquoted, joinsAfter_false.mp (Bool.eq_false_iff.mpr hjoined), hafter⟩
    have hrest := @ih (before ++ [c]) (by simpa using h)
    rw [joinsAfter_append, endsQuoted_append, endsQuoted_singleton] at hrest
    rw [applyFrom_kept hkept]
    exact congrArg (c :: ·) hrest

/-- An expression that mentions none of the identifiers stays as it is. -/
theorem apply_eq_self {pairs : Renaming} {expression : Text}
    (h : ∀ pair ∈ pairs, ¬ Mentions expression pair.1) : pairs.apply expression = expression :=
  @applyFrom_eq_self pairs [] expression h

/-! ## Identifiers that are left out -/

section

variable {pairs : Renaming} {p : Text × Text → Bool}

theorem longest?_filter {text : Text}
    (h : ∀ pair ∈ pairs, p pair = false → occursAt pair.1 text = false) :
    longest? text (pairs.filter p) = longest? text pairs := by
  induction pairs with
  | nil => rfl
  | cons pair rest ih =>
    obtain ⟨hpair, hrest⟩ := List.forall_mem_cons.mp h
    by_cases hp : p pair = true
    · rw [List.filter_cons_of_pos hp, longest?, longest?, ih hrest]
    · have hocc := hpair (Bool.eq_false_iff.mpr hp)
      rw [List.filter_cons_of_neg hp, longest?, ih hrest, hocc]
      cases longest? text rest <;> rfl

/-- The pass makes the same of the rest of an expression without the pairs whose identifiers are not mentioned.
The induction is on the length of the rest, as an identifier that is replaced is passed as a whole. -/
theorem applyFrom_filter {before rest : Text}
    (h : ∀ pair ∈ pairs, p pair = false → ¬ Mentions (before ++ rest) pair.1)
    (hquotes : ∀ pair ∈ pairs, p pair = true → '\'' ∉ pair.1) :
    applyFrom (pairs.filter p) (joinsAfter false before) (endsQuoted before) 0 rest
      = applyFrom pairs (joinsAfter false before) (endsQuoted before) 0 rest := by
  induction hn : rest.length using Nat.strong_induction_on generalizing before rest with
  | _ n ih =>
    cases rest with
    | nil => rw [applyFrom, applyFrom]
    | cons c rest =>
      -- where an identifier may begin, those that are left out do not occur
      have hlongest : endsQuoted before = false → joinsAfter false before = false →
          longest? (c :: rest) (pairs.filter p) = longest? (c :: rest) pairs := by
        intro hquoted hjoined
        refine longest?_filter fun pair hpair hp => ?_
        rw [Bool.eq_false_iff, ne_eq, occursAt_iff]
        rintro ⟨-, after, hsplit, hafter⟩
        exact h pair hpair hp ⟨before, after, by rw [hsplit, List.append_assoc], hquoted,
          joinsAfter_false.mp hjoined, hafter⟩
      by_cases hkept : c = '\'' ∨ endsQuoted before = true ∨ joinsAfter false before = true ∨
          longest? (c :: rest) pairs = none
      · have hkept' : c = '\'' ∨ endsQuoted before = true ∨ joinsAfter false before = true ∨
            longest? (c :: rest) (pairs.filter p) = none := by
          cases hquoted : endsQuoted before with
          | true => exact .inr (.inl rfl)
          | false =>
            cases hjoined : joinsAfter false before with
            | true => exact .inr (.inr (.inl rfl))
            | false =>
              rw [hlongest hquoted hjoined]
              rwa [hquoted, hjoined] at hkept
        have hlt : rest.length < n := by
          rw [← hn, List.length_cons]
          exact Nat.lt_succ_self _
        have hsplit : before ++ [c] ++ rest = before ++ c :: rest := by rw [List.append_assoc, List.singleton_append]
        have hrest := ih rest.length hlt (hsplit.symm ▸ h) rfl
        rw [joinsAfter_append, endsQuoted_append, endsQuoted_singleton] at hrest
        rw [applyFrom_kept hkept, applyFrom_kept hkept']
        exact congrArg (c :: ·) hrest
      · obtain ⟨-, hquoted, hjoined, hsome⟩ : c ≠ '\'' ∧ ¬ endsQuoted before = true ∧
            ¬ joinsAfter false before = true ∧ longest? (c :: rest) pairs ≠ none := by
          simpa only [not_or] using hkept
        rw [Bool.not_eq_true] at hquoted hjoined
        obtain ⟨⟨old, new⟩, hbest⟩ := Option.ne_none_iff_exists'.mp hsome
        have hbest' := (hlongest hquoted hjoined).trans hbest
        obtain ⟨hmem, hocc⟩ := longest?_eq_some hbest'
        obtain ⟨hmem, hp⟩ := List.mem_filter.mp hmem
        have hquote : '\'' ∉ old := hquotes (old, new) hmem hp
        obtain ⟨hne, after, hsplit, -⟩ := occursAt_iff.mp hocc
        have hhead : ∀ d ∈ old.head?, d ≠ '\'' := by
          rintro d hd rfl
          exact hquote (List.mem_of_mem_head? hd)
        have hlt : after.length < n := by
          have hpos := List.length_pos_of_ne_nil hne
          rw [← hn, hsplit, List.length_append]
          omega
        rw [hsplit] at hbest hbest' h
        have hrest := ih after.length hlt (List.append_assoc before old after ▸ h) rfl
        rw [joinsAfter_append, endsQuoted_append, hquoted, hjoined, endsQuoted_eq_false hquote] at hrest
        rw [hsplit, hquoted, hjoined, applyFrom_replaced hhead hbest, applyFrom_replaced hhead hbest']
        exact congrArg (new ++ ·) hrest

/-- Identifiers that an expression does not mention may be left out. -/
theorem apply_filter {expression : Text} (h : ∀ pair ∈ pairs, p pair = false → ¬ Mentions expression pair.1)
    (hquotes : ∀ pair ∈ pairs, p pair = true → '\'' ∉ pair.1) :
    apply (pairs.filter p) expression = pairs.apply expression :=
  @applyFrom_filter pairs p [] expression h hquotes

end

/-! ## A single reference -/

theorem ne_quote_of_isWhiteSpace {c : Char} (h : isWhiteSpace c = true) : c ≠ '\'' := by
  rintro rfl
  exact absurd h (by decide)

theorem joinsNext_of_isWhiteSpace {c : Char} (h : isWhiteSpace c = true) : joinsNext c = false := by
  rw [joinsNext, isIdentifierChar_of_isWhiteSpace h, Bool.false_or, beq_eq_false_iff_ne]
  rintro rfl
  exact absurd h (by decide)

/-- A blank begins no identifier. -/
theorem applyFrom_blank {pairs : Renaming} {blanks rest : Text} {joined : Bool}
    (hblanks : ∀ c ∈ blanks, isWhiteSpace c = true)
    (hpairs : ∀ pair ∈ pairs, ∀ c ∈ pair.1.head?, isIdentifierChar c = true) :
    applyFrom pairs joined false 0 (blanks ++ rest)
      = blanks ++ applyFrom pairs (joinsAfter joined blanks) false 0 rest := by
  induction blanks generalizing joined with
  | nil => rfl
  | cons c blanks ih =>
    have hc := hblanks c List.mem_cons_self
    have hnone := longest?_eq_none_of_head (isIdentifierChar_of_isWhiteSpace hc) hpairs (blanks ++ rest)
    rw [List.cons_append, applyFrom_kept (.inr (.inr (.inr hnone))),
      beq_false_of_ne (ne_quote_of_isWhiteSpace hc), Bool.xor_false,
      ih fun d hd => hblanks d (List.mem_cons_of_mem _ hd), joinsAfter_cons, List.cons_append]

/-- Behind blanks at the beginning an identifier may begin. -/
theorem joinsAfter_blank {blanks : Text} (h : ∀ c ∈ blanks, isWhiteSpace c = true) :
    joinsAfter false blanks = false :=
  joinsAfter_false.mpr fun c hc => joinsNext_of_isWhiteSpace (h c (List.mem_of_mem_getLast? hc))

/-- Blanks at the end of an expression stay, also right behind an identifier. -/
theorem applyFrom_trailing {pairs : Renaming} {blanks : Text} {joined : Bool}
    (hblanks : ∀ c ∈ blanks, isWhiteSpace c = true)
    (hpairs : ∀ pair ∈ pairs, ∀ c ∈ pair.1.head?, isIdentifierChar c = true) :
    applyFrom pairs joined false 0 blanks = blanks := by
  have hrest := @applyFrom_blank pairs blanks [] joined hblanks hpairs
  rwa [List.append_nil, applyFrom, List.append_nil] at hrest

/-- Inside a run of characters that join no identifier begins. -/
theorem applyFrom_joined {pairs : Renaming} {run rest : Text}
    (hrun : ∀ c ∈ run, joinsNext c = true) :
    applyFrom pairs true false 0 (run ++ rest) = run ++ applyFrom pairs true false 0 rest := by
  induction run with
  | nil => rfl
  | cons c run ih =>
    have hc := hrun c List.mem_cons_self
    rw [List.cons_append, applyFrom_kept (.inr (.inr (.inl rfl))), hc,
      beq_false_of_ne (ne_quote_of_joinsNext hc), Bool.xor_false,
      ih fun d hd => hrun d (List.mem_cons_of_mem _ hd), List.cons_append]

/-- What becomes of an expression that is a single reference: the reference is replaced if one of the
identifiers is exactly it, and the blanks around it stay. -/
theorem apply_reference {pairs : Renaming} {before reference after new : Text}
    (hbefore : ∀ c ∈ before, isWhiteSpace c = true) (hafter : ∀ c ∈ after, isWhiteSpace c = true)
    (hpairs : ∀ pair ∈ pairs, ∀ c ∈ pair.1.head?, isIdentifierChar c = true)
    (hjoins : ∀ c ∈ reference, joinsNext c = true)
    (h : longest? (reference ++ after) pairs = some (reference, new)) :
    pairs.apply (before ++ reference ++ after) = before ++ new ++ after := by
  have hhead : ∀ c ∈ reference.head?, c ≠ '\'' := fun c hc =>
    ne_quote_of_joinsNext (hjoins c (List.mem_of_mem_head? hc))
  rw [apply, List.append_assoc, applyFrom_blank hbefore hpairs, joinsAfter_blank hbefore,
    applyFrom_replaced hhead h, applyFrom_trailing hafter hpairs, List.append_assoc]

/-- A single reference that is none of the identifiers stays. -/
theorem apply_reference_of_none {pairs : Renaming} {before reference after : Text}
    (hbefore : ∀ c ∈ before, isWhiteSpace c = true) (hafter : ∀ c ∈ after, isWhiteSpace c = true)
    (hpairs : ∀ pair ∈ pairs, ∀ c ∈ pair.1.head?, isIdentifierChar c = true)
    (hne : reference ≠ []) (hjoins : ∀ c ∈ reference, joinsNext c = true)
    (h : longest? (reference ++ after) pairs = none) :
    pairs.apply (before ++ reference ++ after) = before ++ reference ++ after := by
  obtain ⟨c, rest, rfl⟩ := List.exists_cons_of_ne_nil hne
  have hc := hjoins c List.mem_cons_self
  rw [List.cons_append] at h
  rw [apply, List.append_assoc, applyFrom_blank hbefore hpairs, joinsAfter_blank hbefore,
    List.cons_append, applyFrom_kept (.inr (.inr (.inr h))), hc,
    beq_false_of_ne (ne_quote_of_joinsNext hc), Bool.xor_false,
    applyFrom_joined fun d hd => hjoins d (List.mem_cons_of_mem _ hd),
    applyFrom_trailing hafter hpairs]

/-! ## Templates -/

theorem apply_nil (expression : Text) : Renaming.apply [] expression = expression :=
  apply_eq_self fun _ h => absurd h List.not_mem_nil

theorem applyToTemplate_of_hasOpening_eq_false {pairs : Renaming} {template : Text}
    (h : Template.hasOpening template = false) : pairs.applyToTemplate template = .ok template := by
  rw [applyToTemplate, h, Bool.not_false, Bool.or_true, if_pos rfl]

/-- The fragments of a template, each with what the pass makes of it. -/
def rewritten (pairs : Renaming) : Token → Token
  | .literal text => .literal text
  | .expression source => .expression (pairs.apply source)

theorem applyToTemplate_eq {pairs : Renaming} {template : Text} {tokens : List Token}
    (h : Template.scan template = .ok tokens) :
    pairs.applyToTemplate template = .ok (Template.embed (tokens.map pairs.rewritten)) := by
  rw [applyToTemplate]
  split
  · next hc =>
    have hfix : tokens.map pairs.rewritten = tokens := by
      rw [Bool.or_eq_true, List.isEmpty_iff, Bool.not_eq_true'] at hc
      rcases hc with rfl | hno
      · refine (List.map_congr_left fun token _ => ?_).trans (List.map_id tokens)
        cases token with
        | literal => rfl
        | expression source => rw [rewritten, apply_nil]; rfl
      · rw [Template.scan_of_hasOpening_eq_false hno] at h
        cases h
        rfl
    rw [hfix, Template.embed_scan h]
  · rw [h]
    refine congrArg Except.ok (congrArg Template.embed (List.map_congr_left fun token _ => ?_))
    cases token <;> rfl

/-- A template none of whose expressions mentions a renamed identifier stays as it is. -/
theorem applyToTemplate_eq_self {pairs : Renaming} {template : Text} {tokens : List Token}
    (h : Template.scan template = .ok tokens)
    (hno : ∀ source, .expression source ∈ tokens → ∀ pair ∈ pairs, ¬ Mentions source pair.1) :
    pairs.applyToTemplate template = .ok template := by
  have hfix : tokens.map pairs.rewritten = tokens := by
    refine (List.map_congr_left fun token htoken => ?_).trans (List.map_id tokens)
    cases token with
    | literal => rfl
    | expression source => rw [rewritten, apply_eq_self (hno source htoken)]; rfl
  rw [applyToTemplate_eq h, hfix, Template.embed_scan h]

/-- What becomes of a template that is a single placeholder. -/
theorem applyToTemplate_placeholder {pairs : Renaming} {template source : Text}
    (h : Template.scan template = .ok [.literal [], .expression source, .literal []]) :
    pairs.applyToTemplate template
      = .ok (Template.opening ++ pairs.apply source ++ Template.closing) := by
  rw [applyToTemplate_eq h]
  simp [rewritten, Template.embed, Template.tokenText]

end CachedWorkflow.Renaming
