import CachedWorkflow.Proofs.Template.Mentions

/-!
# Proofs: a pass over an expression

A pass cuts an expression into parts that are kept and parts that are replaced (`Pass`). Every mention of
a renamed reference begins in a part that is replaced (`Pass.exists_replaced`). The outcome mentions a
renamed reference exactly where text that has been put in introduces it (`Pass.mentionsFrom_target`), as
that text is not looked at again.
-/

namespace CachedWorkflow.Renaming

/-! ## Parts of a pass -/

/-- A part of an expression: a character that is kept, or an identifier and what is put in its place. -/
inductive Part where
  | kept (c : Char)
  | replaced (old new : Text)

/-- The text of a part before the pass. -/
def Part.before : Part → Text
  | .kept c => [c]
  | .replaced old _ => old

/-- The text of a part after the pass. -/
def Part.after : Part → Text
  | .kept c => [c]
  | .replaced _ new => new

/-- The expression that is cut into parts. -/
def source (parts : List Part) : Text := parts.flatMap Part.before

/-- The outcome of the pass over the parts. -/
def target (parts : List Part) : Text := parts.flatMap Part.after

theorem source_cons (part : Part) (rest : List Part) :
    source (part :: rest) = part.before ++ source rest := List.flatMap_cons

theorem target_cons (part : Part) (rest : List Part) :
    target (part :: rest) = part.after ++ target rest := List.flatMap_cons

/-- The parts that a pass cuts the rest of an expression into. An identifier is replaced where one may
begin and one occurs; the text behind it is looked at as it is in the expression. -/
inductive Pass (pairs : Renaming) : (joined quoted : Bool) → List Part → Prop where
  | nil {joined quoted : Bool} : Pass pairs joined quoted []
  | kept {joined quoted : Bool} {c : Char} {rest : List Part}
      (hkept : c = '\'' ∨ quoted = true ∨ joined = true ∨ longest? (c :: source rest) pairs = none)
      (hrest : Pass pairs (joinsNext c) (quoted ^^ (c == '\'')) rest) :
      Pass pairs joined quoted (.kept c :: rest)
  | replaced {old new : Text} {rest : List Part}
      (hlongest : longest? (old ++ source rest) pairs = some (old, new))
      (hrest : Pass pairs (joinsAfter false old) false rest) :
      Pass pairs false false (.replaced old new :: rest)

/-- Renaming is such a pass. The induction is on the length of the expression, as a replaced identifier
is more than one character. -/
theorem exists_pass (pairs : Renaming) (joined quoted : Bool) (text : Text) :
    ∃ parts, Pass pairs joined quoted parts ∧ source parts = text ∧
      target parts = applyFrom pairs joined quoted 0 text := by
  induction hn : text.length using Nat.strong_induction_on generalizing joined quoted text with
  | _ n ih =>
    cases text with
    | nil => exact ⟨[], .nil, rfl, by rw [applyFrom]; rfl⟩
    | cons c rest =>
      by_cases hkept : c = '\'' ∨ quoted = true ∨ joined = true ∨ longest? (c :: rest) pairs = none
      · obtain ⟨parts, hpass, rfl, htarget⟩ := ih rest.length (by rw [← hn]; simp) (joinsNext c)
          (quoted ^^ (c == '\'')) rest rfl
        refine ⟨.kept c :: parts, .kept hkept hpass, source_cons _ _, ?_⟩
        rw [target_cons, htarget, applyFrom_kept hkept]
        rfl
      · obtain ⟨hquote, hquoted, hjoined, hlongest⟩ : c ≠ '\'' ∧ quoted = false ∧ joined = false ∧
            longest? (c :: rest) pairs ≠ none := by
          simpa only [not_or, Bool.not_eq_true] using hkept
        obtain ⟨⟨old, new⟩, hsome⟩ := Option.ne_none_iff_exists'.mp hlongest
        obtain ⟨hne, behind, hsplit, -⟩ := occursAt_iff.mp (longest?_eq_some hsome).2
        have hhead : ∀ d ∈ old.head?, d ≠ '\'' := by
          intro d hd
          obtain ⟨e, tail, rfl⟩ := List.exists_cons_of_ne_nil hne
          cases hd
          cases hsplit
          exact hquote
        have hlt : behind.length < n := by
          have hlength : (c :: rest).length = old.length + behind.length := by
            rw [hsplit, List.length_append]
          have hpos : 0 < old.length := List.length_pos_iff.mpr hne
          omega
        rw [hsplit] at hsome
        obtain ⟨parts, hpass, hsource, htarget⟩ :=
          ih behind.length hlt (joinsAfter false old) false behind rfl
        refine ⟨.replaced old new :: parts, ?_, ?_, ?_⟩
        · rw [hquoted, hjoined]
          refine .replaced ?_ hpass
          rw [hsource]
          exact hsome
        · rw [source_cons, hsource, hsplit]
          rfl
        · rw [target_cons, htarget, hquoted, hjoined, hsplit]
          exact (applyFrom_replaced hhead hsome).symm

section

variable {pairs : Renaming} {joined quoted : Bool} {parts : List Part}

theorem Pass.longest?_of_replaced {front back : List Part} {old new : Text}
    (h : Pass pairs joined quoted (front ++ .replaced old new :: back)) :
    longest? (old ++ source back) pairs = some (old, new) := by
  induction front generalizing joined quoted with
  | nil =>
    cases h with
    | replaced hlongest _ => exact hlongest
  | cons part front ih =>
    cases h with
    | kept _ hrest => exact ih hrest
    | replaced _ hrest => exact ih hrest

theorem Pass.mem_of_replaced {front back : List Part} {old new : Text}
    (h : Pass pairs joined quoted (front ++ .replaced old new :: back)) : (old, new) ∈ pairs :=
  (longest?_eq_some h.longest?_of_replaced).1

/-- No renamed reference begins at a character that is kept. -/
theorem occursAt_eq_false_of_kept {identifier text : Text} {c : Char} (hid : IsReference identifier)
    (hmem : ∃ pair ∈ pairs, pair.1 = identifier)
    (hkept : c = '\'' ∨ quoted = true ∨ joined = true ∨ longest? (c :: text) pairs = none)
    (hquoted : quoted = false) (hjoined : joined = false) : occursAt identifier (c :: text) = false := by
  rw [hquoted, hjoined] at hkept
  rcases hkept with rfl | h | h | h
  · exact hid.occursAt_eq_false (by decide) text
  · cases h
  · cases h
  · obtain ⟨pair, hpair, rfl⟩ := hmem
    exact longest?_eq_none_iff.mp h pair hpair

/-- Every mention of a renamed reference begins within an identifier that is replaced. -/
theorem Pass.exists_replaced (h : Pass pairs joined quoted parts)
    (hquotes : ∀ pair ∈ pairs, endsQuoted pair.1 = false) {identifier : Text} (hid : IsReference identifier)
    (hmem : ∃ pair ∈ pairs, pair.1 = identifier) {before after : Text}
    (hsplit : source parts = before ++ identifier ++ after)
    (hquoted : (endsQuoted before ^^ quoted) = false) (hjoined : joinsAfter joined before = false)
    (hafter : ∀ c ∈ after.head?, isIdentifierChar c = false) :
    ∃ front old new back inside, parts = front ++ .replaced old new :: back ∧
      before = source front ++ inside ∧ inside.length < old.length := by
  induction h generalizing before with
  | nil =>
    have hempty := hsplit.symm
    simp [source, hid.ne_nil] at hempty
  | @kept joined quoted c rest hkept _ ih =>
    rw [source_cons] at hsplit
    cases before with
    | nil =>
      have hocc : occursAt identifier (c :: source rest) = true :=
        occursAt_iff.mpr ⟨hid.ne_nil, after, hsplit, hafter⟩
      have hq : quoted = false := by simpa [endsQuoted] using hquoted
      rw [occursAt_eq_false_of_kept hid hmem hkept hq hjoined] at hocc
      cases hocc
    | cons d before =>
      obtain ⟨rfl, hrest⟩ := List.cons.inj hsplit
      rw [endsQuoted_cons_xor] at hquoted
      rw [joinsAfter_cons] at hjoined
      obtain ⟨front, old, new, back, inside, rfl, rfl, hlt⟩ := ih hrest hquoted hjoined
      exact ⟨.kept c :: front, old, new, back, inside, rfl, rfl, hlt⟩
  | @replaced old new rest hlongest _ ih =>
    rw [source_cons] at hsplit
    by_cases hlt : before.length < old.length
    · exact ⟨[], old, new, rest, before, rfl, rfl, hlt⟩
    · have hprefix : old <+: before :=
        List.prefix_of_prefix_length_le ⟨source rest, hsplit⟩ ⟨identifier ++ after, by simp⟩
          (Nat.le_of_not_lt hlt)
      obtain ⟨before, rfl⟩ := hprefix
      have hrest : source rest = before ++ identifier ++ after := by
        rw [List.append_assoc, List.append_assoc] at hsplit
        rw [List.append_assoc]
        exact List.append_cancel_left hsplit
      have hold : endsQuoted old = false :=
        hquotes _ (longest?_eq_some hlongest).1
      rw [endsQuoted_append, hold, Bool.false_xor] at hquoted
      rw [joinsAfter_append] at hjoined
      obtain ⟨front, old', new', back, inside, rfl, rfl, hinside⟩ := ih hrest hquoted hjoined
      refine ⟨.replaced old new :: front, old', new', back, inside, rfl, ?_, hinside⟩
      rw [source_cons, List.append_assoc]
      rfl

/-! ## The outcome -/

/-- A run of joining characters at the beginning is kept, so what begins the outcome of such a run begins
the expression. -/
theorem Pass.occursAt_source (h : Pass pairs joined quoted parts) (hjoined : joined = true)
    {run behind : Text} (hrun : ∀ c ∈ run, joinsNext c = true) (hsplit : target parts = run ++ behind)
    (hbehind : ∀ c ∈ behind.head?, isIdentifierChar c = false) :
    ∃ behind', source parts = run ++ behind' ∧ ∀ c ∈ behind'.head?, isIdentifierChar c = false := by
  induction h generalizing run with
  | nil =>
    obtain ⟨rfl, rfl⟩ := List.append_eq_nil_iff.mp hsplit.symm
    exact ⟨[], rfl, hbehind⟩
  | @kept joined quoted c rest hkept hrest ih =>
    rw [target_cons] at hsplit
    cases run with
    | nil =>
      refine ⟨c :: source rest, rfl, ?_⟩
      have hhead : behind.head? = some c := by
        rw [← List.nil_append behind, ← hsplit]
        rfl
      rwa [hhead] at hbehind
    | cons d run =>
      obtain ⟨rfl, hrun'⟩ := List.cons.inj hsplit
      have hc := hrun c List.mem_cons_self
      obtain ⟨behind', hsource, hbehind'⟩ :=
        ih hc (fun e he => hrun e (List.mem_cons_of_mem _ he)) hrun'
      exact ⟨behind', by rw [source_cons, hsource]; rfl, hbehind'⟩
  | replaced => cases hjoined

/-- So a reference that begins at a character that is kept has occurred there in the expression. -/
theorem Pass.occursAt_cons_source {c : Char} (h : Pass pairs (joinsNext c) quoted parts)
    {identifier : Text} (hid : IsReference identifier)
    (hocc : occursAt identifier (c :: target parts) = true) :
    occursAt identifier (c :: source parts) = true := by
  obtain ⟨d, hd, hchar⟩ := hid.head_of_occursAt hocc
  cases hd
  obtain ⟨hne, behind, hsplit, hbehind⟩ := occursAt_iff.mp hocc
  obtain ⟨e, run, rfl⟩ := List.exists_cons_of_ne_nil hne
  obtain ⟨rfl, htarget⟩ := List.cons.inj hsplit
  obtain ⟨behind', hsource, hbehind'⟩ := h.occursAt_source (joinsNext_of_isIdentifierChar hchar)
    (fun f hf => hid.joins f (List.mem_cons_of_mem _ hf)) htarget hbehind
  exact occursAt_iff.mpr ⟨hne, behind', by rw [hsource]; rfl, hbehind'⟩

/-- The text behind a replaced identifier begins alike before and after the pass. -/
theorem Pass.head?_target (h : Pass pairs joined quoted parts)
    (hheads : ∀ pair ∈ pairs, ∀ c ∈ pair.1.head?, isIdentifierChar c = true)
    (hsource : ∀ c ∈ (source parts).head?, isIdentifierChar c = false) :
    ∀ c ∈ (target parts).head?, isIdentifierChar c = false := by
  cases h with
  | nil => exact hsource
  | kept => exact hsource
  | @replaced old new rest hlongest =>
    obtain ⟨hpair, hocc⟩ := longest?_eq_some hlongest
    obtain ⟨hne, -⟩ := occursAt_iff.mp hocc
    obtain ⟨c, tail, rfl⟩ := List.exists_cons_of_ne_nil hne
    have hchar := hheads _ hpair c rfl
    rw [hsource c rfl] at hchar
    cases hchar

/-- The outcome of a pass mentions a renamed reference exactly if text that has been put in introduces
it. -/
theorem Pass.mentionsFrom_target (h : Pass pairs joined quoted parts) {identifier : Text}
    (hid : IsReference identifier) (hmem : ∃ pair ∈ pairs, pair.1 = identifier)
    (hheads : ∀ pair ∈ pairs, ∀ c ∈ pair.1.head?, isIdentifierChar c = true)
    (hbalanced : ∀ pair ∈ pairs, endsQuoted pair.2 = false) :
    mentionsFrom identifier joined quoted (target parts) = true ↔
      ∃ front old new back, parts = front ++ .replaced old new :: back ∧
        Introduces new (target back) identifier := by
  induction h with
  | nil => simp [target, mentionsFrom]
  | @kept joined quoted c rest hkept hrest ih =>
    have hno : (!joined && !quoted && occursAt identifier (c :: target rest)) = false := by
      rw [Bool.eq_false_iff]
      intro h
      rw [Bool.and_eq_true, Bool.and_eq_true, Bool.not_eq_true', Bool.not_eq_true'] at h
      obtain ⟨⟨hjoined, hquoted⟩, hocc⟩ := h
      have hsource := hrest.occursAt_cons_source hid hocc
      rw [occursAt_eq_false_of_kept hid hmem hkept hquoted hjoined] at hsource
      cases hsource
    rw [target_cons]
    show mentionsFrom identifier joined quoted (c :: target rest) = true ↔ _
    rw [mentionsFrom, hno, Bool.false_or, ih]
    constructor
    · rintro ⟨front, old, new, back, rfl, hnew⟩
      exact ⟨.kept c :: front, old, new, back, rfl, hnew⟩
    · rintro ⟨front, old, new, back, hsplit, hnew⟩
      rcases List.cons_eq_append_iff.mp hsplit with ⟨-, h⟩ | ⟨front, -, h⟩
      · cases h
      · exact ⟨front, old, new, back, h, hnew⟩
  | @replaced old new rest hlongest hrest ih =>
    obtain ⟨hpair, hocc⟩ := longest?_eq_some hlongest
    obtain ⟨-, behind, hsplit, hbehind⟩ := occursAt_iff.mp hocc
    have hsource : source rest = behind := List.append_cancel_left hsplit
    have hhead := hrest.head?_target hheads (hsource ▸ hbehind)
    have hbal : endsQuoted new = false := hbalanced _ hpair
    rw [target_cons, show (Part.replaced old new).after = new from rfl, mentionsFrom_append, hbal,
      mentionsFrom_congr hid hhead _ (joinsAfter false old), Bool.xor_false, ih]
    simp only [Bool.xor_false, joinsAfter_false]
    constructor
    · rintro (⟨front, back, hnew⟩ | ⟨front, old', new', back, rfl, hnew⟩)
      · exact ⟨[], old, new, rest, rfl, front, back, hnew⟩
      · exact ⟨.replaced old new :: front, old', new', back, rfl, hnew⟩
    · rintro ⟨front, old', new', back, hsplit, hnew⟩
      rcases List.cons_eq_append_iff.mp hsplit with ⟨-, h⟩ | ⟨front, -, h⟩
      · cases h
        exact .inl hnew
      · exact .inr ⟨front, old', new', back, h, hnew⟩

end

end CachedWorkflow.Renaming
