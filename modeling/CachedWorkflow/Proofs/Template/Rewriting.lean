import CachedWorkflow.Proofs.Template.Lexemes

/-!
# Proofs: renaming lexeme by lexeme

Renaming deals with the lexemes of an expression one by one (`RewritesTo`). It keeps all of them but the
chains that an identifier to replace begins, and of these it replaces the beginning
(`apply_rewrites_lexemes`).
-/

namespace CachedWorkflow

open Template (IsLiteralBody)
open Lexeme

namespace Renaming

/-- An identifier begins a chain, and what comes after it there does not continue it. -/
def Heads (old run : Text) : Prop :=
  ∃ tail, run = old ++ tail ∧ ∀ c ∈ tail.head?, isIdentifierChar c = false

/-- The identifier `old` is the longest one that begins a chain, and the last of the pairs with it puts
`new` in its place. -/
structure Takes (pairs : Renaming) (run old new : Text) : Prop where
  heads : Heads old run
  longest : ∀ pair ∈ pairs, Heads pair.1 run → pair.1.length ≤ old.length
  last : ∃ front back, pairs = front ++ (old, new) :: back ∧ ∀ pair ∈ back, pair.1 ≠ old

/-- What renaming makes of a lexeme. -/
inductive RewritesTo (pairs : Renaming) : Lexeme → Text → Prop where
  | literal (body : Text) (closed : Bool) :
      RewritesTo pairs (.literal body closed) (Lexeme.literal body closed).text
  | kept {run : Text} (hnone : ∀ pair ∈ pairs, ¬ Heads pair.1 run) : RewritesTo pairs (.chain run) run
  | replaced {old new tail : Text} (htakes : Takes pairs (old ++ tail) old new) :
      RewritesTo pairs (.chain (old ++ tail)) (new ++ tail)
  | other (c : Char) : RewritesTo pairs (.other c) [c]

/-! ## The identifier that is replaced -/

/-- Of the pairs with the identifier that is taken, the last one is. -/
theorem last_of_longest? {text : Text} {pairs : Renaming} {best : Text × Text}
    (h : longest? text pairs = some best) :
    ∃ front back, pairs = front ++ best :: back ∧ ∀ pair ∈ back, pair.1 ≠ best.1 := by
  induction pairs generalizing best with
  | nil => cases h
  | cons first rest ih =>
    have hocc := (longest?_eq_some h).2
    rw [longest?] at h
    cases hrest : longest? text rest with
    | none =>
      simp only [hrest, Option.ite_none_right_eq_some, Option.some.injEq] at h
      obtain ⟨-, rfl⟩ := h
      refine ⟨[], rest, rfl, fun pair hpair heq => ?_⟩
      have hnot := longest?_eq_none_iff.mp hrest pair hpair
      rw [heq, hocc] at hnot
      cases hnot
    | some inner =>
      simp only [hrest, Bool.and_eq_true, decide_eq_true_eq] at h
      split at h
      · next hlonger =>
        cases h
        refine ⟨[], rest, rfl, fun pair hpair heq => ?_⟩
        have hle := length_le_of_longest? hrest pair hpair (by rw [heq]; exact hocc)
        rw [heq] at hle
        omega
      · cases h
        obtain ⟨front, back, rfl, hlast⟩ := ih hrest
        exact ⟨first :: front, back, rfl, hlast⟩

/-- And the last pair with the longest identifier that occurs is taken. -/
theorem longest?_of_last {text old new : Text} {front back : Renaming} (hocc : occursAt old text = true)
    (hlast : ∀ pair ∈ back, pair.1 ≠ old)
    (hlongest : ∀ pair ∈ front ++ (old, new) :: back, occursAt pair.1 text = true →
      pair.1.length ≤ old.length) :
    longest? text (front ++ (old, new) :: back) = some (old, new) := by
  induction front with
  | nil =>
    rw [List.nil_append, longest?]
    cases hback : longest? text back with
    | none => simp [hocc]
    | some best =>
      obtain ⟨hmem, hbest⟩ := longest?_eq_some hback
      have hle := hlongest best (List.mem_cons_of_mem _ hmem) hbest
      have hne : best.1.length ≠ old.length := fun hlength =>
        hlast best hmem (eq_of_occursAt hbest hocc hlength)
      have hlt : best.1.length < old.length := by omega
      simp [hocc, hlt]
  | cons first front ih =>
    have hrest := ih fun pair hpair => hlongest pair (List.mem_cons_of_mem _ hpair)
    rw [List.cons_append, longest?, hrest]
    refine if_neg fun hlonger => ?_
    rw [Bool.and_eq_true, decide_eq_true_eq] at hlonger
    have hle := hlongest first List.mem_cons_self hlonger.1
    have hlt : old.length < first.1.length := hlonger.2
    omega

section

variable {pairs : Renaming} {run rest : Text}

/-- A reference that occurs at a chain lies in it. -/
theorem occursAt_iff_heads {old : Text} (hold : IsReference old)
    (hrest : ∀ c ∈ rest.head?, joinsNext c = false) :
    occursAt old (run ++ rest) = true ↔ Heads old run := by
  have hchain : occursAt old (run ++ rest) = occursAt old run := by
    cases rest with
    | nil => rw [List.append_nil]
    | cons c rest => exact occursAt_append_separator hold (hrest c rfl) run rest
  rw [hchain, occursAt_iff]
  exact and_iff_right hold.ne_nil

theorem longest?_eq_some_iff_takes (hpairs : ∀ pair ∈ pairs, IsReference pair.1)
    (hrest : ∀ c ∈ rest.head?, joinsNext c = false) {old new : Text} :
    longest? (run ++ rest) pairs = some (old, new) ↔ Takes pairs run old new := by
  constructor
  · intro h
    obtain ⟨hmem, hocc⟩ := longest?_eq_some h
    refine ⟨(occursAt_iff_heads (hpairs _ hmem) hrest).mp hocc, fun pair hpair hheads => ?_,
      last_of_longest? h⟩
    exact length_le_of_longest? h pair hpair ((occursAt_iff_heads (hpairs pair hpair) hrest).mpr hheads)
  · rintro ⟨hheads, hlongest, front, back, rfl, hlast⟩
    have hold : IsReference old := hpairs (old, new) (by simp)
    refine longest?_of_last ((occursAt_iff_heads hold hrest).mpr hheads) hlast fun pair hpair hocc => ?_
    exact hlongest pair hpair ((occursAt_iff_heads (hpairs pair hpair) hrest).mp hocc)

theorem longest?_eq_none_iff_heads (hpairs : ∀ pair ∈ pairs, IsReference pair.1)
    (hrest : ∀ c ∈ rest.head?, joinsNext c = false) :
    longest? (run ++ rest) pairs = none ↔ ∀ pair ∈ pairs, ¬ Heads pair.1 run := by
  rw [longest?_eq_none_iff]
  refine forall₂_congr fun pair hpair => ?_
  rw [← occursAt_iff_heads (hpairs pair hpair) hrest, Bool.not_eq_true]

/-- Something becomes of every lexeme. -/
theorem exists_rewritesTo (hpairs : ∀ pair ∈ pairs, IsReference pair.1) (lexeme : Lexeme) :
    ∃ outcome, RewritesTo pairs lexeme outcome := by
  cases lexeme with
  | literal body closed => exact ⟨_, .literal body closed⟩
  | chain run =>
    have hend : ∀ c ∈ ([] : Text).head?, joinsNext c = false := fun c hc => by cases hc
    cases hlongest : longest? (run ++ []) pairs with
    | none => exact ⟨run, .kept ((longest?_eq_none_iff_heads hpairs hend).mp hlongest)⟩
    | some pair =>
      have htakes := (longest?_eq_some_iff_takes hpairs hend).mp hlongest
      obtain ⟨tail, rfl, -⟩ := htakes.heads
      exact ⟨pair.2 ++ tail, .replaced htakes⟩
  | other c => exact ⟨[c], .other c⟩

/-! ## The pass over lexemes -/

/-- Nothing in the body of a literal is replaced. -/
theorem applyFrom_literalBody {body : Text} (hbody : IsLiteralBody body) (joined : Bool) :
    applyFrom pairs joined true 0 (body ++ rest)
      = body ++ applyFrom pairs (joinsAfter joined body) true 0 rest := by
  induction hbody generalizing joined with
  | nil => rfl
  | @char c body hc _ ih =>
    rw [List.cons_append, applyFrom_kept (.inr (.inl rfl)), beq_false_of_ne hc, Bool.xor_false, ih,
      joinsAfter_cons, List.cons_append]
  | @quote body _ ih =>
    -- the two quotes leave the literal and enter it again
    have hquotes : ((true ^^ ('\'' == '\'')) ^^ ('\'' == '\'')) = true := rfl
    rw [List.cons_append, List.cons_append, applyFrom_kept (.inl rfl), applyFrom_kept (.inl rfl), hquotes,
      ih, joinsAfter_cons, joinsAfter_cons, List.cons_append, List.cons_append]

theorem joinsAfter_of_joins {joined : Bool} (hne : run ≠ []) (hrun : ∀ c ∈ run, joinsNext c = true) :
    joinsAfter joined run = true := by
  rw [joinsAfter, List.getLast?_eq_some_getLast hne, Option.map_some, Option.getD_some]
  exact hrun _ (List.getLast_mem hne)

/-- One step of the pass: it makes of a lexeme what becomes of it. -/
theorem RewritesTo.applyFrom_eq {lexeme : Lexeme} {outcome : Text} (h : RewritesTo pairs lexeme outcome)
    (hpairs : ∀ pair ∈ pairs, IsReference pair.1) (hfits : lexeme.Fits rest) {joined : Bool}
    (hjoined : joined = false ∨ ∀ c ∈ (lexeme.text ++ rest).head?, joinsNext c = false) :
    applyFrom pairs joined false 0 (lexeme.text ++ rest)
      = outcome ++ applyFrom pairs (joinsAfter joined lexeme.text) false 0 rest := by
  cases h with
  | literal body closed =>
    have hbody : IsLiteralBody body := (endsLiteral_of_fits hfits).1
    have hquote : (false ^^ ('\'' == '\'')) = true := rfl
    rw [text, List.cons_append, List.append_assoc, applyFrom_kept (.inl rfl), hquote,
      applyFrom_literalBody hbody, List.cons_append, List.append_assoc]
    cases closed with
    | true =>
      have hquote' : (true ^^ ('\'' == '\'')) = false := rfl
      have hafter : joinsAfter joined ('\'' :: (body ++ ['\''])) = false := joinsAfter_literal joined body
      rw [if_pos rfl, List.singleton_append, applyFrom_kept (.inl rfl), hquote', hafter, joinsNext_quote]
      rfl
    | false =>
      obtain rfl : rest = [] := hfits.2
      rfl
  | kept hnone =>
    obtain ⟨hne, hrun, hrest⟩ := hfits
    have hlongest := (longest?_eq_none_iff_heads hpairs hrest).mpr hnone
    have hafter : joinsAfter joined outcome = true := joinsAfter_of_joins hne hrun
    rw [text, hafter]
    obtain ⟨c, tail, rfl⟩ := List.exists_cons_of_ne_nil hne
    have hc := hrun c List.mem_cons_self
    rw [List.cons_append] at hlongest ⊢
    rw [applyFrom_kept (.inr (.inr (.inr hlongest))), hc, beq_false_of_ne (ne_quote_of_joinsNext hc),
      Bool.xor_false, applyFrom_joined fun d hd => hrun d (List.mem_cons_of_mem _ hd), List.cons_append]
  | @replaced old new tail htakes =>
    obtain ⟨hne, hrun, hrest⟩ := hfits
    have hlongest := (longest?_eq_some_iff_takes hpairs hrest).mpr htakes
    have hold : IsReference old := hpairs (old, new) (longest?_eq_some hlongest).1
    obtain rfl : joined = false := by
      rcases hjoined with hjoined | hnot
      · exact hjoined
      · obtain ⟨c, hc, hchar⟩ := hold.head
        have hjoins := joinsNext_of_isIdentifierChar hchar
        rw [hnot c (by rw [text, List.append_assoc, List.head?_append, hc]; rfl)] at hjoins
        cases hjoins
    have hafter : joinsAfter false (old ++ tail) = true := joinsAfter_of_joins hne hrun
    have hafterOld : joinsAfter false old = true := joinsAfter_of_joins hold.ne_nil hold.joins
    have hhead : ∀ c ∈ old.head?, c ≠ '\'' := fun c hc =>
      ne_quote_of_joinsNext (hold.joins c (List.mem_of_mem_head? hc))
    rw [List.append_assoc] at hlongest
    rw [text, hafter, List.append_assoc, applyFrom_replaced hhead hlongest, hafterOld,
      applyFrom_joined fun c hc => hrun c (List.mem_append_right _ hc), List.append_assoc]
  | other c =>
    have hc : isIdentifierChar c = false := (Bool.or_eq_false_iff.mp hfits.1).1
    have hnone : longest? (c :: rest) pairs = none :=
      longest?_eq_none_of_head hc (fun pair hpair d hd => by
        obtain ⟨e, he, hchar⟩ := (hpairs pair hpair).head
        rw [Option.mem_unique hd he]
        exact hchar) rest
    rw [text, List.singleton_append, applyFrom_kept (.inr (.inr (.inr hnone))),
      beq_false_of_ne hfits.2, Bool.xor_false]
    rfl

/-- The whole pass over lexemes, by the steps. -/
theorem applyFrom_join (hpairs : ∀ pair ∈ pairs, IsReference pair.1) {lexemes : List Lexeme}
    (h : Chained lexemes) {outcomes : List Text} (houtcomes : List.Forall₂ (RewritesTo pairs) lexemes outcomes)
    {joined : Bool} (hjoined : joined = false ∨ ∀ c ∈ (join lexemes).head?, joinsNext c = false) :
    applyFrom pairs joined false 0 (join lexemes) = outcomes.flatten := by
  induction h generalizing outcomes joined with
  | nil =>
    cases houtcomes
    rfl
  | cons hfits _ ih =>
    cases houtcomes with
    | cons hrewrites hrest =>
      rw [join_cons] at hjoined ⊢
      rw [hrewrites.applyFrom_eq hpairs hfits hjoined, ih hrest (joinsAfter_of_fits hfits joined),
        List.flatten_cons]

/-- So renaming makes of an expression what becomes of its lexemes. -/
theorem apply_eq_flatten (hpairs : ∀ pair ∈ pairs, IsReference pair.1) {expression : Text}
    {lexemes : List Lexeme} (h : IsLexing expression lexemes) {outcomes : List Text}
    (houtcomes : List.Forall₂ (RewritesTo pairs) lexemes outcomes) :
    pairs.apply expression = outcomes.flatten := by
  obtain ⟨hchained, rfl⟩ := h
  exact applyFrom_join hpairs hchained houtcomes (.inl rfl)

end

/-- Renaming rewrites the lexemes of an expression, of which there is one list, one by one, and in one way
only. -/
theorem apply_rewrites_lexemes (pairs : Renaming) (hpairs : ∀ pair ∈ pairs, IsReference pair.1)
    (expression : Text) :
    ∃ lexemes, IsLexing expression lexemes ∧
      (∀ lexemes', IsLexing expression lexemes' → lexemes' = lexemes) ∧
      ∀ result, pairs.apply expression = result ↔
        ∃ outcomes, List.Forall₂ (RewritesTo pairs) lexemes outcomes ∧ outcomes.flatten = result := by
  obtain ⟨lexemes, hlexing⟩ := exists_isLexing expression
  refine ⟨lexemes, hlexing, fun lexemes' hlexing' => hlexing'.unique hlexing, fun result => ?_⟩
  constructor
  · rintro rfl
    obtain ⟨outcomes, houtcomes⟩ := exists_forall₂ fun lexeme (_ : lexeme ∈ lexemes) =>
      exists_rewritesTo hpairs lexeme
    exact ⟨outcomes, houtcomes, (apply_eq_flatten hpairs hlexing houtcomes).symm⟩
  · rintro ⟨outcomes, houtcomes, rfl⟩
    exact apply_eq_flatten hpairs hlexing houtcomes

/-- One identifier begins another and is listed twice, and what is put in could be replaced as well. -/
def tagRenaming : Renaming :=
  [("needs.build", "needs.test"), ("needs.build.outputs", "needs.build"), ("needs.build", "'v1'")]

/-- The last literal is not closed. -/
def tagExpression : Text :=
  "needs.build.outputs.tag'it''s needs.build'needs.build-2 needs.buildé !needs.build..x'needs.build"

theorem apply_rewrites_lexemes_tagRenaming :
    (∀ pair ∈ tagRenaming, IsReference pair.1) ∧ ∃ lexemes, IsLexing tagExpression lexemes ∧
      ∃ outcomes, List.Forall₂ (RewritesTo tagRenaming) lexemes outcomes ∧ outcomes.flatten =
        ("needs.build.tag'it''s needs.build'needs.build-2 needs.buildé !'v1'..x'needs.build" : Text) := by
  have hpairs : ∀ pair ∈ tagRenaming, IsReference pair.1 := by
    have hcheck : ∀ pair ∈ tagRenaming, (∀ c ∈ pair.1, joinsNext c = true) ∧ pair.1.head? = some 'n' := by
      decide
    intro pair hpair
    obtain ⟨hjoins, hhead⟩ := hcheck pair hpair
    exact ⟨hjoins, 'n', hhead, by decide⟩
  obtain ⟨lexemes, hlexing, -, hresult⟩ := apply_rewrites_lexemes tagRenaming hpairs tagExpression
  exact ⟨hpairs, lexemes, hlexing, (hresult _).mp (by decide +kernel)⟩

end Renaming

end CachedWorkflow
