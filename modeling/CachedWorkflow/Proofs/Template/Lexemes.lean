import CachedWorkflow.Proofs.Template.Rendering

/-!
# Proofs: lexemes of an expression

An expression is cut into string literals, chains of identifiers and dots, and single other characters in
exactly one way (`exists_isLexing`, `IsLexing.unique`). What stands before a chain ends outside of literals,
and where an identifier may begin (`frames_before_chain`).
-/

namespace CachedWorkflow

open Template (IsLiteralBody)

/-- A lexeme of an expression. A string literal may lack the quote that ends it. -/
inductive Lexeme where
  | literal (body : Text) (closed : Bool)
  | chain (run : Text)
  | other (c : Char)
  deriving DecidableEq, Repr

namespace Lexeme

open Renaming

/-- The text of a lexeme inside its expression. -/
def text : Lexeme → Text
  | .literal body closed => '\'' :: (body ++ if closed then ['\''] else [])
  | .chain run => run
  | .other c => [c]

/-- The expression that consists of the given lexemes. -/
def join (lexemes : List Lexeme) : Text := lexemes.flatMap text

/-- What makes a lexeme one if `rest` comes after it. A literal ends at a quote that is not doubled, or
with the expression; a chain is as long as can be. -/
def Fits : Lexeme → (rest : Text) → Prop
  | .literal body true, rest => IsLiteralBody body ∧ rest.head? ≠ some '\''
  | .literal body false, rest => IsLiteralBody body ∧ rest = []
  | .chain run, rest =>
    run ≠ [] ∧ (∀ c ∈ run, joinsNext c = true) ∧ ∀ c ∈ rest.head?, joinsNext c = false
  | .other c, _ => joinsNext c = false ∧ c ≠ '\''

/-- Lexemes each of which fits what comes after it. -/
inductive Chained : List Lexeme → Prop where
  | nil : Chained []
  | cons {lexeme : Lexeme} {rest : List Lexeme} (hfits : lexeme.Fits (join rest)) (hrest : Chained rest) :
      Chained (lexeme :: rest)

theorem join_cons (lexeme : Lexeme) (rest : List Lexeme) :
    join (lexeme :: rest) = lexeme.text ++ join rest := List.flatMap_cons

theorem join_append (front back : List Lexeme) : join (front ++ back) = join front ++ join back :=
  List.flatMap_append

theorem chained_cons_iff {lexeme : Lexeme} {rest : List Lexeme} :
    Chained (lexeme :: rest) ↔ lexeme.Fits (join rest) ∧ Chained rest := by
  constructor
  · intro h
    cases h with
    | cons hfits hrest => exact ⟨hfits, hrest⟩
  · rintro ⟨hfits, hrest⟩
    exact .cons hfits hrest

theorem Chained.of_append {front back : List Lexeme} (h : Chained (front ++ back)) : Chained back := by
  induction front with
  | nil => exact h
  | cons lexeme front ih => exact ih (chained_cons_iff.mp h).2

end Lexeme

open Lexeme

/-- A way to cut an expression into lexemes. -/
structure IsLexing (expression : Text) (lexemes : List Lexeme) : Prop where
  chained : Chained lexemes
  join_eq : join lexemes = expression

/-! ## Literals -/

/-- What can come after the body of a literal: nothing, or a quote that is not doubled. -/
def EndsLiteral (text : Text) : Prop :=
  text = [] ∨ ∃ rest, text = '\'' :: rest ∧ rest.head? ≠ some '\''

/-- Behind the quote that begins a literal its body is read up to its end. The induction is on the length,
as a doubled quote is two characters. -/
theorem exists_isLiteralBody (text : Text) :
    ∃ body rest, IsLiteralBody body ∧ EndsLiteral rest ∧ text = body ++ rest := by
  induction hn : text.length using Nat.strong_induction_on generalizing text with
  | _ n ih =>
    cases text with
    | nil => exact ⟨[], [], .nil, .inl rfl, rfl⟩
    | cons c text =>
      by_cases hc : c = '\''
      · subst hc
        by_cases hhead : text.head? = some '\''
        · obtain ⟨behind, rfl⟩ := List.head?_eq_some_iff.mp hhead
          have hlt : behind.length < n := by
            rw [← hn, List.length_cons, List.length_cons]
            omega
          obtain ⟨body, rest, hbody, hend, rfl⟩ := ih behind.length hlt behind rfl
          exact ⟨'\'' :: '\'' :: body, rest, .quote hbody, hend, rfl⟩
        · exact ⟨[], '\'' :: text, .nil, .inr ⟨text, rfl, hhead⟩, rfl⟩
      · have hlt : text.length < n := by
          rw [← hn, List.length_cons]
          omega
        obtain ⟨body, rest, hbody, hend, rfl⟩ := ih text.length hlt text rfl
        exact ⟨c :: body, rest, .char hc hbody, hend, rfl⟩

/-- Nothing else than an empty body comes before the end of a literal. -/
theorem EndsLiteral.eq_nil {body rest : Text} (h : EndsLiteral (body ++ rest)) (hbody : IsLiteralBody body) :
    body = [] := by
  cases hbody with
  | nil => rfl
  | char hc _ =>
    rcases h with hnil | ⟨behind, hquote, -⟩
    · cases hnil
    · cases hquote
      exact absurd rfl hc
  | quote _ =>
    rcases h with hnil | ⟨behind, hquote, hhead⟩
    · cases hnil
    · cases hquote
      exact absurd rfl hhead

/-- The body of a literal is the only one. -/
theorem Template.IsLiteralBody.unique {body body' rest rest' : Text} (hbody : IsLiteralBody body)
    (hbody' : IsLiteralBody body') (hrest : EndsLiteral rest) (hrest' : EndsLiteral rest')
    (h : body ++ rest = body' ++ rest') : body = body' := by
  induction hbody generalizing body' with
  | nil =>
    rw [List.nil_append] at h
    rw [h] at hrest
    exact (hrest.eq_nil hbody').symm
  | @char c body hc hbody ih =>
    cases hbody' with
    | nil =>
      rw [List.nil_append] at h
      rw [← h] at hrest'
      exact hrest'.eq_nil (.char hc hbody)
    | char _ hbody' =>
      obtain ⟨rfl, hsplit⟩ := List.cons.inj h
      rw [ih hbody' hsplit]
    | quote _ =>
      obtain ⟨rfl, -⟩ := List.cons.inj h
      exact absurd rfl hc
  | @quote body hbody ih =>
    cases hbody' with
    | nil =>
      rw [List.nil_append] at h
      rw [← h] at hrest'
      exact hrest'.eq_nil (.quote hbody)
    | char hc _ =>
      obtain ⟨rfl, -⟩ := List.cons.inj h
      exact absurd rfl hc
    | quote hbody' =>
      have hsplit := (List.cons.inj (List.cons.inj h).2).2
      rw [ih hbody' hsplit]

/-! ## Lexings -/

namespace Lexeme

open Renaming

/-- What ends a literal is told by the characters behind its body. -/
theorem endsLiteral_of_fits {body rest : Text} {closed : Bool} (h : (literal body closed).Fits rest) :
    IsLiteralBody body ∧ EndsLiteral ((if closed then ['\''] else []) ++ rest) := by
  cases closed with
  | true => exact ⟨h.1, .inr ⟨rest, rfl, h.2⟩⟩
  | false => exact ⟨h.1, .inl h.2⟩

/-- How a lexeme begins tells of which kind it is. -/
def Begins : Lexeme → (c : Char) → Prop
  | .literal _ _, c => c = '\''
  | .chain _, c => joinsNext c = true
  | .other _, c => joinsNext c = false ∧ c ≠ '\''

/-- There is no empty lexeme. -/
theorem Fits.exists_begins {lexeme : Lexeme} {rest : Text} (h : lexeme.Fits rest) :
    ∃ c tail, lexeme.text = c :: tail ∧ lexeme.Begins c := by
  cases lexeme with
  | literal body closed => exact ⟨'\'', _, rfl, rfl⟩
  | chain run =>
    obtain ⟨hne, hrun, -⟩ := h
    obtain ⟨c, tail, rfl⟩ := List.exists_cons_of_ne_nil hne
    exact ⟨c, tail, rfl, hrun c List.mem_cons_self⟩
  | other c => exact ⟨c, [], rfl, h⟩

/-- The lexeme at the beginning of a text is the only one. -/
theorem Fits.unique {lexeme lexeme' : Lexeme} {rest rest' : Text} (h : lexeme.Fits rest)
    (h' : lexeme'.Fits rest') (htext : lexeme.text ++ rest = lexeme'.text ++ rest') : lexeme = lexeme' := by
  obtain ⟨c, tail, hc, hbegins⟩ := h.exists_begins
  obtain ⟨d, tail', hd, hbegins'⟩ := h'.exists_begins
  obtain rfl : c = d := by
    rw [hc, hd] at htext
    exact (List.cons.inj htext).1
  cases lexeme with
  | literal body closed =>
    obtain rfl : c = '\'' := hbegins
    cases lexeme' with
    | literal body' closed' =>
      obtain ⟨hbody, hend⟩ := endsLiteral_of_fits h
      obtain ⟨hbody', hend'⟩ := endsLiteral_of_fits h'
      have hsplit : body ++ ((if closed then ['\''] else []) ++ rest)
          = body' ++ ((if closed' then ['\''] else []) ++ rest') := by
        rw [text, text, List.cons_append, List.cons_append, List.append_assoc, List.append_assoc] at htext
        exact (List.cons.inj htext).2
      obtain rfl := hbody.unique hbody' hend hend' hsplit
      have hrest := List.append_cancel_left hsplit
      -- an open literal has nothing behind it, a closed one a quote
      cases closed <;> cases closed'
      · rfl
      · rw [h.2] at hrest
        cases hrest
      · rw [h'.2] at hrest
        cases hrest
      · rfl
    | chain run' => exact absurd rfl (ne_quote_of_joinsNext hbegins')
    | other c' => exact absurd rfl hbegins'.2
  | chain run =>
    cases lexeme' with
    | literal body' closed' => exact absurd hbegins' (ne_quote_of_joinsNext hbegins)
    | chain run' => rw [(run_append_inj h.2.1 h'.2.1 h.2.2 h'.2.2 htext).1]
    | other c' =>
      have hjoins : joinsNext c = true := hbegins
      rw [hbegins'.1] at hjoins
      cases hjoins
  | other e =>
    cases lexeme' with
    | literal body' closed' => exact absurd hbegins' hbegins.2
    | chain run' =>
      have hjoins : joinsNext c = true := hbegins'
      rw [hbegins.1] at hjoins
      cases hjoins
    | other e' =>
      cases htext
      rfl

/-- Behind any beginning the lexemes are the only ones. -/
theorem Chained.unique {lexemes lexemes' : List Lexeme} (h : Chained lexemes) (h' : Chained lexemes')
    (hjoin : join lexemes = join lexemes') : lexemes = lexemes' := by
  induction h generalizing lexemes' with
  | nil =>
    cases h' with
    | nil => rfl
    | cons hfits _ =>
      obtain ⟨c, tail, htext, -⟩ := hfits.exists_begins
      rw [join_cons, htext] at hjoin
      cases hjoin
  | cons hfits _ ih =>
    cases h' with
    | nil =>
      obtain ⟨c, tail, htext, -⟩ := hfits.exists_begins
      rw [join_cons, htext] at hjoin
      cases hjoin
    | cons hfits' hrest' =>
      rw [join_cons, join_cons] at hjoin
      obtain rfl := hfits.unique hfits' hjoin
      rw [ih hrest' (List.append_cancel_left hjoin)]

/-- A text that is not empty begins with a lexeme. -/
theorem exists_fits (c : Char) (behind : Text) :
    ∃ (lexeme : Lexeme) (rest : Text), lexeme.Fits rest ∧ c :: behind = lexeme.text ++ rest := by
  by_cases hquote : c = '\''
  · subst hquote
    obtain ⟨body, rest, hbody, hend, rfl⟩ := exists_isLiteralBody behind
    rcases hend with rfl | ⟨rest, rfl, hrest⟩
    · exact ⟨.literal body false, [], ⟨hbody, rfl⟩, by simp [text]⟩
    · exact ⟨.literal body true, rest, ⟨hbody, hrest⟩, by simp [text]⟩
  · by_cases hjoins : joinsNext c = true
    · refine ⟨.chain ((c :: behind).takeWhile joinsNext), (c :: behind).dropWhile joinsNext, ⟨?_, ?_, ?_⟩,
        List.takeWhile_append_dropWhile.symm⟩
      · rw [List.takeWhile_cons_of_pos hjoins]
        exact List.cons_ne_nil _ _
      · intro d hd
        exact List.mem_takeWhile_imp hd
      · intro d hd
        have hnot := List.head?_dropWhile_not joinsNext (c :: behind)
        rw [Option.mem_def.mp hd] at hnot
        simpa using hnot
    · exact ⟨.other c, behind, ⟨Bool.eq_false_iff.mpr hjoins, hquote⟩, rfl⟩

end Lexeme

/-- Every expression can be cut into lexemes. The induction is on its length, as a lexeme is more than one
character. -/
theorem exists_isLexing (expression : Text) : ∃ lexemes, IsLexing expression lexemes := by
  induction hn : expression.length using Nat.strong_induction_on generalizing expression with
  | _ n ih =>
    cases expression with
    | nil => exact ⟨[], .nil, rfl⟩
    | cons c rest =>
      obtain ⟨lexeme, rest', hfits, hsplit⟩ := exists_fits c rest
      have hlt : rest'.length < n := by
        obtain ⟨d, tail, htext, -⟩ := hfits.exists_begins
        have hlength := congrArg List.length hsplit
        rw [htext, List.length_append, List.length_cons (a := d)] at hlength
        omega
      obtain ⟨lexemes, hchained, rfl⟩ := ih rest'.length hlt rest' rfl
      exact ⟨lexeme :: lexemes, .cons hfits hchained, hsplit.symm⟩

theorem IsLexing.unique {expression : Text} {lexemes lexemes' : List Lexeme}
    (h : IsLexing expression lexemes) (h' : IsLexing expression lexemes') : lexemes = lexemes' :=
  h.chained.unique h'.chained (h.join_eq.trans h'.join_eq.symm)

/-! ## Boundaries -/

namespace Lexeme

open Renaming

/-- Behind a closed literal an identifier may begin. -/
theorem joinsAfter_literal (joined : Bool) (body : Text) :
    joinsAfter joined (Lexeme.literal body true).text = false := by
  rw [text, if_pos rfl, ← List.cons_append, joinsAfter_append]
  rfl

/-- Where one lexeme ends, an identifier may begin, or the next lexeme is none. -/
theorem joinsAfter_of_fits {lexeme : Lexeme} {rest : Text} (h : lexeme.Fits rest) (joined : Bool) :
    joinsAfter joined lexeme.text = false ∨ ∀ c ∈ rest.head?, joinsNext c = false := by
  cases lexeme with
  | literal body closed =>
    cases closed with
    | true => exact .inl (joinsAfter_literal joined body)
    | false =>
      obtain ⟨-, rfl⟩ := h
      exact .inr fun c hc => by cases hc
  | chain run => exact .inr h.2.2
  | other c => exact .inl h.1

theorem endsQuoted_literalBody {body : Text} (h : IsLiteralBody body) : endsQuoted body = false := by
  induction h with
  | nil => rfl
  | char hc _ ih => rw [endsQuoted_cons, ih, beq_false_of_ne hc, Bool.xor_false]
  | quote _ ih => rw [endsQuoted_cons, endsQuoted_cons, ih, beq_self_eq_true, Bool.xor_assoc, Bool.xor_self,
      Bool.xor_false]

/-- Only an open literal does not end inside of itself. -/
theorem endsQuoted_text_iff {lexeme : Lexeme} {rest : Text} (h : lexeme.Fits rest) :
    endsQuoted lexeme.text = true ↔ ∃ body, lexeme = .literal body false := by
  cases lexeme with
  | literal body closed =>
    have hbody := endsQuoted_literalBody (endsLiteral_of_fits h).1
    rw [text, endsQuoted_cons, endsQuoted_append, hbody]
    cases closed with
    | true => exact iff_of_false (by decide) (by simp)
    | false => exact iff_of_true rfl ⟨body, rfl⟩
  | chain run =>
    have hquote : endsQuoted run = false := endsQuoted_eq_false fun hmem => ne_quote_of_joinsNext (h.2.1 '\'' hmem) rfl
    exact iff_of_false (by rw [text, hquote]; decide) (by simp)
  | other c =>
    have hquote : endsQuoted [c] = false := by rw [endsQuoted_singleton, beq_false_of_ne h.2]
    exact iff_of_false (by rw [text, hquote]; decide) (by simp)

/-- A lexeme that something comes after ends the literal that it is. -/
theorem endsQuoted_text {lexeme : Lexeme} {rest : Text} (h : lexeme.Fits rest) (hrest : rest ≠ []) :
    endsQuoted lexeme.text = false := by
  rw [Bool.eq_false_iff, ne_eq, endsQuoted_text_iff h]
  rintro ⟨body, rfl⟩
  exact hrest h.2

/-- A text ends inside of a literal exactly if one of its literals is open. -/
theorem endsQuoted_join_iff {lexemes : List Lexeme} (h : Chained lexemes) :
    endsQuoted (join lexemes) = true ↔ ∃ body, .literal body false ∈ lexemes := by
  induction h with
  | nil => exact iff_of_false (by decide) (by simp)
  | @cons lexeme rest hfits hrest ih =>
    rw [join_cons, endsQuoted_append]
    cases htext : endsQuoted lexeme.text with
    | true =>
      obtain ⟨body, rfl⟩ := (endsQuoted_text_iff hfits).mp htext
      rw [show join rest = [] from hfits.2]
      exact iff_of_true rfl ⟨body, List.mem_cons_self⟩
    | false =>
      rw [Bool.false_xor, ih]
      refine exists_congr fun body => ⟨List.mem_cons_of_mem _, fun hmem => ?_⟩
      refine (List.mem_cons.mp hmem).resolve_left fun heq => ?_
      rw [(endsQuoted_text_iff hfits).mpr ⟨body, heq.symm⟩] at htext
      cases htext

/-- What stands before a chain ends where an identifier may begin, outside of literals. -/
theorem frames_before_chain {front back : List Lexeme} {run : Text}
    (h : Chained (front ++ .chain run :: back)) {joined : Bool}
    (hjoined : joined = false ∨ ∀ c ∈ (join (front ++ .chain run :: back)).head?, joinsNext c = false) :
    joinsAfter joined (join front) = false ∧ endsQuoted (join front) = false := by
  induction front generalizing joined with
  | nil =>
    obtain ⟨hfits, -⟩ := chained_cons_iff.mp h
    obtain ⟨c, tail, htext, hc⟩ := hfits.exists_begins
    have hjoins : joinsNext c = true := hc
    refine ⟨hjoined.resolve_right fun hnot => ?_, rfl⟩
    rw [List.nil_append, join_cons, htext] at hnot
    rw [hnot c rfl] at hjoins
    cases hjoins
  | cons lexeme front ih =>
    obtain ⟨hfits, hrest⟩ := chained_cons_iff.mp h
    have hne : join (front ++ .chain run :: back) ≠ [] := by
      obtain ⟨hchain, -⟩ := chained_cons_iff.mp hrest.of_append
      obtain ⟨c, tail, htext, -⟩ := hchain.exists_begins
      rw [join_append, join_cons, htext]
      simp
    obtain ⟨hafter, hquoted⟩ := ih hrest (joinsAfter_of_fits hfits joined)
    rw [join_cons, joinsAfter_append, endsQuoted_append, endsQuoted_text hfits hne, Bool.false_xor]
    exact ⟨hafter, hquoted⟩

end Lexeme

end CachedWorkflow
