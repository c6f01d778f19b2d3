import CachedWorkflow.Proofs.Template.Rendering

/-!
# Proofs: putting expressions back into placeholders

The expression of a template or of a value begins and ends without a blank (`trimmed_toExpression`), and a
blank behind it keeps a placeholder from ending too early (`encloses_append_toExpression`). So the
placeholder of the expression is a template with this one expression, from which it is read again
(`toExpression_embeds`).
-/

namespace CachedWorkflow

open Template Renaming Json

theorem isWhiteSpace_of_isConstantChar {c : Char} (h : isConstantChar c = true) : isWhiteSpace c = false := by
  rw [Bool.eq_false_iff]
  intro hblank
  have hident := isIdentifierChar_of_isWhiteSpace hblank
  by_cases hdot : c = '.'
  · rw [hdot] at hblank
    exact absurd hblank (by decide)
  · have hname : isJobIdChar c = true := by
      simp only [isConstantChar, isJobIdChar, Bool.or_eq_true, beq_iff_eq] at h ⊢
      tauto
    rw [isIdentifierChar_of_isJobIdChar hname] at hident
    cases hident

/-! ## The ends of an expression -/

/-- The text of fragments neither begins nor ends with a blank: it begins with a quote or the name of a
function and ends with a quote or a parenthesis. -/
theorem exists_render_eq (tokens : List Token) : ∃ first middle last,
    render tokens = first :: (middle ++ [last]) ∧ isWhiteSpace first = false ∧ isWhiteSpace last = false := by
  rcases render_eq tokens with ⟨body, -, heq⟩ | ⟨body, -, heq⟩
  · exact ⟨'\'', body, '\'', heq, by decide, by decide⟩
  · refine ⟨'f', "ormat(" ++ '\'' :: (body ++ '\'' :: ',' :: List.intercalate [','] (expressions tokens)), ')',
      ?_, by decide, by decide⟩
    rw [heq]
    simp

theorem trimmed_of_ends {first last : Char} {middle : Text} (hfirst : isWhiteSpace first = false)
    (hlast : isWhiteSpace last = false) :
    Text.trimmed isWhiteSpace (first :: (middle ++ [last])) = first :: (middle ++ [last]) := by
  refine Text.trimmed_eq_self (fun c hc => ?_) fun c hc => ?_
  · cases hc
    exact hfirst
  · rw [← List.cons_append, List.getLast?_append, List.getLast?_singleton, Option.some_or] at hc
    cases hc
    exact hlast

theorem trimmed_render (tokens : List Token) : (render tokens).trimmed isWhiteSpace = render tokens := by
  obtain ⟨first, middle, last, heq, hfirst, hlast⟩ := exists_render_eq tokens
  rw [heq, trimmed_of_ends hfirst hlast]

/-- There are no blanks around the expression of a value. -/
theorem trimmed_toExpression {value : Json} {expression : Text} (h : value.toExpression = .ok expression) :
    expression.trimmed isWhiteSpace = expression := by
  cases isExpression_of_toExpression h with
  | inner => exact Text.trimmed_trimmed isWhiteSpace _
  | rendered => exact trimmed_render _
  | call => exact trimmed_of_ends (by decide) (by decide)
  | constant htext =>
    have hblank : ∀ c ∈ expression, isWhiteSpace c = false :=
      fun c hc => isWhiteSpace_of_isConstantChar (htext c hc)
    exact Text.trimmed_eq_self (fun c hc => hblank c (List.mem_of_mem_head? hc))
      fun c hc => hblank c (List.mem_of_mem_getLast? hc)

/-- With a blank behind it the expression of a value is enclosed, even if it ends with a brace. -/
theorem encloses_append_toExpression {value : Json} {expression : Text}
    (h : value.toExpression = .ok expression) : Encloses false (expression ++ [' ']) := by
  rcases encloses_or_trimmed_of_toExpression h with h | ⟨source, hsource, rfl⟩
  · exact h.append (encloses_of_plain (by decide))
  · obtain ⟨before, after, hbefore, hafter, heq⟩ := Text.exists_eq_trimmed isWhiteSpace source
    rw [heq, List.append_assoc, encloses_append_iff fun c hc => plain_of_isWhiteSpace (hbefore c hc)] at hsource
    exact hsource.append_char (fun c hc => plain_of_isWhiteSpace (hafter c hc)) (by decide)

/-- What the expression of a template or of a value is like: its string literals end, there is no closing
outside of them, and its placeholder is a template with this one expression, from which it is read again. -/
theorem toExpression_embeds {expression : Text}
    (h : (∃ template, Template.toExpression template = .ok expression) ∨
      ∃ value : Json, value.toExpression = .ok expression) :
    Even (expression.count '\'') ∧
    (∀ before after, expression = before ++ closing ++ after → ¬ Even (before.count '\'')) ∧
    scan (placeholder expression)
      = .ok [.literal [], .expression (" " ++ expression ++ " "), .literal []] ∧
    fullExpression? (placeholder expression) = .ok (some expression) ∧
    Template.toExpression (placeholder expression) = .ok expression := by
  -- the expression of a template is that of the template as a value
  obtain ⟨value, hvalue⟩ : ∃ value : Json, value.toExpression = .ok expression := by
    rcases h with ⟨template, h⟩ | h
    · exact ⟨.string template, h⟩
    · exact h
  have hencloses := encloses_append_toExpression hvalue
  have hsource : Encloses false (" " ++ expression ++ " ") := by
    rw [List.append_assoc, encloses_append_iff (by decide)]
    exact hencloses
  have hscan : scan (placeholder expression)
      = .ok [.literal [], .expression (" " ++ expression ++ " "), .literal []] := by
    refine scan_eq_ok_iff.mpr ⟨.cons rfl hsource (.last rfl), ?_⟩
    simp [embed, tokenText, placeholder]
  have htrimmed : Text.trimmed isWhiteSpace (" " ++ expression ++ " ") = expression := by
    rw [Text.trimmed_padded expression (by decide) (by decide), trimmed_toExpression hvalue]
  refine ⟨?_, fun before after hsplit => ?_, hscan, fullExpression?_eq_some.mpr ⟨_, hscan, htrimmed⟩, ?_⟩
  · have heven : ¬ endsQuoted expression = true := by
      rw [endsQuoted_toExpression hvalue]
      exact Bool.false_ne_true
    rwa [endsQuoted_iff, not_not] at heven
  · have hquoted := (encloses_iff.mp hencloses).2 before (after ++ [' ', '}']) (by rw [hsplit]; simp)
    rw [Bool.xor_false] at hquoted
    exact endsQuoted_iff.mp hquoted
  · rw [toExpression_of_placeholder hscan, htrimmed]

/-- A value with a key that looks like a placeholder, and with quotes and braces. -/
def awkwardValue : Json := .object [
  ("$\x7b\x7b 'k' \x7d\x7d", .array [.string "it's $\x7b\x7b f('\x7d\x7d') \x7d\x7d\x7d", .null])]

/-- Its expression can be put into a placeholder. -/
theorem toExpression_embeds_awkwardValue : ∃ expression, awkwardValue.toExpression = .ok expression ∧
    scan (placeholder expression)
      = .ok [.literal [], .expression (" " ++ expression ++ " "), .literal []] ∧
    Template.toExpression (placeholder expression) = .ok expression := by
  have hok : awkwardValue.toExpression.toBool = true := by decide +kernel
  obtain ⟨expression, hexpression⟩ := toBool_eq_true.mp hok
  obtain ⟨-, -, hscan, -, hback⟩ := toExpression_embeds (.inr ⟨awkwardValue, hexpression⟩)
  exact ⟨expression, hexpression, hscan, hback⟩

end CachedWorkflow
