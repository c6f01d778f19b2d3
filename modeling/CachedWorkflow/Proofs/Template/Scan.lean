import CachedWorkflow.Proofs.Outcome
import CachedWorkflow.Template.Format
import Mathlib.Data.List.TakeWhile

/-!
# Proofs: scanning templates

The fragments of a template put together give the template (`embed_scan`). A text without an opening
is one literal, and a template is a single placeholder exactly if its fragments are an expression
between two empty literals.
-/

namespace CachedWorkflow

namespace Text

/-- Trimming takes blanks from both ends. -/
theorem exists_eq_trimmed (blank : Char → Bool) (text : Text) :
    ∃ before after, (∀ c ∈ before, blank c = true) ∧ (∀ c ∈ after, blank c = true) ∧
      text = before ++ text.trimmed blank ++ after := by
  refine ⟨text.takeWhile blank, ((text.dropWhile blank).reverse.takeWhile blank).reverse,
    fun c hc => List.mem_takeWhile_imp hc,
    fun c hc => List.mem_takeWhile_imp (List.mem_reverse.mp hc), ?_⟩
  rw [trimmed, List.append_assoc, ← List.reverse_append, List.takeWhile_append_dropWhile,
    List.reverse_reverse, List.takeWhile_append_dropWhile]

theorem dropWhile_eq_self {blank : Char → Bool} {text : Text} (h : ∀ c ∈ text.head?, blank c = false) :
    text.dropWhile blank = text := by
  cases text with
  | nil => rfl
  | cons c rest =>
    have hc : blank c = false := h c rfl
    rw [List.dropWhile_cons_of_neg (by simp [hc])]

/-- A text that neither begins nor ends with a blank is not trimmed. -/
theorem trimmed_eq_self {blank : Char → Bool} {text : Text} (hhead : ∀ c ∈ text.head?, blank c = false)
    (hlast : ∀ c ∈ text.getLast?, blank c = false) : text.trimmed blank = text := by
  rw [← List.head?_reverse] at hlast
  rw [trimmed, dropWhile_eq_self hhead, dropWhile_eq_self hlast, List.reverse_reverse]

/-- More blanks around a text are trimmed as well. -/
theorem trimmed_padded {blank : Char → Bool} {before after : Text} (text : Text)
    (hbefore : ∀ c ∈ before, blank c = true) (hafter : ∀ c ∈ after, blank c = true) :
    (before ++ text ++ after).trimmed blank = text.trimmed blank := by
  rw [trimmed, trimmed, List.append_assoc, List.dropWhile_append_of_pos hbefore, List.dropWhile_append]
  cases htext : text.dropWhile blank with
  | nil =>
    have hall : after.dropWhile blank = [] := List.dropWhile_eq_nil_iff.mpr hafter
    rw [List.isEmpty_nil, if_pos rfl, hall]
  | cons c rest =>
    have hreverse : ∀ d ∈ after.reverse, blank d = true := fun d hd => hafter d (List.mem_reverse.mp hd)
    rw [List.isEmpty_cons, if_neg Bool.false_ne_true, List.reverse_append,
      List.dropWhile_append_of_pos hreverse]

/-- Blanks around a text that neither begins nor ends with one are trimmed. -/
theorem trimmed_append {blank : Char → Bool} {before text after : Text}
    (hbefore : ∀ c ∈ before, blank c = true) (hafter : ∀ c ∈ after, blank c = true)
    (htext : ∀ c ∈ text, blank c = false) : (before ++ text ++ after).trimmed blank = text := by
  have hself : text.trimmed blank = text := trimmed_eq_self
    (fun c hc => htext c (List.mem_of_mem_head? hc)) fun c hc => htext c (List.mem_of_mem_getLast? hc)
  rw [trimmed_padded text hbefore hafter, hself]

theorem trimmed_trimmed (blank : Char → Bool) (text : Text) :
    (text.trimmed blank).trimmed blank = text.trimmed blank := by
  obtain ⟨before, after, hbefore, hafter, heq⟩ := exists_eq_trimmed blank text
  have hpadded := trimmed_padded (text.trimmed blank) hbefore hafter
  rw [← heq] at hpadded
  exact hpadded.symm

/-- A trimmed text does not end with a blank. -/
theorem getLast?_trimmed {blank : Char → Bool} {text : Text} :
    ∀ c ∈ (text.trimmed blank).getLast?, blank c = false := by
  intro c hc
  have hnot := List.head?_dropWhile_not blank (text.dropWhile blank).reverse
  rw [trimmed, List.getLast?_reverse] at hc
  rw [Option.mem_def.mp hc] at hnot
  simpa using hnot

/-- What is left after a lead is what stands behind it. -/
theorem after?_eq_some {lead text rest : Text} :
    Text.after? lead text = some rest ↔ text = lead ++ rest := by
  induction lead generalizing text with
  | nil => simp [after?, eq_comm]
  | cons a lead ih =>
    cases text with
    | nil => simp [after?]
    | cons c text =>
      rw [after?]
      split
      · next h => rw [ih, h, List.cons_append, List.cons.injEq]; simp
      · next h => simp [Ne.symm h]

end Text

namespace Template

theorem embed_cons (token : Token) (tokens : List Token) :
    embed (token :: tokens) = tokenText token ++ embed tokens :=
  List.flatMap_cons

theorem embed_literal (text : Text) : embed [.literal text] = text := List.append_nil text

theorem embed_literal_expression (text source : Text) (tokens : List Token) :
    embed (.literal text :: .expression source :: tokens)
      = text ++ (tokenText (.expression source) ++ embed tokens) := rfl

/-- What stands between the rest of a fragment and the fragments after it. -/
def Mode.ending : Mode → Text
  | .literal => []
  | .expression _ => closing

theorem eq_of_split {mode : Mode} {text fragment : Text} {tokens : List Token}
    (h : split mode text = some (fragment, tokens)) :
    text = fragment ++ mode.ending ++ embed tokens := by
  fun_induction split mode text generalizing fragment tokens with
  | case1 rest ih =>
    obtain ⟨⟨source, tokens'⟩, hs, h⟩ := Option.map_eq_some_iff.mp h
    cases h
    rw [ih hs]
    simp [Mode.ending, embed, tokenText, opening]
  | case2 c rest _ ih =>
    obtain ⟨⟨text', tokens'⟩, hs, h⟩ := Option.map_eq_some_iff.mp h
    cases h
    rw [ih hs]
    rfl
  | case3 => cases h; rfl
  | case4 rest ih =>
    obtain ⟨⟨text', tokens'⟩, hs, h⟩ := Option.map_eq_some_iff.mp h
    cases h
    rw [ih hs]
    simp [Mode.ending, embed, tokenText, closing]
  | case5 quoted c rest _ ih =>
    obtain ⟨⟨source, tokens'⟩, hs, h⟩ := Option.map_eq_some_iff.mp h
    cases h
    rw [ih hs]
    rfl
  | case6 => cases h

theorem scan_eq_ok {template : Text} {tokens : List Token} :
    scan template = .ok tokens ↔
      ∃ text rest, split .literal template = some (text, rest) ∧ tokens = .literal text :: rest := by
  rw [scan]
  cases h : split .literal template with
  | none => simp
  | some result =>
    obtain ⟨text, rest⟩ := result
    simp [eq_comm]

/-- The fragments of a template, put together, are the template. -/
theorem embed_scan {template : Text} {tokens : List Token} (h : scan template = .ok tokens) :
    embed tokens = template := by
  obtain ⟨text, rest, hsplit, rfl⟩ := scan_eq_ok.mp h
  rw [eq_of_split hsplit]
  simp [embed, tokenText, Mode.ending]

/-- A text without an opening is one literal. -/
theorem scan_of_hasOpening_eq_false {text : Text} (h : hasOpening text = false) :
    scan text = .ok [.literal text] := by
  suffices split .literal text = some (text, []) from scan_eq_ok.mpr ⟨_, _, this, rfl⟩
  induction text with
  | nil => rw [split]
  | cons c rest ih =>
    rw [split]
    · rw [ih, Option.map_some]
      rw [hasOpening] at h
      · exact h
      · rintro r rfl hr
        rw [hr, hasOpening] at h
        cases h
    · rintro r rfl hr
      rw [hr, hasOpening] at h
      cases h

theorem fullExpression?_of_hasOpening_eq_false {text : Text} (h : hasOpening text = false) :
    fullExpression? text = .ok none := by
  rw [fullExpression?]
  split
  · rw [scan_of_hasOpening_eq_false h]
    cases text <;> rfl
  · rfl

/-- A template is a single placeholder exactly if it scans as one. -/
theorem fullExpression?_eq_some {template expression : Text} :
    fullExpression? template = .ok (some expression) ↔
      ∃ source, scan template = .ok [.literal [], .expression source, .literal []] ∧
        source.trimmed isWhiteSpace = expression := by
  rw [fullExpression?]
  constructor
  · intro h
    split at h
    · obtain ⟨tokens, hscan, hmatch⟩ := map_eq_ok.mp h
      split at hmatch
      · next source => exact ⟨source, hscan, Option.some.inj hmatch⟩
      · cases hmatch
    · cases h
  · rintro ⟨source, hscan, rfl⟩
    have hopen : opening.isPrefixOf template = true := by
      rw [← embed_scan hscan]
      rfl
    rw [if_pos hopen, hscan]
    rfl

/-- The expression of a single placeholder is the one inside, without blanks around it. -/
theorem toExpression_of_placeholder {template source : Text}
    (h : scan template = .ok [.literal [], .expression source, .literal []]) :
    toExpression template = .ok (source.trimmed isWhiteSpace) :=
  bind_eq_ok.mpr ⟨_, fullExpression?_eq_some.mpr ⟨source, h, rfl⟩, rfl⟩

/-- The expression of any other template is made from all fragments. -/
theorem toExpression_of_ne {template : Text} {tokens : List Token} (h : scan template = .ok tokens)
    (hne : ∀ source, tokens ≠ [.literal [], .expression source, .literal []]) :
    toExpression template = .ok (render tokens) := by
  have hfull : fullExpression? template = .ok none := by
    rw [fullExpression?, h]
    split
    · refine congrArg Except.ok ?_
      dsimp only
      split
      · next source => exact absurd rfl (hne source)
      · rfl
    · rfl
  rw [toExpression, hfull, h]
  rfl

/-- A placeholder whose expression holds no quote and no closing brace. -/
theorem scan_placeholder {source : Text} (h : ∀ c ∈ source, c ≠ '\'' ∧ c ≠ '}') :
    scan (opening ++ source ++ closing) = .ok [.literal [], .expression source, .literal []] := by
  have hsplit : split (.expression false) (source ++ closing) = some (source, [.literal []]) := by
    induction source with
    | nil => rfl
    | cons c rest ih =>
      obtain ⟨hquote, hbrace⟩ := h c List.mem_cons_self
      rw [List.cons_append, split, if_neg hquote,
        ih fun d hd => h d (List.mem_cons_of_mem _ hd), Option.map_some]
      rintro r _ hc _
      exact hbrace hc
  refine scan_eq_ok.mpr ⟨[], [.expression source, .literal []], ?_, rfl⟩
  show split .literal ('$' :: '{' :: '{' :: (source ++ closing)) = _
  rw [split, hsplit]
  rfl

end Template

end CachedWorkflow
