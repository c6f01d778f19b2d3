import CachedWorkflow.Proofs.Path
import CachedWorkflow.Proofs.Template.Renaming
import Mathlib.Algebra.Group.Nat.Even

/-!
# Proofs: the grammar of templates

A list of fragments is a template (`IsTemplate`) if literals and expressions take turns, no literal has
an opening, and every expression is one that its placeholder encloses (`Encloses`). Scanning finds the
one template that a text is (`scan_eq_ok_iff`). The grammar can also be told by counting quotes
(`IsFragment`), and scanning decides it (`scan_decides`).
-/

namespace CachedWorkflow.Template

open Renaming

/-- A placeholder encloses an expression: its string literals end, and outside of them it has no
closing, not even together with the braces behind it. `quoted` tells whether it begins inside a string
literal. -/
def Encloses : (quoted : Bool) → Text → Prop
  | quoted, [] => quoted = false
  | quoted, c :: rest => (quoted = false → c = '}' → ∃ d ∈ rest.head?, d ≠ '}') ∧
    Encloses (quoted ^^ (c == '\'')) rest

/-- Literals and expressions that take turns, as a template has them. -/
inductive IsTemplate : List Token → Prop where
  | last {text : Text} (htext : hasOpening text = false) : IsTemplate [.literal text]
  | cons {text source : Text} {rest : List Token} (htext : hasOpening text = false)
      (hsource : Encloses false source) (hrest : IsTemplate rest) :
      IsTemplate (.literal text :: .expression source :: rest)

/-! ## Enclosed expressions -/

theorem Encloses.append {p q : Text} {quoted : Bool} (hp : Encloses quoted p)
    (hq : Encloses false q) : Encloses quoted (p ++ q) := by
  induction p generalizing quoted with
  | nil =>
    rw [Encloses] at hp
    exact hp ▸ hq
  | cons c p ih =>
    refine ⟨fun hquoted hbrace => ?_, ih hp.2⟩
    obtain ⟨d, hd, hne⟩ := hp.1 hquoted hbrace
    refine ⟨d, ?_, hne⟩
    cases p with
    | nil => cases hd
    | cons e p => exact hd

/-- Text without quotes and braces changes nothing. -/
theorem encloses_append_iff {p q : Text} (hp : ∀ c ∈ p, c ≠ '\'' ∧ c ≠ '}') {quoted : Bool} :
    Encloses quoted (p ++ q) ↔ Encloses quoted q := by
  induction p with
  | nil => rfl
  | cons c p ih =>
    obtain ⟨hquote, hbrace⟩ := hp c List.mem_cons_self
    have hstate : (quoted ^^ (c == '\'')) = quoted := by
      rw [beq_false_of_ne hquote, Bool.xor_false]
    rw [List.cons_append, Encloses, hstate, ih fun d hd => hp d (List.mem_cons_of_mem _ hd)]
    exact and_iff_right fun _ h => absurd h hbrace

theorem encloses_of_plain {text : Text} (h : ∀ c ∈ text, c ≠ '\'' ∧ c ≠ '}') : Encloses false text := by
  rw [← List.append_nil text, encloses_append_iff h]
  rfl

theorem Encloses.endsQuoted_eq {text : Text} {quoted : Bool} (h : Encloses quoted text) :
    endsQuoted text = quoted := by
  induction text generalizing quoted with
  | nil =>
    rw [Encloses] at h
    rw [h]
    rfl
  | cons c rest ih => rw [endsQuoted_cons, ih h.2, Bool.xor_assoc, Bool.xor_self, Bool.xor_false]

/-- What stands behind a part of an expression is enclosed as well. -/
theorem Encloses.of_append {p q : Text} {quoted : Bool} (h : Encloses quoted (p ++ q)) :
    Encloses (endsQuoted p ^^ quoted) q := by
  induction p generalizing quoted with
  | nil =>
    have hnil : endsQuoted [] = false := rfl
    rwa [hnil, Bool.false_xor]
  | cons c p ih =>
    rw [endsQuoted_cons_xor]
    exact ih h.2

/-- What stands before text without quotes and braces is enclosed as well, unless it ends in a brace. -/
theorem Encloses.of_append_right {p q : Text} (hq : ∀ c ∈ q, c ≠ '\'' ∧ c ≠ '}')
    (hlast : p.getLast? ≠ some '}') {quoted : Bool} (h : Encloses quoted (p ++ q)) :
    Encloses quoted p := by
  induction p generalizing quoted with
  | nil =>
    -- there is nothing that could end the literal
    rw [List.nil_append, ← List.append_nil q, encloses_append_iff hq] at h
    exact h
  | cons c p ih =>
    cases p with
    | nil =>
      refine ⟨fun _ hbrace => absurd (by rw [hbrace]; rfl) hlast, ih (by simp) h.2⟩
    | cons d p =>
      refine ⟨h.1, ih ?_ h.2⟩
      rwa [List.getLast?_cons_cons] at hlast

/-- An expression does not end with a brace, which would be the first one of its closing. -/
theorem Encloses.getLast?_ne {text : Text} {quoted : Bool} (h : Encloses quoted text) :
    text.getLast? ≠ some '}' := by
  induction text generalizing quoted with
  | nil => simp
  | cons c rest ih =>
    cases rest with
    | nil =>
      rw [List.getLast?_singleton, ne_eq, Option.some.injEq]
      rintro rfl
      have hquoted : quoted = false := by simpa [Encloses] using h.2
      obtain ⟨d, hd, -⟩ := h.1 hquoted rfl
      cases hd
    | cons d rest =>
      rw [List.getLast?_cons_cons]
      exact ih h.2

/-- A character that is neither quote nor brace can stand in the place of others that are neither. -/
theorem Encloses.append_char {p q : Text} (hq : ∀ d ∈ q, d ≠ '\'' ∧ d ≠ '}') {c : Char}
    (hc : c ≠ '\'' ∧ c ≠ '}') {quoted : Bool} (h : Encloses quoted (p ++ q)) : Encloses quoted (p ++ [c]) := by
  have hplain : Encloses false [c] := encloses_of_plain (List.forall_mem_singleton.mpr hc)
  induction p generalizing quoted with
  | nil =>
    rw [List.nil_append, ← List.append_nil q, encloses_append_iff hq, Encloses] at h
    rw [h]
    exact hplain
  | cons d p ih =>
    refine ⟨fun hquoted hbrace => ?_, ih h.2⟩
    cases p with
    | nil => exact ⟨c, rfl, hc.2⟩
    | cons e p => exact h.1 hquoted hbrace

/-! ## Scanning -/

theorem hasOpening_cons {c : Char} {rest : Text} :
    hasOpening (c :: rest) = false ↔ ¬ opening <+: c :: rest ∧ hasOpening rest = false := by
  have hiff : hasOpening (c :: rest) = true ↔ opening <+: c :: rest ∨ hasOpening rest = true := by
    rw [hasOpening_iff, hasOpening_iff, List.infix_cons_iff]
  rw [Bool.eq_false_iff, Bool.eq_false_iff, ne_eq, hiff, not_or]

theorem split_literal_cons {c : Char} {rest : Text} (h : ¬ opening <+: c :: rest) :
    split .literal (c :: rest) = (split .literal rest).map fun (text, tokens) => (c :: text, tokens) := by
  rw [split]
  rintro r rfl rfl
  exact h ⟨r, rfl⟩

/-- What stands behind a text ends no opening that begins in front of it, unless it begins with a brace. -/
theorem not_opening_prefix_append {c : Char} {text rest : Text} (h : ¬ opening <+: c :: text)
    (hrest : rest.head? ≠ some '{') : ¬ opening <+: c :: (text ++ rest) := by
  rintro ⟨after, hafter⟩
  rcases text with _ | ⟨d, _ | ⟨e, text⟩⟩
  · cases hafter
    exact hrest rfl
  · cases hafter
    exact hrest rfl
  · cases hafter
    exact h ⟨text, rfl⟩

/-- A literal is read up to the next opening. -/
theorem split_literal_append {text : Text} (htext : hasOpening text = false) (rest : Text) :
    split .literal (text ++ (opening ++ rest)) = (split (.expression false) rest).map
      fun (source, tokens) => (text, .expression source :: tokens) := by
  induction text with
  | nil => rw [List.nil_append]; exact split.eq_1 rest
  | cons c text ih =>
    obtain ⟨hopen, hrest⟩ := hasOpening_cons.mp htext
    have hno : ¬ opening <+: c :: (text ++ (opening ++ rest)) := not_opening_prefix_append hopen (by simp [opening])
    rw [List.cons_append, split_literal_cons hno, ih hrest, Option.map_map]
    rfl

theorem quoted_step (quoted : Bool) (c : Char) :
    (if c = '\'' then !quoted else quoted) = (quoted ^^ (c == '\'')) := by
  by_cases h : c = '\''
  · rw [if_pos h, h, beq_self_eq_true, Bool.xor_true]
  · rw [if_neg h, beq_false_of_ne h, Bool.xor_false]

/-- An expression is read up to the closing behind it. -/
theorem split_expression_append {source : Text} {quoted : Bool} (hsource : Encloses quoted source)
    (rest : Text) : split (.expression quoted) (source ++ (closing ++ rest))
      = (split .literal rest).map fun (text, tokens) => (source, .literal text :: tokens) := by
  induction source generalizing quoted with
  | nil =>
    rw [Encloses] at hsource
    rw [hsource, List.nil_append]
    exact split.eq_4 rest
  | cons c source ih =>
    obtain ⟨hbrace, htail⟩ := hsource
    rw [List.cons_append, split]
    · rw [quoted_step, ih htail, Option.map_map]
      rfl
    · rintro r rfl hc hr
      obtain ⟨d, hd, hne⟩ := hbrace rfl hc
      cases source with
      | nil => cases hd
      | cons e source =>
        cases hd
        cases hr
        exact hne rfl

/-- The rest of a fragment and the fragments after it, as parts of a template. -/
def Mode.IsRest : Mode → Text → List Token → Prop
  | .literal, text, tokens => IsTemplate (.literal text :: tokens)
  | .expression quoted, source, tokens => Encloses quoted source ∧ IsTemplate tokens

/-- What is read as an expression is enclosed, and what is read as a literal has no opening. -/
theorem isRest_of_split {mode : Mode} {text fragment : Text} {tokens : List Token}
    (h : split mode text = some (fragment, tokens)) : mode.IsRest fragment tokens := by
  fun_induction split mode text generalizing fragment tokens with
  | case1 rest ih =>
    obtain ⟨⟨source, tokens'⟩, hs, h⟩ := Option.map_eq_some_iff.mp h
    cases h
    obtain ⟨hsource, htokens⟩ := ih hs
    exact .cons rfl hsource htokens
  | case2 c rest hno ih =>
    obtain ⟨⟨text', tokens'⟩, hs, h⟩ := Option.map_eq_some_iff.mp h
    cases h
    have htext := eq_of_split hs
    have hopen : ¬ opening <+: c :: text' := by
      rintro ⟨r, hr⟩
      cases hr
      exact hno (r ++ embed tokens) rfl (by rw [htext, Mode.ending, List.append_nil]; rfl)
    cases ih hs with
    | last htail => exact .last (hasOpening_cons.mpr ⟨hopen, htail⟩)
    | cons htail hsource hrest => exact .cons (hasOpening_cons.mpr ⟨hopen, htail⟩) hsource hrest
  | case3 =>
    cases h
    exact .last rfl
  | case4 rest ih =>
    obtain ⟨⟨text', tokens'⟩, hs, h⟩ := Option.map_eq_some_iff.mp h
    cases h
    exact ⟨rfl, ih hs⟩
  | case5 quoted c rest hno ih =>
    obtain ⟨⟨source, tokens'⟩, hs, h⟩ := Option.map_eq_some_iff.mp h
    cases h
    have htext := eq_of_split hs
    obtain ⟨hsource, htokens⟩ := ih hs
    rw [quoted_step] at hsource
    refine ⟨⟨fun hquoted hbrace => ?_, hsource⟩, htokens⟩
    cases source with
    | nil => exact absurd (htext.trans rfl) (hno ('}' :: embed tokens) hquoted hbrace)
    | cons d source =>
      refine ⟨d, rfl, ?_⟩
      rintro rfl
      exact hno (source ++ closing ++ embed tokens) hquoted hbrace (by rw [htext]; rfl)
  | case6 => cases h

/-- Fragments are found by scanning exactly if they are a template and, put together, the text. -/
theorem scan_eq_ok_iff {template : Text} {tokens : List Token} :
    scan template = .ok tokens ↔ IsTemplate tokens ∧ embed tokens = template := by
  constructor
  · intro h
    obtain ⟨text, rest, hsplit, rfl⟩ := scan_eq_ok.mp h
    exact ⟨isRest_of_split hsplit, embed_scan h⟩
  · rintro ⟨htokens, rfl⟩
    rw [scan_eq_ok]
    induction htokens with
    | @last text htext =>
      have hsplit := scan_eq_ok.mp (scan_of_hasOpening_eq_false htext)
      simpa [embed, tokenText] using hsplit
    | @cons text source rest htext hsource _ ih =>
      obtain ⟨text', rest', hsplit, rfl⟩ := ih
      refine ⟨text, .expression source :: .literal text' :: rest', ?_, rfl⟩
      have hembed : embed (.literal text :: .expression source :: .literal text' :: rest')
          = text ++ (opening ++ (source ++ (closing ++ embed (.literal text' :: rest')))) := by
        simp [embed, tokenText]
      rw [hembed, split_literal_append htext, split_expression_append hsource, hsplit]
      rfl

theorem IsTemplate.encloses {tokens : List Token} (h : IsTemplate tokens) {source : Text}
    (hsource : .expression source ∈ tokens) : Encloses false source := by
  induction h with
  | last => simp at hsource
  | cons _ henclosed _ ih =>
    rcases List.mem_cons.mp hsource with h | h
    · cases h
    · rcases List.mem_cons.mp h with h | h
      · cases h
        exact henclosed
      · exact ih h

/-! ## The grammar in terms of quotes -/

/-- Whether a fragment may stand in a template, said by its quotes: a literal has no opening; an
expression has an even number of quotes and, with one more brace behind it, no closing after an even
number of quotes. -/
def IsFragment : Token → Prop
  | .literal text => ¬ opening <:+: text
  | .expression source => Even (source.count '\'') ∧
    ∀ before after, source ++ ['}'] = before ++ closing ++ after → ¬ Even (before.count '\'')

/-- Literals and expressions take turns, from a literal to a literal. -/
inductive Alternates : List Token → Prop where
  | last (text : Text) : Alternates [.literal text]
  | cons (text source : Text) {rest : List Token} (hrest : Alternates rest) :
      Alternates (.literal text :: .expression source :: rest)

theorem endsQuoted_iff {text : Text} : endsQuoted text = true ↔ ¬ Even (text.count '\'') := by
  rw [endsQuoted, beq_iff_eq, Nat.not_even_iff]

/-- A closing at the beginning of an expression, or of the brace behind it. -/
theorem closing_prefix_iff {c : Char} {rest : Text} :
    (∃ after, c :: rest ++ ['}'] = closing ++ after) ↔ c = '}' ∧ ∀ d ∈ rest.head?, d = '}' := by
  cases rest with
  | nil => simp [closing]
  | cons d rest => simp [closing]

/-- Outside of its string literals an expression has no closing, not even together with the brace
behind it. -/
theorem encloses_iff {source : Text} {quoted : Bool} :
    Encloses quoted source ↔ endsQuoted source = quoted ∧
      ∀ before after, source ++ ['}'] = before ++ closing ++ after →
        (endsQuoted before ^^ quoted) = true := by
  induction source generalizing quoted with
  | nil =>
    rw [Encloses]
    constructor
    · rintro rfl
      refine ⟨rfl, fun before after hsplit => ?_⟩
      -- one brace is no closing
      have hlength := congrArg List.length hsplit
      simp [closing] at hlength
      omega
    · exact fun h => h.1.symm
  | cons c rest ih =>
    rw [Encloses, ih, endsQuoted_cons]
    constructor
    · rintro ⟨hstart, hend, hrest⟩
      refine ⟨by rw [hend, Bool.xor_assoc, Bool.xor_self, Bool.xor_false], fun before after hsplit => ?_⟩
      cases before with
      | nil =>
        obtain ⟨hc, hhead⟩ := closing_prefix_iff.mp ⟨after, hsplit⟩
        cases quoted with
        | true => rfl
        | false =>
          obtain ⟨d, hd, hne⟩ := hstart rfl hc
          exact absurd (hhead d hd) hne
      | cons b before =>
        obtain ⟨rfl, htail⟩ := List.cons.inj hsplit
        rw [endsQuoted_cons_xor]
        exact hrest before after htail
    · rintro ⟨hend, hsplits⟩
      refine ⟨fun hquoted hc => ?_, ?_, fun before after hsplit => ?_⟩
      · by_contra hnone
        push Not at hnone
        obtain ⟨after, hsplit⟩ := closing_prefix_iff.mpr ⟨hc, hnone⟩
        have hfirst := hsplits [] after hsplit
        rw [hquoted] at hfirst
        cases hfirst
      · rw [← hend, Bool.xor_assoc, Bool.xor_self, Bool.xor_false]
      · rw [← endsQuoted_cons_xor]
        exact hsplits (c :: before) after (by rw [List.cons_append, hsplit]; rfl)

/-- An expression is one that its placeholder encloses. -/
theorem isFragment_expression {source : Text} :
    IsFragment (.expression source) ↔ Encloses false source := by
  rw [encloses_iff, ← Bool.not_eq_true, endsQuoted_iff, not_not, IsFragment]
  simp only [Bool.xor_false, endsQuoted_iff]

theorem isFragment_literal {text : Text} : IsFragment (.literal text) ↔ hasOpening text = false := by
  rw [IsFragment, ← hasOpening_iff, Bool.not_eq_true]

theorem isTemplate_iff {tokens : List Token} :
    IsTemplate tokens ↔ Alternates tokens ∧ ∀ token ∈ tokens, IsFragment token := by
  constructor
  · intro h
    induction h with
    | @last text htext =>
      exact ⟨.last text, List.forall_mem_singleton.mpr (isFragment_literal.mpr htext)⟩
    | @cons text source rest htext hsource _ ih =>
      refine ⟨.cons text source ih.1, ?_⟩
      rw [List.forall_mem_cons, List.forall_mem_cons]
      exact ⟨isFragment_literal.mpr htext, isFragment_expression.mpr hsource, ih.2⟩
  · rintro ⟨halternates, hfragments⟩
    induction halternates with
    | last text => exact .last (isFragment_literal.mp (List.forall_mem_singleton.mp hfragments))
    | cons text source _ ih =>
      rw [List.forall_mem_cons, List.forall_mem_cons] at hfragments
      obtain ⟨htext, hsource, hrest⟩ := hfragments
      exact .cons (isFragment_literal.mp htext) (isFragment_expression.mp hsource) (ih hrest)

/-- A way to read a text as a template: fragments that are its parts, put together. -/
structure IsReading (template : Text) (tokens : List Token) : Prop where
  alternates : Alternates tokens
  fragments : ∀ token ∈ tokens, IsFragment token
  embeds : embed tokens = template

theorem scan_eq_ok_iff_isReading {template : Text} {tokens : List Token} :
    scan template = .ok tokens ↔ IsReading template tokens := by
  rw [scan_eq_ok_iff, isTemplate_iff]
  exact ⟨fun ⟨⟨halternates, hfragments⟩, hembed⟩ => ⟨halternates, hfragments, hembed⟩,
    fun h => ⟨⟨h.alternates, h.fragments⟩, h.embeds⟩⟩

theorem scan_eq_error_iff {template : Text} {e : Error} :
    scan template = .error e ↔ e = .malformedTemplate template ∧ ∀ tokens, scan template ≠ .ok tokens := by
  rw [scan]
  cases split .literal template with
  | none => simp [eq_comm]
  | some result => simp

/-- Scanning decides the grammar: it gives the way to read a text as a template, of which there is never
more than one, and otherwise fails with the text. -/
theorem scan_decides (template : Text) :
    (∀ tokens, scan template = .ok tokens ↔ IsReading template tokens) ∧
    (∀ tokens tokens', IsReading template tokens → IsReading template tokens' → tokens = tokens') ∧
    (scan template = .error (.malformedTemplate template) ↔ ∀ tokens, ¬ IsReading template tokens) := by
  refine ⟨fun tokens => scan_eq_ok_iff_isReading, fun tokens tokens' h h' => ?_, ?_⟩
  · rw [← scan_eq_ok_iff_isReading] at h h'
    exact Except.ok.inj (h.symm.trans h')
  · simp only [scan_eq_error_iff, true_and, ne_eq, scan_eq_ok_iff_isReading]

/-- Braces and doubled quotes inside a string literal belong to the expression. -/
example : scan "$$\x7b\x7b 'it''s \x7d\x7d' \x7d\x7d!" =
    .ok [.literal "$", .expression " 'it''s \x7d\x7d' ", .literal "!"] := by decide

end CachedWorkflow.Template
