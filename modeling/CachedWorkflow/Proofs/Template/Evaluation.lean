import CachedWorkflow.Proofs.Template.Rendering

/-!
# Proofs: the value of an expression that is made from a template

What an expression stands for is told by reading it: a string literal up to the quote that ends it
(`literal?`), and a format with the values of its arguments put into its holes (`formatted?`). The
expression that is made from the fragments of a template evaluates to the template with its placeholders
filled (`evaluated?_render`, `toExpression_evaluates`).
-/

namespace CachedWorkflow.Template

/-! ## Reading expressions -/

/-- The text of a string literal and what comes after it, read from behind the quote that begins it. A
doubled quote is a quote of the text. -/
def literal? : Text → Option (Text × Text)
  | [] => none
  | '\'' :: '\'' :: rest => (literal? rest).map fun (text, after) => ('\'' :: text, after)
  | '\'' :: rest => some ([], rest)
  | c :: rest => (literal? rest).map fun (text, after) => (c :: text, after)

/-- The number that the digits of a hole are, if they are digits and there are some. -/
def holeNumber? (digits : Text) : Option Nat :=
  if digits.isEmpty || !digits.all Char.isDigit then none else some (Nat.ofDigitChars 10 digits 0)

/-- The text that a format gives, read from left to right. A doubled brace is a brace, and a number in
braces is the value with this number. Inside of such a hole `hole` has the characters that have been read. -/
def formatted? (values : List Text) : (hole : Option Text) → Text → Option Text
  | none, [] => some []
  | none, '{' :: '{' :: rest => (formatted? values none rest).map ('{' :: ·)
  | none, '}' :: '}' :: rest => (formatted? values none rest).map ('}' :: ·)
  | none, '{' :: rest => formatted? values (some []) rest
  | none, '}' :: _ => none
  | none, c :: rest => (formatted? values none rest).map (c :: ·)
  | some _, [] => none
  | some digits, '}' :: rest => do
    let index ← holeNumber? digits
    let value ← values[index]?
    (formatted? values none rest).map (value ++ ·)
  | some digits, c :: rest => formatted? values (some (digits ++ [c])) rest

/-- The text that a string literal stands for, or a call of `format` with these arguments, if they have
these values. -/
def evaluated? (arguments values : List Text) : Text → Option Text
  | '\'' :: rest =>
    (literal? rest).bind fun (text, after) => if after.isEmpty then some text else none
  | expression => do
    let rest ← Text.after? "format('" expression
    let (pattern, after) ← literal? rest
    if after = "," ++ List.intercalate "," arguments ++ ")" then formatted? values none pattern else none

/-- The fragments put together, with a value in the place of each placeholder. -/
def fill : List Token → List Text → Text
  | [], _ => []
  | .literal text :: rest, values => text ++ fill rest values
  | .expression _ :: rest, value :: values => value ++ fill rest values
  | .expression source :: rest, [] => tokenText (.expression source) ++ fill rest []

/-! ## Literals -/

theorem replacing_append (c : Char) (new p q : Text) :
    Text.replacing c new (p ++ q) = Text.replacing c new p ++ Text.replacing c new q :=
  List.flatMap_append

theorem replacing_eq_self {c : Char} {new text : Text} (h : c ∉ text) : Text.replacing c new text = text := by
  induction text with
  | nil => rfl
  | cons d rest ih =>
    rw [List.mem_cons, not_or] at h
    have hrest : List.flatMap (fun d => if d = c then new else [d]) rest = rest := ih h.2
    rw [Text.replacing, List.flatMap_cons, if_neg (Ne.symm h.1), hrest]
    rfl

theorem literal?_cons {c : Char} (hc : c ≠ '\'') (rest : Text) :
    literal? (c :: rest) = (literal? rest).map fun (text, after) => (c :: text, after) := by
  rw [literal?]
  · rintro _ rfl
    exact absurd rfl hc
  · rintro rfl
    exact absurd rfl hc

/-- A literal ends at a quote that is not doubled. -/
theorem literal?_closing {rest : Text} (h : rest.head? ≠ some '\'') :
    literal? ('\'' :: rest) = some ([], rest) := by
  cases rest with
  | nil => rfl
  | cons c rest =>
    rw [literal?]
    rintro _ hrest
    cases hrest
    exact h rfl

/-- A text whose quotes are doubled is read as it was. -/
theorem literal?_replacing (text : Text) {rest : Text} (h : rest.head? ≠ some '\'') :
    literal? (Text.replacing '\'' "''" text ++ '\'' :: rest) = some (text, rest) := by
  induction text with
  | nil => exact literal?_closing h
  | cons c text ih =>
    have ih' : literal? (List.flatMap (fun d => if d = '\'' then "''" else [d]) text ++ '\'' :: rest)
        = some (text, rest) := ih
    rw [Text.replacing, List.flatMap_cons, List.append_assoc]
    by_cases hc : c = '\''
    · rw [if_pos hc, hc]
      show literal? ('\'' :: '\'' :: (_ ++ '\'' :: rest)) = _
      rw [literal?, ih']
      rfl
    · rw [if_neg hc, List.singleton_append, literal?_cons hc, ih']
      rfl

/-! ## Formats -/

/-- A character of literal text in a format: braces are doubled. -/
def patternChar (c : Char) : Text :=
  if c = '{' then "\x7b\x7b" else if c = '}' then "\x7d\x7d" else [c]

/-- The format of fragments: literal text with doubled braces, and holes numbered from `index` on. -/
def pattern : (index : Nat) → List Token → Text
  | _, [] => []
  | index, .literal text :: rest => text.flatMap patternChar ++ pattern index rest
  | index, .expression _ :: rest => '{' :: (Text.ofNat index ++ '}' :: pattern (index + 1) rest)

theorem formatChar_eq (c : Char) : formatChar c = Text.replacing '\'' "''" (patternChar c) := by
  unfold formatChar patternChar
  by_cases hquote : c = '\''
  · rw [if_pos hquote, hquote]
    rfl
  · rw [if_neg hquote]
    split
    · rfl
    · split
      · rfl
      · rw [replacing_eq_self]
        simpa using Ne.symm hquote

/-- The first argument of `format` is the format as a string literal. -/
theorem formatText_eq (index : Nat) (tokens : List Token) :
    formatText index tokens = Text.replacing '\'' "''" (pattern index tokens) := by
  induction tokens generalizing index with
  | nil => rfl
  | cons token rest ih =>
    cases token with
    | literal text =>
      have htext : text.flatMap formatChar = Text.replacing '\'' "''" (text.flatMap patternChar) := by
        rw [Text.replacing, List.flatMap_assoc]
        exact congrArg (List.flatMap · text) (funext formatChar_eq)
      rw [formatText, pattern, replacing_append, ih, htext]
    | expression source =>
      have hhole : Text.replacing '\'' "''" ('{' :: (Text.ofNat index ++ ['}']))
          = '{' :: (Text.ofNat index ++ ['}']) := by
        refine replacing_eq_self fun hmem => ?_
        simp only [List.mem_cons, List.mem_append, List.not_mem_nil, or_false] at hmem
        rcases hmem with h | h | h
        · exact absurd h (by decide)
        · exact absurd (isDigit_of_mem_ofNat h) (by decide)
        · exact absurd h (by decide)
      have hsplit : pattern index (.expression source :: rest)
          = '{' :: (Text.ofNat index ++ ['}']) ++ pattern (index + 1) rest := by
        rw [pattern]
        simp
      rw [formatText, hsplit, replacing_append, hhole, ih]
      simp

section

variable (values : List Text)

theorem formatted?_char {c : Char} (hopen : c ≠ '{') (hclose : c ≠ '}') (rest : Text) :
    formatted? values none (c :: rest) = (formatted? values none rest).map (c :: ·) := by
  rw [formatted?]
  all_goals intros
  all_goals simp_all

/-- Literal text is given as it was. -/
theorem formatted?_text (text rest : Text) :
    formatted? values none (text.flatMap patternChar ++ rest)
      = (formatted? values none rest).map (text ++ ·) := by
  induction text with
  | nil => simp
  | cons c text ih =>
    rw [List.flatMap_cons, List.append_assoc]
    by_cases hopen : c = '{'
    · subst hopen
      show formatted? values none ('{' :: '{' :: (text.flatMap patternChar ++ rest)) = _
      rw [formatted?, ih, Option.map_map]
      rfl
    · by_cases hclose : c = '}'
      · subst hclose
        show formatted? values none ('}' :: '}' :: (text.flatMap patternChar ++ rest)) = _
        rw [formatted?, ih, Option.map_map]
        rfl
      · rw [patternChar, if_neg hopen, if_neg hclose, List.singleton_append,
          formatted?_char values hopen hclose, ih, Option.map_map]
        rfl

theorem formatted?_digits {digits : Text} (h : ∀ c ∈ digits, c ≠ '}') (before rest : Text) :
    formatted? values (some before) (digits ++ '}' :: rest)
      = formatted? values (some (before ++ digits)) ('}' :: rest) := by
  induction digits generalizing before with
  | nil => rw [List.nil_append, List.append_nil]
  | cons c digits ih =>
    obtain ⟨hc, hdigits⟩ := List.forall_mem_cons.mp h
    have hdigit : formatted? values (some before) (c :: (digits ++ '}' :: rest))
        = formatted? values (some (before ++ [c])) (digits ++ '}' :: rest) := by
      rw [formatted?]
      rintro rfl
      exact absurd rfl hc
    rw [List.cons_append, hdigit, ih hdigits, List.append_assoc, List.singleton_append]

theorem holeNumber?_ofNat (n : Nat) : holeNumber? (Text.ofNat n) = some n := by
  have hne : Text.ofNat n ≠ [] := Nat.toDigits_ne_nil
  have hdigits : (Text.ofNat n).all Char.isDigit = true := List.all_eq_true.mpr fun c => isDigit_of_mem_ofNat
  rw [holeNumber?, if_neg (by simp [hne, hdigits]), Text.ofNat, Nat.ofDigitChars_ten_toDigits]

/-- A hole is filled with the value that has its number. -/
theorem formatted?_hole (index : Nat) (rest : Text) :
    formatted? values none ('{' :: (Text.ofNat index ++ '}' :: rest))
      = values[index]?.bind fun value => (formatted? values none rest).map (value ++ ·) := by
  have hbrace : ∀ c ∈ Text.ofNat index, c ≠ '{' ∧ c ≠ '}' := by
    intro c hc
    have hdigit := isDigit_of_mem_ofNat hc
    constructor <;> (rintro rfl; exact absurd hdigit (by decide))
  have hopen : formatted? values none ('{' :: (Text.ofNat index ++ '}' :: rest))
      = formatted? values (some []) (Text.ofNat index ++ '}' :: rest) := by
    cases hdigits : Text.ofNat index with
    | nil => exact absurd hdigits Nat.toDigits_ne_nil
    | cons c digits =>
      rw [hdigits] at hbrace
      rw [List.cons_append, formatted?]
      rintro _ hrest
      cases hrest
      exact (hbrace '{' List.mem_cons_self).1 rfl
  rw [hopen, formatted?_digits values fun c hc => (hbrace c hc).2, List.nil_append, formatted?,
    holeNumber?_ofNat]
  rfl

/-- A format gives its fragments with the values in the place of the placeholders. -/
theorem formatted?_pattern {tokens : List Token} {index : Nat}
    (h : index + (expressions tokens).length = values.length) :
    formatted? values none (pattern index tokens) = some (fill tokens (values.drop index)) := by
  induction tokens generalizing index with
  | nil => rfl
  | cons token rest ih =>
    cases token with
    | literal text =>
      rw [pattern, formatted?_text, ih h]
      rfl
    | expression source =>
      have hlength : (expressions (.expression source :: rest)).length = (expressions rest).length + 1 := rfl
      rw [hlength] at h
      have hindex : index < values.length := by omega
      rw [pattern, formatted?_hole, ih (by omega), List.getElem?_eq_getElem hindex,
        List.drop_eq_getElem_cons hindex]
      rfl

end

/-! ## Expressions of templates -/

theorem render_of_ne {tokens : List Token} (h : expressions tokens ≠ []) : render tokens
    = "format('" ++ formatText 0 tokens ++ "'," ++ List.intercalate "," (expressions tokens) ++ ")" := by
  unfold render
  split
  · exact absurd rfl h
  · exact absurd rfl h
  · rfl

/-- Fragments without expressions are one literal. -/
theorem IsTemplate.eq_literal {tokens : List Token} (h : IsTemplate tokens) (hnone : expressions tokens = []) :
    tokens = [.literal (embed tokens)] := by
  cases h with
  | @last text _ => simp [embed, tokenText]
  | cons _ _ _ => cases hnone

/-- The format in a call is read up to the quote before the arguments. -/
theorem literal?_formatText (tokens : List Token) (arguments : Text) :
    literal? (formatText 0 tokens ++ "'," ++ arguments ++ ")")
      = some (pattern 0 tokens, "," ++ arguments ++ ")") := by
  have hsplit : formatText 0 tokens ++ "'," ++ arguments ++ ")"
      = Text.replacing '\'' "''" (pattern 0 tokens) ++ '\'' :: ("," ++ arguments ++ ")") := by
    rw [formatText_eq]
    simp
  rw [hsplit, literal?_replacing _ (by simp)]

theorem evaluated?_call (arguments values : List Text) (rest : Text) :
    evaluated? arguments values ("format('" ++ rest) = (literal? rest).bind fun (format, after) =>
      if after = "," ++ List.intercalate "," arguments ++ ")" then formatted? values none format else none := by
  rw [evaluated?, Text.after?_eq_some.mpr rfl]
  · rfl
  · rintro _ h
    cases h

/-- The expression that is made from fragments has the value of the fragments, filled with the values of its
arguments. -/
theorem evaluated?_render {tokens : List Token} (h : IsTemplate tokens) {values : List Text}
    (hlength : values.length = (expressions tokens).length) :
    evaluated? (expressions tokens) values (render tokens) = some (fill tokens values) := by
  by_cases hnone : expressions tokens = []
  · have hvalues : values = [] := List.eq_nil_of_length_eq_zero (by rw [hlength, hnone]; rfl)
    rw [h.eq_literal hnone, hvalues]
    show ((literal? (Text.replacing '\'' "''" (embed tokens) ++ ['\''])).bind _) = _
    rw [literal?_replacing _ (by decide)]
    simp [fill]
  · have hcall : render tokens = "format('" ++ (formatText 0 tokens ++ "',"
        ++ List.intercalate "," (expressions tokens) ++ ")") := by
      rw [render_of_ne hnone]
      simp only [List.append_assoc]
    rw [hcall, evaluated?_call, literal?_formatText, Option.bind_some]
    dsimp only
    rw [if_pos rfl, formatted?_pattern values (by rw [hlength, Nat.zero_add]), List.drop_zero]

/-- The expression of a template has the value of the template. A single placeholder has that of the
expression inside, without blanks around it. A text without placeholders turns into a string literal that is
read as this text. Any other template turns into a call of `format` with the expressions as they are: the
first argument is a string literal that ends before them, and for all values of the expressions it gives
the template with the values in the place of the placeholders. -/
theorem toExpression_evaluates {template : Text} {tokens : List Token} (hscan : scan template = .ok tokens) :
    (∀ source, tokens = [.literal [], .expression source, .literal []] →
      toExpression template = .ok (source.trimmed isWhiteSpace)) ∧
    (expressions tokens = [] → ∃ body, toExpression template = .ok ("'" ++ body ++ "'") ∧
      literal? (body ++ "'") = some (template, [])) ∧
    ((∀ source, tokens ≠ [.literal [], .expression source, .literal []]) → expressions tokens ≠ [] →
      ∃ body format : Text,
        toExpression template
          = .ok ("format('" ++ body ++ "'," ++ List.intercalate "," (expressions tokens) ++ ")") ∧
        literal? (body ++ "'," ++ List.intercalate "," (expressions tokens) ++ ")")
          = some (format, "," ++ List.intercalate "," (expressions tokens) ++ ")") ∧
        ∀ values : List Text, values.length = (expressions tokens).length →
          formatted? values none format = some (fill tokens values)) := by
  obtain ⟨htemplate, hembed⟩ := scan_eq_ok_iff.mp hscan
  refine ⟨?_, fun hnone => ?_, fun hne hsome => ?_⟩
  · rintro source rfl
    exact toExpression_of_placeholder hscan
  · have htokens : tokens = [.literal template] := hembed ▸ htemplate.eq_literal hnone
    have hne : ∀ source, tokens ≠ [.literal [], .expression source, .literal []] := by
      rintro source rfl
      cases hnone
    refine ⟨Text.replacing '\'' "''" template, ?_, literal?_replacing _ (by decide)⟩
    rw [toExpression_of_ne hscan hne, htokens]
    rfl
  · refine ⟨formatText 0 tokens, pattern 0 tokens, ?_, literal?_formatText _ _, fun values hlength => ?_⟩
    · rw [toExpression_of_ne hscan hne, render_of_ne hsome]
    · rw [formatted?_pattern values (by rw [hlength, Nat.zero_add]), List.drop_zero]

/-- A template with quotes, and with text that looks like a hole next to its placeholders. -/
def awkwardTemplate : Text := "it's \x7b0\x7d\x7b$\x7b\x7b a.b \x7d\x7d\x7d$\x7b\x7bc\x7d\x7d'"

/-- Its expression gives all of this back. -/
theorem toExpression_evaluates_awkwardTemplate : ∃ body format arguments : Text, arguments = " a.b ,c" ∧
    toExpression awkwardTemplate = .ok ("format('" ++ body ++ "'," ++ arguments ++ ")") ∧
    literal? (body ++ "'," ++ arguments ++ ")") = some (format, "," ++ arguments ++ ")") ∧
    formatted? ["'1'", "\x7b1\x7d"] none format = some "it's \x7b0\x7d\x7b'1'\x7d\x7b1\x7d'" := by
  have hscan : scan awkwardTemplate = .ok [.literal "it's \x7b0\x7d\x7b", .expression " a.b ", .literal "\x7d",
    .expression "c", .literal "'"] := by decide
  obtain ⟨-, -, hformat⟩ := toExpression_evaluates hscan
  obtain ⟨body, format, hexpression, hliteral, hvalues⟩ := hformat (fun source h => by cases h) (by decide)
  have hfilled := hvalues ["'1'", "\x7b1\x7d"] rfl
  exact ⟨body, format, _, rfl, hexpression, hliteral, hfilled⟩

end CachedWorkflow.Template
