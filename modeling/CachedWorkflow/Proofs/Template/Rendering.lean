import CachedWorkflow.Proofs.Template.Rewiring
import CachedWorkflow.Template.Value

/-!
# Proofs: values as expressions

The expression that stands for a value ends all string literals that it begins
(`endsQuoted_toExpression`), and it may be put into another expression unless it is empty or has a brace
at one of its ends (`isPlaceable_toExpression`). The expression of a template mentions nothing that its
placeholders do not mention (`exists_mentions_of_toExpression`): what it adds are string literals, commas
and calls.
-/

namespace CachedWorkflow.Template

open Renaming

/-- What stands between the quotes of a string literal: each quote in it is doubled. -/
inductive IsLiteralBody : Text → Prop where
  | nil : IsLiteralBody []
  | char {c : Char} {rest : Text} (hc : c ≠ '\'') (hrest : IsLiteralBody rest) :
      IsLiteralBody (c :: rest)
  | quote {rest : Text} (hrest : IsLiteralBody rest) : IsLiteralBody ('\'' :: '\'' :: rest)

theorem IsLiteralBody.append {p q : Text} (hp : IsLiteralBody p) (hq : IsLiteralBody q) :
    IsLiteralBody (p ++ q) := by
  induction hp with
  | nil => exact hq
  | char hc _ ih => exact .char hc ih
  | quote _ ih => exact .quote ih

theorem isLiteralBody_of_forall_ne {text : Text} (h : ∀ c ∈ text, c ≠ '\'') : IsLiteralBody text := by
  induction text with
  | nil => exact .nil
  | cons c rest ih =>
    exact .char (h c List.mem_cons_self) (ih fun d hd => h d (List.mem_cons_of_mem _ hd))

theorem isLiteralBody_flatMap {f : Char → Text} (hf : ∀ c, IsLiteralBody (f c)) (text : Text) :
    IsLiteralBody (text.flatMap f) := by
  induction text with
  | nil => exact .nil
  | cons c rest ih =>
    rw [List.flatMap_cons]
    exact (hf c).append ih

/-- A literal ends at the quote behind its body. -/
theorem IsLiteralBody.encloses_iff {body : Text} (h : IsLiteralBody body) (rest : Text) :
    Encloses true (body ++ '\'' :: rest) ↔ Encloses false rest := by
  induction h with
  | nil => exact ⟨fun h => h.2, fun h => ⟨(fun hquoted => nomatch hquoted), h⟩⟩
  | @char c body hc _ ih =>
    rw [← ih, List.cons_append, Encloses, beq_false_of_ne hc, Bool.xor_false]
    exact and_iff_right fun hquoted => nomatch hquoted
  | @quote body _ ih =>
    rw [← ih, List.cons_append, List.cons_append, Encloses, Encloses]
    refine ⟨fun h => h.2.2, fun h => ⟨(fun hquoted => nomatch hquoted), ?_, h⟩⟩
    intro _ hbrace
    exact absurd hbrace (by decide)

/-- Nothing is mentioned in a literal. -/
theorem IsLiteralBody.mentionsFrom_eq {body : Text} (h : IsLiteralBody body) {identifier : Text}
    (hid : IsReference identifier) (joined : Bool) (rest : Text) :
    mentionsFrom identifier joined true (body ++ '\'' :: rest)
      = mentionsFrom identifier false false rest := by
  have hno : ∀ text, occursAt identifier ('\'' :: text) = false := hid.occursAt_eq_false (by decide)
  induction h generalizing joined with
  | nil =>
    rw [List.nil_append, mentionsFrom, hno, Bool.and_false, Bool.false_or]
    rfl
  | @char c body hc _ ih =>
    rw [List.cons_append, mentionsFrom, beq_false_of_ne hc, Bool.xor_false, ih]
    simp
  | @quote body _ ih =>
    rw [List.cons_append, List.cons_append, mentionsFrom, mentionsFrom, hno, hno]
    simpa using ih (joinsNext '\'')

theorem IsLiteralBody.mentionsFrom_literal {body : Text} (h : IsLiteralBody body) {identifier : Text}
    (hid : IsReference identifier) (rest : Text) :
    mentionsFrom identifier false false ('\'' :: (body ++ '\'' :: rest))
      = mentionsFrom identifier false false rest := by
  rw [mentionsFrom, hid.occursAt_eq_false (by decide), Bool.and_false, Bool.false_or]
  exact h.mentionsFrom_eq hid _ rest

/-! ## The pieces of an expression -/

theorem isLiteralBody_quoted (text : Text) : IsLiteralBody (Text.replacing '\'' "''" text) := by
  refine isLiteralBody_flatMap (fun c => ?_) text
  by_cases h : c = '\''
  · rw [if_pos h]
    exact .quote .nil
  · rw [if_neg h]
    exact .char h .nil

theorem isLiteralBody_formatChar (c : Char) : IsLiteralBody (formatChar c) := by
  unfold formatChar
  split
  · exact .quote .nil
  · next h =>
    refine isLiteralBody_of_forall_ne fun d hd => ?_
    split at hd
    · revert d
      decide
    · split at hd
      · revert d
        decide
      · rwa [List.mem_singleton.mp hd]

theorem isDigit_of_mem_ofNat {n : Nat} {c : Char} (h : c ∈ Text.ofNat n) : c.isDigit = true :=
  Nat.isDigit_of_mem_toDigits (by decide) (by decide) h

theorem isLiteralBody_formatText (index : Nat) (tokens : List Token) :
    IsLiteralBody (formatText index tokens) := by
  induction tokens generalizing index with
  | nil => exact .nil
  | cons token rest ih =>
    cases token with
    | literal text =>
      rw [formatText]
      exact (isLiteralBody_flatMap isLiteralBody_formatChar text).append (ih index)
    | expression source =>
      rw [formatText]
      refine (isLiteralBody_of_forall_ne fun c hc => ?_).append (ih (index + 1))
      rcases List.mem_append.mp hc with hc | hc
      · rcases List.mem_append.mp hc with hc | hc
        · rw [List.mem_singleton.mp hc]
          decide
        · rintro rfl
          exact absurd (isDigit_of_mem_ofNat hc) (by decide)
      · rw [List.mem_singleton.mp hc]
        decide

/-- The fragments of a template turn into a literal, or into a call of `format` with a literal and the
expressions. -/
theorem render_eq (tokens : List Token) :
    (∃ body, IsLiteralBody body ∧ render tokens = '\'' :: (body ++ '\'' :: [])) ∨
      ∃ body, IsLiteralBody body ∧ render tokens = "format(" ++ '\'' :: (body ++
        '\'' :: ',' :: (List.intercalate [','] (expressions tokens) ++ [')'])) := by
  have hquote : ∀ text, ∃ body, IsLiteralBody body ∧ quote text = '\'' :: (body ++ '\'' :: []) :=
    fun text => ⟨_, isLiteralBody_quoted text, rfl⟩
  unfold render
  split
  · exact .inl (hquote [])
  · next text => exact .inl (hquote text)
  · refine .inr ⟨formatText 0 tokens, isLiteralBody_formatText 0 tokens, ?_⟩
    simp

/-! ## Parts of expressions -/

theorem encloses_intercalate {parts : List Text} (h : ∀ part ∈ parts, Encloses false part) :
    Encloses false (List.intercalate [','] parts) := by
  induction parts with
  | nil => rfl
  | cons part rest ih =>
    obtain ⟨hpart, hrest⟩ := List.forall_mem_cons.mp h
    cases rest with
    | nil =>
      rw [List.intercalate_singleton]
      exact hpart
    | cons next rest =>
      rw [List.intercalate_cons_cons]
      exact (hpart.append (encloses_of_plain (by decide))).append (ih hrest)

section

variable {identifier : Text}

theorem exists_mentionsFrom_of_intercalate (hid : IsReference identifier) {parts : List Text}
    (h : ∀ part ∈ parts, Encloses false part)
    (hmentions : mentionsFrom identifier false false (List.intercalate [','] parts) = true) :
    ∃ part ∈ parts, mentionsFrom identifier false false part = true := by
  induction parts with
  | nil => cases hmentions
  | cons part rest ih =>
    obtain ⟨hpart, hrest⟩ := List.forall_mem_cons.mp h
    cases rest with
    | nil =>
      rw [List.intercalate_singleton] at hmentions
      exact ⟨part, List.mem_cons_self, hmentions⟩
    | cons next rest =>
      rw [List.intercalate_cons_cons, List.append_assoc, List.singleton_append,
        mentionsFrom_append_separator hid (by decide) (by decide), hpart.endsQuoted_eq,
        Bool.or_eq_true] at hmentions
      rcases hmentions with hmentions | hmentions
      · exact ⟨part, List.mem_cons_self, hmentions⟩
      · obtain ⟨other, hother, hmentions⟩ := ih hrest hmentions
        exact ⟨other, List.mem_cons_of_mem part hother, hmentions⟩

theorem mentionsFrom_eq_false {c : Char} (hc : c ∈ identifier) {text : Text} (htext : c ∉ text)
    (joined quoted : Bool) : mentionsFrom identifier joined quoted text = false := by
  rw [Bool.eq_false_iff]
  intro h
  obtain ⟨before, after, rfl, -⟩ := (mentionsFrom_iff (List.ne_nil_of_mem hc)).mp h
  exact htext (List.mem_append_left after (List.mem_append_right before hc))

/-- A qualified reference is not the name of a function that is called. -/
theorem mentionsFrom_call (hid : IsReference identifier) (hdot : '.' ∈ identifier) {name : Text}
    (hname : ∀ c ∈ name, c ≠ '.' ∧ c ≠ '\'') (rest : Text) :
    mentionsFrom identifier false false (name ++ '(' :: rest)
      = mentionsFrom identifier false false rest := by
  have hquoted : endsQuoted name = false := endsQuoted_eq_false fun h => (hname _ h).2 rfl
  rw [mentionsFrom_append_separator hid (by decide) (by decide), hquoted,
    mentionsFrom_eq_false hdot fun h => (hname _ h).1 rfl]
  rfl

theorem mentions_of_call (hid : IsReference identifier) (hdot : '.' ∈ identifier) {name argument : Text}
    (hname : ∀ c ∈ name, c ≠ '.' ∧ c ≠ '\'')
    (h : Mentions (name ++ '(' :: (argument ++ [')'])) identifier) : Mentions argument identifier := by
  rw [mentions_iff hid.ne_nil] at h ⊢
  rw [mentionsFrom_call hid hdot hname, mentionsFrom_append_separator hid (by decide) (by decide),
    mentionsFrom, Bool.or_false] at h
  exact h

end

/-! ## Expressions of templates -/

theorem mem_expressions {tokens : List Token} {source : Text} :
    source ∈ expressions tokens ↔ .expression source ∈ tokens := by
  unfold expressions
  rw [List.mem_filterMap]
  constructor
  · rintro ⟨token, htoken, h⟩
    cases token with
    | literal => cases h
    | expression =>
      cases h
      exact htoken
  · intro h
    exact ⟨_, h, rfl⟩

theorem IsTemplate.encloses_render {tokens : List Token} (h : IsTemplate tokens) :
    Encloses false (render tokens) := by
  have hquote : (false ^^ ('\'' == '\'')) = true := rfl
  rcases render_eq tokens with ⟨body, hbody, heq⟩ | ⟨body, hbody, heq⟩
  · rw [heq, Encloses, hquote, hbody.encloses_iff]
    exact ⟨fun _ hbrace => absurd hbrace (by decide), rfl⟩
  · rw [heq, encloses_append_iff (by decide), Encloses, hquote, hbody.encloses_iff]
    refine ⟨fun _ hbrace => absurd hbrace (by decide), ?_⟩
    have hexpressions : ∀ source ∈ expressions tokens, Encloses false source :=
      fun source hsource => h.encloses (mem_expressions.mp hsource)
    have hcomma : Encloses false [','] := encloses_of_plain (by decide)
    exact hcomma.append ((encloses_intercalate hexpressions).append (encloses_of_plain (by decide)))

/-- An expression that is made from the fragments of a template mentions what one of them does. -/
theorem IsTemplate.exists_mentions {tokens : List Token} (h : IsTemplate tokens) {identifier : Text}
    (hid : IsReference identifier) (hdot : '.' ∈ identifier)
    (hmentions : Mentions (render tokens) identifier) :
    ∃ source, .expression source ∈ tokens ∧ Mentions source identifier := by
  rw [mentions_iff hid.ne_nil] at hmentions
  rcases render_eq tokens with ⟨body, hbody, heq⟩ | ⟨body, hbody, heq⟩
  · rw [heq, hbody.mentionsFrom_literal hid] at hmentions
    cases hmentions
  · have hcall : ("format(" : Text) = "format" ++ ['('] := rfl
    have hcomma : ∀ rest, mentionsFrom identifier false false (',' :: rest)
        = mentionsFrom identifier false false rest := by
      intro rest
      exact mentionsFrom_append_separator hid (by decide) (by decide) false false [] rest
    rw [heq, hcall, List.append_assoc, List.singleton_append, mentionsFrom_call hid hdot (by decide),
      hbody.mentionsFrom_literal hid, hcomma, mentionsFrom_append_separator hid (by decide) (by decide),
      mentionsFrom, Bool.or_false] at hmentions
    have hexpressions : ∀ source ∈ expressions tokens, Encloses false source :=
      fun source hsource => h.encloses (mem_expressions.mp hsource)
    obtain ⟨source, hsource, hmentions⟩ :=
      exists_mentionsFrom_of_intercalate hid hexpressions hmentions
    exact ⟨source, mem_expressions.mp hsource, (mentions_iff hid.ne_nil).mpr hmentions⟩

/-- The expression of a template is that of its only placeholder, without the blanks around it, or is
made from all fragments. -/
theorem exists_of_toExpression {template expression : Text} (h : toExpression template = .ok expression) :
    ∃ tokens, scan template = .ok tokens ∧
      ((∃ source, .expression source ∈ tokens ∧ expression = source.trimmed isWhiteSpace) ∨
        expression = render tokens) := by
  obtain ⟨full, hfull, h⟩ := bind_eq_ok.mp h
  cases full with
  | some inner =>
    cases h
    obtain ⟨source, hscan, rfl⟩ := fullExpression?_eq_some.mp hfull
    exact ⟨_, hscan, .inl ⟨source, by simp, rfl⟩⟩
  | none =>
    obtain ⟨tokens, hscan, rfl⟩ := map_eq_ok.mp h
    exact ⟨tokens, hscan, .inr rfl⟩

theorem endsQuoted_trimmed (text : Text) : endsQuoted (text.trimmed isWhiteSpace) = endsQuoted text := by
  obtain ⟨before, after, hbefore, hafter, heq⟩ := Text.exists_eq_trimmed isWhiteSpace text
  have hno : ∀ blanks : Text, (∀ c ∈ blanks, isWhiteSpace c = true) → endsQuoted blanks = false :=
    fun blanks hblanks => endsQuoted_eq_false fun h => ne_quote_of_isWhiteSpace (hblanks _ h) rfl
  conv_rhs => rw [heq]
  rw [endsQuoted_append, endsQuoted_append, hno before hbefore, hno after hafter, Bool.false_xor,
    Bool.xor_false]

theorem plain_of_isWhiteSpace {c : Char} (h : isWhiteSpace c = true) : c ≠ '\'' ∧ c ≠ '}' := by
  constructor <;> (rintro rfl; exact absurd h (by decide))

theorem Encloses.trimmed {source : Text} (h : Encloses false source)
    (hlast : (source.trimmed isWhiteSpace).getLast? ≠ some '}') :
    Encloses false (source.trimmed isWhiteSpace) := by
  obtain ⟨before, after, hbefore, hafter, heq⟩ := Text.exists_eq_trimmed isWhiteSpace source
  rw [heq, List.append_assoc, encloses_append_iff fun c hc => plain_of_isWhiteSpace (hbefore c hc)] at h
  exact h.of_append_right (fun c hc => plain_of_isWhiteSpace (hafter c hc)) hlast

theorem mentions_of_trimmed {source identifier : Text}
    (h : Mentions (source.trimmed isWhiteSpace) identifier) : Mentions source identifier := by
  obtain ⟨before, after, hbefore, hafter, heq⟩ := Text.exists_eq_trimmed isWhiteSpace source
  obtain ⟨front, back, hsplit, hquoted, hjoined, hback⟩ := h
  refine ⟨before ++ front, back ++ after, ?_, ?_, ?_, ?_⟩
  · rw [heq, hsplit]
    simp only [List.append_assoc]
  · have hno : endsQuoted before = false :=
      endsQuoted_eq_false fun h => ne_quote_of_isWhiteSpace (hbefore _ h) rfl
    rw [endsQuoted_append, hno, Bool.false_xor, hquoted]
  · rw [← joinsAfter_false, joinsAfter_append, joinsAfter_blank hbefore]
    exact joinsAfter_false.mpr hjoined
  · intro c hc
    rw [List.head?_append] at hc
    cases hhead : back.head? with
    | none =>
      rw [hhead, Option.none_or] at hc
      exact isIdentifierChar_of_isWhiteSpace (hafter c (List.mem_of_mem_head? hc))
    | some d =>
      rw [hhead, Option.some_or] at hc
      exact hback c (hhead.trans hc)

/-- The expression of a template mentions a reference only if one of its placeholders does. -/
theorem exists_mentions_of_toExpression {template expression identifier : Text}
    (hid : IsReference identifier) (hdot : '.' ∈ identifier)
    (h : toExpression template = .ok expression) (hmentions : Mentions expression identifier) :
    ∃ tokens source, scan template = .ok tokens ∧ .expression source ∈ tokens ∧
      Mentions source identifier := by
  obtain ⟨tokens, hscan, ⟨source, hsource, rfl⟩ | rfl⟩ := exists_of_toExpression h
  · exact ⟨tokens, source, hscan, hsource, mentions_of_trimmed hmentions⟩
  · obtain ⟨htokens, -⟩ := scan_eq_ok_iff.mp hscan
    obtain ⟨source, hsource, hmentions⟩ := htokens.exists_mentions hid hdot hmentions
    exact ⟨tokens, source, hscan, hsource, hmentions⟩

/-! ## Values -/

/-- The characters that the texts of numbers and other constants are made of. -/
def isConstantChar (c : Char) : Bool := c.isAlphanum || c == '-' || c == '.'

theorem isConstantChar_of_mem_ofNat {n : Nat} : ∀ c ∈ Text.ofNat n, isConstantChar c = true := by
  intro c hc
  rw [isConstantChar, Char.isAlphanum, isDigit_of_mem_ofNat hc, Bool.or_true]
  rfl

theorem isConstantChar_of_mem_ofInt {n : Int} : ∀ c ∈ Text.ofInt n, isConstantChar c = true := by
  cases n with
  | ofNat n => exact isConstantChar_of_mem_ofNat
  | negSucc n => exact List.forall_mem_cons.mpr ⟨by decide, isConstantChar_of_mem_ofNat⟩

theorem isConstantChar_of_mem_decimal (d : Decimal) : ∀ c ∈ d.toText, isConstantChar c = true := by
  have hdigits : ∀ c ∈ Text.ofNat d.digits, isConstantChar c = true := isConstantChar_of_mem_ofNat
  have htake : ∀ n, ∀ c ∈ (Text.ofNat d.digits).take n, isConstantChar c = true :=
    fun n c hc => hdigits c (List.mem_of_mem_take hc)
  have hdrop : ∀ n, ∀ c ∈ (Text.ofNat d.digits).drop n, isConstantChar c = true :=
    fun n c hc => hdigits c (List.mem_of_mem_drop hc)
  have hzeros : ∀ n, ∀ c ∈ List.replicate n '0', isConstantChar c = true := by
    intro n c hc
    rw [List.eq_of_mem_replicate hc]
    decide
  unfold Decimal.toText
  dsimp only
  split
  · simp only [List.forall_mem_append]
    exact ⟨⟨hdigits, hzeros _⟩, by decide⟩
  · split
    · simp only [List.forall_mem_append]
      exact ⟨⟨htake _, by decide⟩, hdrop _⟩
    · split
      · simp only [List.forall_mem_append]
        exact ⟨⟨by decide, hzeros _⟩, hdigits⟩
      · simp only [List.forall_mem_append]
        refine ⟨⟨⟨htake _, ?_⟩, by decide⟩, isConstantChar_of_mem_ofInt⟩
        split
        · exact fun _ h => nomatch h
        · exact List.forall_mem_cons.mpr ⟨by decide, hdrop _⟩

theorem isConstantChar_of_mem_number {n : Number} : ∀ c ∈ n.toText, isConstantChar c = true := by
  cases n with
  | integer n => exact isConstantChar_of_mem_ofInt
  | double x =>
    unfold Number.toText Binary64.toText
    rw [List.forall_mem_append]
    refine ⟨?_, isConstantChar_of_mem_decimal _⟩
    split <;> decide

theorem ne_of_isConstantChar {c d : Char} (h : isConstantChar c = true) (hd : isConstantChar d = false) : c ≠ d := by
  rintro rfl
  rw [h] at hd
  cases hd

/-- What the expression of a value can look like. -/
inductive IsExpression : Text → Prop where
  /-- The expression of a single placeholder. -/
  | inner {source : Text} (hsource : Encloses false source) : IsExpression (source.trimmed isWhiteSpace)
  | rendered {tokens : List Token} (htokens : IsTemplate tokens) : IsExpression (render tokens)
  /-- An array or an object. -/
  | call {tokens : List Token} (htokens : IsTemplate tokens) :
      IsExpression ("fromJSON(" ++ render tokens ++ ")")
  | constant {text : Text} (htext : ∀ c ∈ text, isConstantChar c = true) : IsExpression text

end CachedWorkflow.Template

namespace CachedWorkflow.Json

open Template Renaming

theorem isExpression_of_toExpression {value : Json} {expression : Text}
    (h : value.toExpression = .ok expression) : IsExpression expression := by
  cases value with
  | string text =>
    obtain ⟨tokens, hscan, ⟨source, hsource, rfl⟩ | rfl⟩ := exists_of_toExpression h
    · exact .inner ((scan_eq_ok_iff.mp hscan).1.encloses hsource)
    · exact .rendered (scan_eq_ok_iff.mp hscan).1
  | array items =>
    obtain ⟨template, -, h⟩ := bind_eq_ok.mp h
    obtain ⟨tokens, hscan, h⟩ := bind_eq_ok.mp h
    cases h
    exact .call (scan_eq_ok_iff.mp hscan).1
  | object fields =>
    obtain ⟨template, -, h⟩ := bind_eq_ok.mp h
    obtain ⟨tokens, hscan, h⟩ := bind_eq_ok.mp h
    cases h
    exact .call (scan_eq_ok_iff.mp hscan).1
  | null =>
    cases h
    exact .constant (by decide)
  | bool value =>
    cases h
    cases value <;> exact .constant (by decide)
  | number value =>
    cases h
    exact .constant isConstantChar_of_mem_number

/-- The expression of a value is enclosed, or it is an enclosed one without the blanks around it. -/
theorem encloses_or_trimmed_of_toExpression {value : Json} {expression : Text}
    (h : value.toExpression = .ok expression) : Encloses false expression ∨
      ∃ source, Encloses false source ∧ expression = source.trimmed isWhiteSpace := by
  cases isExpression_of_toExpression h with
  | inner hsource => exact .inr ⟨_, hsource, rfl⟩
  | rendered htokens => exact .inl htokens.encloses_render
  | call htokens =>
    rw [List.append_assoc, encloses_append_iff (by decide)]
    exact .inl (htokens.encloses_render.append (encloses_of_plain (by decide)))
  | constant htext =>
    refine .inl (encloses_of_plain fun c hc => ?_)
    exact ⟨ne_of_isConstantChar (htext c hc) (by decide), ne_of_isConstantChar (htext c hc) (by decide)⟩

theorem endsQuoted_toExpression {value : Json} {expression : Text}
    (h : value.toExpression = .ok expression) : endsQuoted expression = false := by
  rcases encloses_or_trimmed_of_toExpression h with h | ⟨source, hsource, rfl⟩
  · exact h.endsQuoted_eq
  · rw [endsQuoted_trimmed, hsource.endsQuoted_eq]

/-- The expression of a value may be put into another one, unless it is empty or a brace stands at one
of its ends. -/
theorem isPlaceable_toExpression {value : Json} {expression : Text}
    (h : value.toExpression = .ok expression) (hhead : ∃ c ∈ expression.head?, c ≠ '}')
    (hlast : expression.getLast? ≠ some '}') : IsPlaceable expression := by
  refine ⟨?_, hhead⟩
  rcases encloses_or_trimmed_of_toExpression h with h | ⟨source, hsource, rfl⟩
  · exact h
  · exact hsource.trimmed hlast

/-! ## Values as templates -/

/-- What a string leaf becomes inside of JSON text. -/
def leafPlaceholder (expression : Text) : Text := opening ++ "toJson(" ++ expression ++ ")" ++ closing

theorem infix_intercalate (separator : Text) {part : Text} {parts : List Text} (h : part ∈ parts) :
    part <:+: List.intercalate separator parts := by
  induction parts with
  | nil => cases h
  | cons first rest ih =>
    cases rest with
    | nil => rw [List.mem_singleton.mp h, List.intercalate_singleton]
    | cons next rest =>
      rw [List.intercalate_cons_cons]
      rcases List.mem_cons.mp h with rfl | h
      · exact ⟨[], _, List.append_assoc _ _ _ |>.symm⟩
      · exact (ih h).trans (List.suffix_append _ _).isInfix

/-- Each string leaf has its placeholder in the JSON text. -/
def HasLeafPlaceholder (text template : Text) : Prop :=
  ∃ expression, Template.toExpression text = .ok expression ∧ leafPlaceholder expression <:+: template

mutual

theorem hasLeafPlaceholder_toJsonTemplate {text : Text} : ∀ {value : Json} {template : Text},
    value.toJsonTemplate = .ok template → text ∈ value.leaves → HasLeafPlaceholder text template
  | .string leaf, template, h, htext => by
    obtain rfl := List.mem_singleton.mp htext
    obtain ⟨expression, hexpression, h⟩ := bind_eq_ok.mp h
    cases h
    exact ⟨expression, hexpression, List.infix_refl _⟩
  | .array items, template, h, htext => by
    obtain ⟨parts, hparts, h⟩ := bind_eq_ok.mp h
    cases h
    obtain ⟨part, hpart, expression, hexpression, hwithin⟩ :=
      hasLeafPlaceholder_itemTemplates hparts htext
    exact ⟨expression, hexpression,
      (hwithin.trans (infix_intercalate "," hpart)).trans ⟨"[", "]", rfl⟩⟩
  | .object fields, template, h, htext => by
    obtain ⟨parts, hparts, h⟩ := bind_eq_ok.mp h
    cases h
    obtain ⟨part, hpart, expression, hexpression, hwithin⟩ :=
      hasLeafPlaceholder_fieldTemplates hparts htext
    exact ⟨expression, hexpression,
      (hwithin.trans (infix_intercalate "," hpart)).trans ⟨"\x7b", "\x7d", rfl⟩⟩
  | .null, _, _, htext | .bool _, _, _, htext | .number _, _, _, htext => by cases htext

theorem hasLeafPlaceholder_itemTemplates {text : Text} : ∀ {items : List Json} {parts : List Text},
    itemTemplates items = .ok parts → text ∈ leavesOfItems items →
      ∃ part ∈ parts, HasLeafPlaceholder text part
  | [], _, _, htext => by cases htext
  | item :: rest, _, h, htext => by
    obtain ⟨part, hpart, h⟩ := bind_eq_ok.mp h
    obtain ⟨parts, hparts, h⟩ := bind_eq_ok.mp h
    cases h
    rcases List.mem_append.mp htext with htext | htext
    · exact ⟨part, List.mem_cons_self, hasLeafPlaceholder_toJsonTemplate hpart htext⟩
    · obtain ⟨other, hother, hplaceholder⟩ := hasLeafPlaceholder_itemTemplates hparts htext
      exact ⟨other, List.mem_cons_of_mem part hother, hplaceholder⟩

theorem hasLeafPlaceholder_fieldTemplates {text : Text} :
    ∀ {fields : List (Text × Json)} {parts : List Text}, fieldTemplates fields = .ok parts →
      text ∈ leavesOfFields fields → ∃ part ∈ parts, HasLeafPlaceholder text part
  | [], _, _, htext => by cases htext
  | (key, value) :: rest, _, h, htext => by
    obtain ⟨part, hpart, h⟩ := bind_eq_ok.mp h
    obtain ⟨parts, hparts, h⟩ := bind_eq_ok.mp h
    cases h
    rcases List.mem_append.mp htext with htext | htext
    · obtain ⟨expression, hexpression, hwithin⟩ := hasLeafPlaceholder_toJsonTemplate hpart htext
      exact ⟨_, List.mem_cons_self, expression, hexpression,
        hwithin.trans (List.suffix_append _ part).isInfix⟩
    · obtain ⟨other, hother, hplaceholder⟩ := hasLeafPlaceholder_fieldTemplates hparts htext
      exact ⟨other, List.mem_cons_of_mem _ hother, hplaceholder⟩

end

end CachedWorkflow.Json
