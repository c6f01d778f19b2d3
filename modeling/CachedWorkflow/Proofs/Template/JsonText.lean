import CachedWorkflow.Proofs.Template.Embedding
import CachedWorkflow.Proofs.Template.Evaluation
import CachedWorkflow.Proofs.Template.Scannable

/-!
# Proofs: JSON text with placeholders

The template of a value is made of pieces, which are its JSON text with an expression in the place of each
string (`Json.fragments`, `embed_fragments`). As no piece of JSON text can begin or end an opening
(`IsSealed`), scanning finds these pieces again, with neighbouring ones joined (`scan_embed`). So filled with
the texts of other values the template is the text of the value with these as its leaves (`fill_fragments`,
`toJsonTemplate_evaluates`).
-/

namespace CachedWorkflow

namespace Template

/-! ## Pieces of a template -/

/-- A text that has no part of an opening at its ends: what stands behind it has an opening or not, with the
text in front of it or without. -/
def IsSealed (text : Text) : Prop := ∀ rest, hasOpening (text ++ rest) = hasOpening rest

/-- A piece that can stand anywhere among others. -/
def IsPiece : Token → Prop
  | .literal text => IsSealed text
  | .expression source => Encloses false source

/-- Fragments with more literal text in front of them. -/
def prepend (text : Text) : List Token → List Token
  | .literal next :: rest => .literal (text ++ next) :: rest
  | tokens => .literal text :: tokens

/-- Pieces as the fragments of a template: neighbouring literals are joined, and one stands before every
expression and at the end. -/
def join : List Token → List Token
  | [] => [.literal []]
  | .literal text :: rest => prepend text (join rest)
  | .expression source :: rest => .literal [] :: .expression source :: join rest

theorem hasOpening_cons_of_ne {c : Char} (hc : c ≠ '$') (rest : Text) :
    hasOpening (c :: rest) = hasOpening rest := by
  rw [hasOpening]
  rintro _ rfl
  exact absurd rfl hc

theorem hasOpening_cons_of_not_prefix {c : Char} {rest : Text} (h : ¬ opening <+: c :: rest) :
    hasOpening (c :: rest) = hasOpening rest := by
  rw [hasOpening]
  rintro after rfl rfl
  exact h ⟨after, rfl⟩

theorem IsSealed.nil : IsSealed [] := fun _ => rfl

theorem isSealed_of_not_mem {text : Text} (h : '$' ∉ text) : IsSealed text := by
  induction text with
  | nil => exact .nil
  | cons c text ih =>
    rw [List.mem_cons, not_or] at h
    intro rest
    rw [List.cons_append, hasOpening_cons_of_ne (Ne.symm h.1), ih h.2]

theorem embed_prepend (text : Text) (tokens : List Token) :
    embed (prepend text tokens) = text ++ embed tokens := by
  unfold prepend
  split <;> simp [embed, tokenText]

theorem embed_join (tokens : List Token) : embed (join tokens) = embed tokens := by
  induction tokens with
  | nil => rfl
  | cons token rest ih =>
    cases token with
    | literal text => rw [join, embed_prepend, ih]; rfl
    | expression source =>
      show [] ++ (tokenText (.expression source) ++ embed (join rest)) = _
      rw [ih]
      rfl

theorem expressions_prepend (text : Text) (tokens : List Token) :
    expressions (prepend text tokens) = expressions tokens := by
  unfold prepend
  split <;> rfl

theorem expressions_join (tokens : List Token) : expressions (join tokens) = expressions tokens := by
  induction tokens with
  | nil => rfl
  | cons token rest ih =>
    cases token with
    | literal text => rw [join, expressions_prepend, ih]; rfl
    | expression source =>
      show source :: expressions (join rest) = source :: expressions rest
      rw [ih]

theorem fill_prepend (text : Text) (tokens : List Token) (values : List Text) :
    fill (prepend text tokens) values = text ++ fill tokens values := by
  unfold prepend
  split
  · rw [fill, fill, List.append_assoc]
  · rfl

theorem fill_join (tokens : List Token) (values : List Text) :
    fill (join tokens) values = fill tokens values := by
  induction tokens generalizing values with
  | nil => rfl
  | cons token rest ih =>
    cases token with
    | literal text => rw [join, fill_prepend, ih]; rfl
    | expression source =>
      cases values with
      | nil => rw [join, fill, fill, ih]; rfl
      | cons value values => rw [join, fill, fill, ih]; rfl

theorem isTemplate_prepend {text : Text} (htext : IsSealed text) {tokens : List Token} (h : IsTemplate tokens) :
    IsTemplate (prepend text tokens) := by
  cases h with
  | @last next hnext => exact .last ((htext next).trans hnext)
  | @cons next source rest hnext hsource hrest => exact .cons ((htext next).trans hnext) hsource hrest

theorem isTemplate_join {tokens : List Token} (h : ∀ token ∈ tokens, IsPiece token) :
    IsTemplate (join tokens) := by
  induction tokens with
  | nil => exact .last rfl
  | cons token rest ih =>
    obtain ⟨htoken, hrest⟩ := List.forall_mem_cons.mp h
    cases token with
    | literal text => exact isTemplate_prepend htoken (ih hrest)
    | expression source => exact .cons rfl htoken (ih hrest)

/-- Pieces that have been put together are found again. -/
theorem scan_embed {tokens : List Token} (h : ∀ token ∈ tokens, IsPiece token) :
    scan (embed tokens) = .ok (join tokens) :=
  scan_eq_ok_iff.mpr ⟨isTemplate_join h, embed_join tokens⟩

/-! ## Lists of pieces -/

theorem fill_append (p q : List Token) (values : List Text) :
    fill (p ++ q) values = fill p values ++ fill q (values.drop (expressions p).length) := by
  induction p generalizing values with
  | nil => rfl
  | cons token p ih =>
    cases token with
    | literal text =>
      rw [List.cons_append, fill, fill, ih, List.append_assoc]
      rfl
    | expression source =>
      cases values with
      | nil =>
        rw [List.cons_append, fill, fill, ih, List.append_assoc, List.drop_nil, List.drop_nil]
      | cons value values =>
        rw [List.cons_append, fill, fill, ih, List.append_assoc]
        rfl

theorem fill_nil (tokens : List Token) : fill tokens [] = embed tokens := by
  induction tokens with
  | nil => rfl
  | cons token rest ih =>
    cases token with
    | literal text => rw [fill, ih]; rfl
    | expression source => rw [fill, ih]; rfl

theorem embed_append (p q : List Token) : embed (p ++ q) = embed p ++ embed q := List.flatMap_append

theorem expressions_append (p q : List Token) : expressions (p ++ q) = expressions p ++ expressions q :=
  List.filterMap_append

/-- The parts filled one after the other, each with as many of the values as it has placeholders. -/
def fillParts : List (List Token) → List Text → List Text
  | [], _ => []
  | part :: parts, values => fill part values :: fillParts parts (values.drop (expressions part).length)

theorem fill_intercalate (parts : List (List Token)) (values : List Text) :
    fill (List.intercalate [.literal ","] parts) values = List.intercalate "," (fillParts parts values) := by
  induction parts generalizing values with
  | nil => rfl
  | cons part parts ih =>
    cases parts with
    | nil => rw [List.intercalate_singleton, fillParts, fillParts, List.intercalate_singleton]
    | cons next parts =>
      have hparts : fillParts (part :: next :: parts) values = fill part values
          :: fill next (values.drop (expressions part).length)
          :: fillParts parts ((values.drop (expressions part).length).drop (expressions next).length) := rfl
      rw [List.intercalate_cons_cons, List.append_assoc, fill_append, List.singleton_append, fill, ih, hparts,
        List.intercalate_cons_cons, List.append_assoc]
      rfl

/-- Without values the placeholders stay. -/
theorem fillParts_nil (parts : List (List Token)) : fillParts parts [] = parts.map embed := by
  induction parts with
  | nil => rfl
  | cons part parts ih => rw [fillParts, fill_nil, List.drop_nil, ih, List.map_cons]

theorem embed_intercalate (parts : List (List Token)) :
    embed (List.intercalate [.literal ","] parts) = List.intercalate "," (parts.map embed) := by
  rw [← fill_nil, fill_intercalate, fillParts_nil]

theorem expressions_intercalate (parts : List (List Token)) :
    expressions (List.intercalate [.literal ","] parts) = parts.flatMap expressions := by
  induction parts with
  | nil => rfl
  | cons part parts ih =>
    cases parts with
    | nil => simp
    | cons next parts =>
      rw [List.intercalate_cons_cons, List.append_assoc, expressions_append, List.singleton_append,
        List.flatMap_cons, ← ih]
      rfl

theorem forall_mem_intercalate {α : Type} {p : α → Prop} {separator : List α} (hseparator : ∀ a ∈ separator, p a)
    {parts : List (List α)} (h : ∀ part ∈ parts, ∀ a ∈ part, p a) :
    ∀ a ∈ List.intercalate separator parts, p a := by
  induction parts with
  | nil => exact fun _ ha => nomatch ha
  | cons part parts ih =>
    obtain ⟨hpart, hparts⟩ := List.forall_mem_cons.mp h
    cases parts with
    | nil =>
      rw [List.intercalate_singleton]
      exact hpart
    | cons next parts =>
      rw [List.intercalate_cons_cons, List.forall_mem_append, List.forall_mem_append]
      exact ⟨⟨hpart, hseparator⟩, ih hparts⟩

end Template

open Template

/-! ## Keys -/

/-- The characters that have a short escape in a JSON string. -/
def shortEscapes : List Char := ['"', '\\', '\n', '\r', '\t', '\x08', '\x0c']

theorem escapedChar_of_not_mem {c : Char} (h : c ∉ shortEscapes) :
    escapedChar c = if c.toNat < 0x20 then "\\u" ++ hexDigits false 4 c.toNat else [c] := by
  simp only [shortEscapes, List.mem_cons, List.not_mem_nil, or_false, not_or] at h
  obtain ⟨hquote, hbackslash, hnewline, hreturn, htab, hbackspace, hfeed⟩ := h
  rw [escapedChar, if_neg hquote, if_neg hbackslash, if_neg hnewline, if_neg hreturn, if_neg htab,
    if_neg hbackspace, if_neg hfeed]

/-- An escaped character is the character, or begins with a backslash and has no dollar sign. -/
theorem escapedChar_cases (c : Char) :
    escapedChar c = [c] ∨ (escapedChar c).head? = some '\\' ∧ '$' ∉ escapedChar c := by
  by_cases hshort : c ∈ shortEscapes
  · have hall : ∀ c ∈ shortEscapes, (escapedChar c).head? = some '\\' ∧ '$' ∉ escapedChar c := by decide
    exact .inr (hall c hshort)
  · rw [escapedChar_of_not_mem hshort]
    by_cases hcontrol : c.toNat < 0x20
    · have hhex : ∀ n, n < 0x20 → '$' ∉ ("\\u" : Text) ++ hexDigits false 4 n := by decide
      rw [if_pos hcontrol]
      exact .inr ⟨rfl, hhex _ hcontrol⟩
    · exact .inl (if_neg hcontrol)

/-- A brace of escaped text is one of the text. -/
theorem eq_cons_of_escaped {key rest after : Text}
    (h : key.flatMap escapedChar ++ '"' :: rest = '{' :: after) :
    ∃ key', key = '{' :: key' ∧ key'.flatMap escapedChar ++ '"' :: rest = after := by
  cases key with
  | nil => cases h
  | cons c key =>
    rw [List.flatMap_cons, List.append_assoc] at h
    rcases escapedChar_cases c with heq | ⟨hhead, -⟩
    · rw [heq] at h
      cases h
      exact ⟨key, rfl, rfl⟩
    · have hfirst := congrArg List.head? h
      rw [List.head?_append, hhead] at hfirst
      cases hfirst

/-- Escaping adds no opening, and the quote behind the text ends what could become one. -/
theorem hasOpening_escaped {key : Text} (h : hasOpening key = false) (rest : Text) :
    hasOpening (key.flatMap escapedChar ++ '"' :: rest) = hasOpening rest := by
  induction key with
  | nil => exact hasOpening_cons_of_ne (by decide) rest
  | cons c key ih =>
    obtain ⟨hopen, hkey⟩ := hasOpening_cons.mp h
    rw [List.flatMap_cons, List.append_assoc]
    rcases escapedChar_cases c with heq | ⟨-, hno⟩
    · -- an opening that begins here would be one of the key
      have hno : ¬ opening <+: c :: (key.flatMap escapedChar ++ '"' :: rest) := by
        rintro ⟨after, hafter⟩
        obtain ⟨rfl, hbraces⟩ := List.cons.inj hafter
        obtain ⟨key', rfl, hbrace⟩ := eq_cons_of_escaped hbraces.symm
        obtain ⟨key'', rfl, -⟩ := eq_cons_of_escaped hbrace
        exact hopen ⟨key'', rfl⟩
      rw [heq, List.singleton_append, hasOpening_cons_of_not_prefix hno, ih hkey]
    · rw [isSealed_of_not_mem hno, ih hkey]

theorem isSealed_key {key : Text} (h : hasOpening key = false) : IsSealed (stringLiteral key ++ ":") := by
  intro rest
  have hsplit : stringLiteral key ++ ":" ++ rest
      = '"' :: (key.flatMap escapedChar ++ '"' :: ':' :: rest) := by
    simp [stringLiteral]
  rw [hsplit, hasOpening_cons_of_ne (by decide), hasOpening_escaped h, hasOpening_cons_of_ne (by decide)]

/-! ## Values -/

/-- What stands in the placeholder of a string leaf, if the string is a template. -/
def leafSource (text : Text) : Text :=
  match Template.toExpression text with
  | .ok expression => "toJson(" ++ expression ++ ")"
  | .error _ => []

theorem leafSource_eq {text expression : Text} (h : Template.toExpression text = .ok expression) :
    leafSource text = "toJson(" ++ expression ++ ")" := by
  rw [leafSource, h]

namespace Json

mutual

/-- The JSON text of a value in pieces, with a placeholder for each string. -/
def fragments : Json → List Token
  | .string text => [.expression (leafSource text)]
  | .array items =>
    .literal "[" :: (List.intercalate [.literal ","] (itemFragments items) ++ [.literal "]"])
  | .object fields =>
    .literal "\x7b" :: (List.intercalate [.literal ","] (fieldFragments fields) ++ [.literal "\x7d"])
  | .null => [.literal (toText .null)]
  | .bool value => [.literal (toText (.bool value))]
  | .number value => [.literal (toText (.number value))]

/-- The pieces of the items of an array. -/
def itemFragments : List Json → List (List Token)
  | [] => []
  | item :: rest => item.fragments :: itemFragments rest

/-- The pieces of the entries of an object. -/
def fieldFragments : List (Text × Json) → List (List Token)
  | [] => []
  | (key, value) :: rest =>
    (.literal (stringLiteral key ++ ":") :: value.fragments) :: fieldFragments rest

end

mutual

/-- All keys of a value and of the values inside. -/
def keysWithin : Json → List Text
  | .array items => keysOfItems items
  | .object fields => keysOfFields fields
  | .string _ | .null | .bool _ | .number _ => []

/-- All keys of the items of an array. -/
def keysOfItems : List Json → List Text
  | [] => []
  | item :: rest => item.keysWithin ++ keysOfItems rest

/-- All keys of the entries of an object. -/
def keysOfFields : List (Text × Json) → List Text
  | [] => []
  | (key, value) :: rest => key :: (value.keysWithin ++ keysOfFields rest)

end

mutual

/-- The value with other values in the place of its string leaves, in document order. -/
def fillLeaves : Json → List Json → Json
  | .string _, value :: _ => value
  | .string text, [] => .string text
  | .array items, values => .array (fillItems items values)
  | .object fields, values => .object (fillFields fields values)
  | .null, _ => .null
  | .bool value, _ => .bool value
  | .number value, _ => .number value

/-- The items of an array, each with as many of the values as it has string leaves. -/
def fillItems : List Json → List Json → List Json
  | [], _ => []
  | item :: rest, values => item.fillLeaves values :: fillItems rest (values.drop item.leaves.length)

/-- The entries of an object, each with as many of the values as it has string leaves. -/
def fillFields : List (Text × Json) → List Json → List (Text × Json)
  | [], _ => []
  | (key, value) :: rest, values =>
    (key, value.fillLeaves values) :: fillFields rest (values.drop value.leaves.length)

end

/-! ## The template of a value -/

theorem embed_enclosed (first last : Text) (parts : List (List Token)) :
    embed (.literal first :: (List.intercalate [.literal ","] parts ++ [.literal last]))
      = first ++ List.intercalate "," (parts.map embed) ++ last := by
  rw [embed_cons, embed_append, embed_intercalate, embed_literal, tokenText, List.append_assoc]

theorem embed_leafSource {text template : Text} (h : (Json.string text).toJsonTemplate = .ok template) :
    embed [.expression (leafSource text)] = template := by
  rw [toJsonTemplate] at h
  obtain ⟨expression, hexpression, h⟩ := bind_eq_ok.mp h
  rw [← Except.ok.inj h, embed_cons, tokenText, leafSource_eq hexpression]
  simp [embed]

mutual

/-- The template of a value is made of its pieces. -/
theorem embed_fragments : ∀ {value : Json} {template : Text}, value.toJsonTemplate = .ok template →
    embed value.fragments = template
  | .string text, template, h => by
    rw [fragments]
    exact embed_leafSource h
  | .array items, template, h => by
    rw [toJsonTemplate] at h
    obtain ⟨parts, hparts, h⟩ := bind_eq_ok.mp h
    rw [fragments, embed_enclosed, embed_itemFragments hparts]
    exact Except.ok.inj h
  | .object fields, template, h => by
    rw [toJsonTemplate] at h
    obtain ⟨parts, hparts, h⟩ := bind_eq_ok.mp h
    rw [fragments, embed_enclosed, embed_fieldFragments hparts]
    exact Except.ok.inj h
  | .null, template, h => by
    rw [toJsonTemplate] at h
    rw [fragments, embed_literal, Except.ok.inj h]
  | .bool value, template, h => by
    rw [toJsonTemplate] at h
    rw [fragments, embed_literal, Except.ok.inj h]
  | .number value, template, h => by
    rw [toJsonTemplate] at h
    rw [fragments, embed_literal, Except.ok.inj h]

theorem embed_itemFragments : ∀ {items : List Json} {parts : List Text}, itemTemplates items = .ok parts →
    (itemFragments items).map embed = parts
  | [], _, h => by
    cases h
    rfl
  | item :: rest, _, h => by
    obtain ⟨part, hpart, h⟩ := bind_eq_ok.mp h
    obtain ⟨parts, hparts, h⟩ := bind_eq_ok.mp h
    cases h
    rw [itemFragments, List.map_cons, embed_fragments hpart, embed_itemFragments hparts]

theorem embed_fieldFragments : ∀ {fields : List (Text × Json)} {parts : List Text},
    fieldTemplates fields = .ok parts → (fieldFragments fields).map embed = parts
  | [], _, h => by
    cases h
    rfl
  | (key, value) :: rest, _, h => by
    obtain ⟨part, hpart, h⟩ := bind_eq_ok.mp h
    obtain ⟨parts, hparts, h⟩ := bind_eq_ok.mp h
    cases h
    rw [fieldFragments, List.map_cons, embed_cons, embed_fragments hpart, embed_fieldFragments hparts]
    rfl

end

/-! ## The pieces of a value -/

theorem encloses_leafSource {text : Text} (h : ∃ tokens, scan text = .ok tokens) :
    Encloses false (leafSource text) := by
  obtain ⟨expression, hexpression⟩ := exists_toExpression h
  have hblank : Encloses false (expression ++ [' ']) := by
    have hvalue : (Json.string text).toExpression = .ok expression := hexpression
    exact encloses_append_toExpression hvalue
  rw [leafSource_eq hexpression, List.append_assoc, encloses_append_iff (by decide)]
  exact hblank.append_char (by decide) (by decide)

theorem isPiece_atom {text : Text} (h : '$' ∉ text) : ∀ token ∈ [Token.literal text], IsPiece token :=
  List.forall_mem_singleton.mpr (isSealed_of_not_mem h)

theorem isPiece_enclosed {first last : Text} (hfirst : '$' ∉ first) (hlast : '$' ∉ last)
    {parts : List (List Token)} (h : ∀ part ∈ parts, ∀ token ∈ part, IsPiece token) :
    ∀ token ∈ Token.literal first :: (List.intercalate [.literal ","] parts ++ [.literal last]),
      IsPiece token := by
  rw [List.forall_mem_cons, List.forall_mem_append]
  exact ⟨isSealed_of_not_mem hfirst, forall_mem_intercalate (isPiece_atom (by decide)) h, isPiece_atom hlast⟩

mutual

/-- JSON text without openings in its keys falls into pieces that can stand next to each other. -/
theorem isPiece_fragments : ∀ {value : Json}, (∀ key ∈ value.keysWithin, hasOpening key = false) →
    (∀ text ∈ value.leaves, ∃ tokens, scan text = .ok tokens) → ∀ token ∈ value.fragments, IsPiece token
  | .string text, _, hleaves => by
    rw [fragments, List.forall_mem_singleton]
    exact encloses_leafSource (hleaves text (List.mem_singleton_self text))
  | .array items, hkeys, hleaves => by
    rw [fragments]
    exact isPiece_enclosed (by decide) (by decide) (isPiece_itemFragments hkeys hleaves)
  | .object fields, hkeys, hleaves => by
    rw [fragments]
    exact isPiece_enclosed (by decide) (by decide) (isPiece_fieldFragments hkeys hleaves)
  | .null, _, _ => by
    rw [fragments]
    exact isPiece_atom (by decide)
  | .bool value, _, _ => by
    rw [fragments]
    cases value <;> exact isPiece_atom (by decide)
  | .number value, _, _ => by
    rw [fragments]
    exact isPiece_atom fun hmem => ne_of_isConstantChar (isConstantChar_of_mem_number _ hmem) (by decide) rfl

theorem isPiece_itemFragments : ∀ {items : List Json}, (∀ key ∈ keysOfItems items, hasOpening key = false) →
    (∀ text ∈ leavesOfItems items, ∃ tokens, scan text = .ok tokens) →
    ∀ part ∈ itemFragments items, ∀ token ∈ part, IsPiece token
  | [], _, _ => by
    intro part hpart
    cases hpart
  | item :: rest, hkeys, hleaves => by
    rw [keysOfItems, List.forall_mem_append] at hkeys
    rw [leavesOfItems, List.forall_mem_append] at hleaves
    rw [itemFragments, List.forall_mem_cons]
    exact ⟨isPiece_fragments hkeys.1 hleaves.1, isPiece_itemFragments hkeys.2 hleaves.2⟩

theorem isPiece_fieldFragments : ∀ {fields : List (Text × Json)},
    (∀ key ∈ keysOfFields fields, hasOpening key = false) →
    (∀ text ∈ leavesOfFields fields, ∃ tokens, scan text = .ok tokens) →
    ∀ part ∈ fieldFragments fields, ∀ token ∈ part, IsPiece token
  | [], _, _ => by
    intro part hpart
    cases hpart
  | (key, value) :: rest, hkeys, hleaves => by
    rw [keysOfFields, List.forall_mem_cons, List.forall_mem_append] at hkeys
    rw [leavesOfFields, List.forall_mem_append] at hleaves
    rw [fieldFragments, List.forall_mem_cons, List.forall_mem_cons]
    exact ⟨⟨isSealed_key hkeys.1, isPiece_fragments hkeys.2.1 hleaves.1⟩,
      isPiece_fieldFragments hkeys.2.2 hleaves.2⟩

end

theorem expressions_enclosed (first last : Text) (parts : List (List Token)) :
    expressions (.literal first :: (List.intercalate [.literal ","] parts ++ [.literal last]))
      = parts.flatMap expressions := by
  have hlast : expressions [.literal last] = [] := rfl
  show expressions (List.intercalate [.literal ","] parts ++ [.literal last]) = _
  rw [expressions_append, expressions_intercalate, hlast, List.append_nil]

mutual

/-- The expressions are those of the string leaves, in document order. -/
theorem expressions_fragments : ∀ value : Json, expressions value.fragments = value.leaves.map leafSource
  | .string text => by
    rw [fragments]
    rfl
  | .array items => by
    rw [fragments, expressions_enclosed, expressions_itemFragments]
    rfl
  | .object fields => by
    rw [fragments, expressions_enclosed, expressions_fieldFragments]
    rfl
  | .null | .bool _ | .number _ => by
    rw [fragments]
    rfl

theorem expressions_itemFragments : ∀ items : List Json,
    (itemFragments items).flatMap expressions = (leavesOfItems items).map leafSource
  | [] => rfl
  | item :: rest => by
    rw [itemFragments, List.flatMap_cons, leavesOfItems, List.map_append, expressions_fragments item,
      expressions_itemFragments rest]

theorem expressions_fieldFragments : ∀ fields : List (Text × Json),
    (fieldFragments fields).flatMap expressions = (leavesOfFields fields).map leafSource
  | [] => rfl
  | (key, value) :: rest => by
    rw [fieldFragments, List.flatMap_cons, leavesOfFields, List.map_append, ← expressions_fragments value,
      expressions_fieldFragments rest]
    rfl

end

theorem length_expressions_fragments (value : Json) :
    (expressions value.fragments).length = value.leaves.length := by
  rw [expressions_fragments, List.length_map]

theorem fill_enclosed (first last : Text) (parts : List (List Token)) (values : List Text) :
    fill (.literal first :: (List.intercalate [.literal ","] parts ++ [.literal last])) values
      = first ++ List.intercalate "," (fillParts parts values) ++ last := by
  have hlast : ∀ values, fill [.literal last] values = last := fun values => List.append_nil last
  rw [fill, fill_append, fill_intercalate, hlast, List.append_assoc]

mutual

/-- The pieces filled with the JSON texts of other values are the JSON text with these as leaves. -/
theorem fill_fragments : ∀ (value : Json) {values : List Json}, value.leaves.length ≤ values.length →
    fill value.fragments (values.map toText) = (value.fillLeaves values).toText
  | .string text, values, h => by
    cases values with
    | nil => simp [leaves] at h
    | cons first rest =>
      rw [fragments, List.map_cons, fill, fillLeaves, fill, List.append_nil]
  | .array items, values, h => by
    rw [fragments, fill_enclosed, fillParts_itemFragments items h, fillLeaves]
    rfl
  | .object fields, values, h => by
    rw [fragments, fill_enclosed, fillParts_fieldFragments fields h, fillLeaves]
    rfl
  | .null, values, _ => by
    rw [fragments, fill, fill, fillLeaves, List.append_nil]
  | .bool value, values, _ => by
    rw [fragments, fill, fill, fillLeaves, List.append_nil]
  | .number value, values, _ => by
    rw [fragments, fill, fill, fillLeaves, List.append_nil]

theorem fillParts_itemFragments : ∀ (items : List Json) {values : List Json},
    (leavesOfItems items).length ≤ values.length →
    fillParts (itemFragments items) (values.map toText) = itemTexts (fillItems items values)
  | [], _, _ => rfl
  | item :: rest, values, h => by
    rw [leavesOfItems, List.length_append] at h
    have hrest : (leavesOfItems rest).length ≤ (values.drop item.leaves.length).length := by
      rw [List.length_drop]
      omega
    rw [itemFragments, fillParts, fillItems, itemTexts, fill_fragments item (by omega),
      length_expressions_fragments, ← List.map_drop, fillParts_itemFragments rest hrest]

theorem fillParts_fieldFragments : ∀ (fields : List (Text × Json)) {values : List Json},
    (leavesOfFields fields).length ≤ values.length →
    fillParts (fieldFragments fields) (values.map toText) = fieldTexts (fillFields fields values)
  | [], _, _ => rfl
  | (key, value) :: rest, values, h => by
    rw [leavesOfFields, List.length_append] at h
    have hrest : (leavesOfFields rest).length ≤ (values.drop value.leaves.length).length := by
      rw [List.length_drop]
      omega
    have hlength : (expressions (.literal (stringLiteral key ++ ":") :: value.fragments)).length
        = value.leaves.length := length_expressions_fragments value
    rw [fieldFragments, fillParts, fillFields, fieldTexts, fill, fill_fragments value (by omega), hlength,
      ← List.map_drop, fillParts_fieldFragments rest hrest]

end

/-! ## Evaluation -/

/-- A value can be rendered exactly if its strings are templates. -/
theorem exists_toJsonTemplate_iff {value : Json} : (∃ template, value.toJsonTemplate = .ok template) ↔
    ∀ text ∈ value.leaves, ∃ tokens, scan text = .ok tokens := by
  constructor
  · rintro ⟨template, h⟩ text htext
    obtain ⟨expression, hexpression, -⟩ := hasLeafPlaceholder_toJsonTemplate h htext
    obtain ⟨tokens, hscan, -⟩ := exists_of_toExpression hexpression
    exact ⟨tokens, hscan⟩
  · exact exists_toJsonTemplate

/-- The template of a value scans as its pieces, with neighbouring ones joined. -/
theorem scan_toJsonTemplate {value : Json} {template : Text}
    (hkeys : ∀ key ∈ value.keysWithin, hasOpening key = false)
    (h : value.toJsonTemplate = .ok template) : scan template = .ok (join value.fragments) := by
  rw [← embed_fragments h]
  exact scan_embed (isPiece_fragments hkeys (exists_toJsonTemplate_iff.mp ⟨template, h⟩))

/-- The expression of an array or an object turns the evaluated template into a value. -/
theorem toExpression_of_scan {value : Json}
    (hkind : (∃ items, value = .array items) ∨ ∃ fields, value = .object fields)
    {template : Text} {tokens : List Token} (h : value.toJsonTemplate = .ok template)
    (hscan : scan template = .ok tokens) : value.toExpression = .ok ("fromJSON(" ++ render tokens ++ ")") := by
  rcases hkind with ⟨items, rfl⟩ | ⟨fields, rfl⟩
  · exact bind_eq_ok.mpr ⟨template, h, bind_eq_ok.mpr ⟨tokens, hscan, rfl⟩⟩
  · exact bind_eq_ok.mpr ⟨template, h, bind_eq_ok.mpr ⟨tokens, hscan, rfl⟩⟩

/-- The leaves of a value and the expressions in its template. -/
theorem forall₂_leafSource {texts : List Text} (h : ∀ text ∈ texts, ∃ tokens, scan text = .ok tokens) :
    List.Forall₂ (fun text source => ∃ expression, Template.toExpression text = .ok expression ∧
      source = "toJson(" ++ expression ++ ")") texts (texts.map leafSource) := by
  induction texts with
  | nil => exact .nil
  | cons text rest ih =>
    obtain ⟨htext, hrest⟩ := List.forall_mem_cons.mp h
    obtain ⟨expression, hexpression⟩ := exists_toExpression htext
    exact .cons ⟨expression, hexpression, leafSource_eq hexpression⟩ (ih hrest)

/-- A value none of whose keys has an opening has a JSON template exactly if all its strings are templates.
The placeholders of the JSON template are calls of `toJson` with the expressions of these strings, in document
order. With the JSON texts of any values in their places it is the JSON text of the value with these values as
its leaves. The expression of an array or an object is `fromJSON` of a literal or a call of `format` that
evaluates to the same text. -/
theorem toJsonTemplate_evaluates {value : Json} (hkeys : ∀ key ∈ value.keysWithin, ¬ opening <:+: key) :
    ((∃ template, value.toJsonTemplate = .ok template) ↔
      ∀ text ∈ value.leaves, ∃ tokens, scan text = .ok tokens) ∧
    ∀ template, value.toJsonTemplate = .ok template → ∃ tokens, scan template = .ok tokens ∧
      List.Forall₂ (fun text source => ∃ expression, Template.toExpression text = .ok expression ∧
        source = "toJson(" ++ expression ++ ")") value.leaves (expressions tokens) ∧
      (∀ values : List Json, values.length = value.leaves.length →
        fill tokens (values.map toText) = (value.fillLeaves values).toText) ∧
      ((∃ items, value = .array items) ∨ (∃ fields, value = .object fields) → ∃ call,
        value.toExpression = .ok ("fromJSON(" ++ call ++ ")") ∧
        ∀ values : List Json, values.length = value.leaves.length →
          evaluated? (expressions tokens) (values.map toText) call
            = some (value.fillLeaves values).toText) := by
  have hopening : ∀ key ∈ value.keysWithin, hasOpening key = false := by
    intro key hkey
    rw [Bool.eq_false_iff, ne_eq, hasOpening_iff]
    exact hkeys key hkey
  refine ⟨exists_toJsonTemplate_iff, fun template h => ?_⟩
  have hleaves := exists_toJsonTemplate_iff.mp ⟨template, h⟩
  have hscan := scan_toJsonTemplate hopening h
  have hexpressions : expressions (join value.fragments) = value.leaves.map leafSource := by
    rw [expressions_join, expressions_fragments]
  have hfill : ∀ values : List Json, values.length = value.leaves.length →
      fill (join value.fragments) (values.map toText) = (value.fillLeaves values).toText := by
    intro values hlength
    rw [fill_join, fill_fragments value hlength.ge]
  refine ⟨join value.fragments, hscan, ?_, hfill, fun hkind => ?_⟩
  · rw [hexpressions]
    exact forall₂_leafSource hleaves
  · refine ⟨render (join value.fragments), toExpression_of_scan hkind h hscan, fun values hlength => ?_⟩
    have hcount : (values.map toText).length = (expressions (join value.fragments)).length := by
      rw [hexpressions, List.length_map, List.length_map, hlength]
    rw [evaluated?_render (scan_eq_ok_iff.mp hscan).1 hcount, hfill values hlength]

/-- A value with keys that look like parts of a template or of a format. -/
def keyedValue : Json := .object [
  ("it's $\x7b", .array [.string "a $\x7b\x7b x \x7d\x7d\x7d", .number (.integer 0)]),
  ("\x7b0\x7d", .object [("$", .string "$\x7b\x7b 'y' \x7d\x7d")])]

/-- The JSON text of this value with others in the place of its strings is what its expression makes a value
of. -/
theorem toJsonTemplate_evaluates_keyedValue : ∃ template tokens call,
    keyedValue.toJsonTemplate = .ok template ∧ scan template = .ok tokens ∧
    expressions tokens = ["toJson(format('a \x7b0\x7d\x7d\x7d', x ))", "toJson('y')"] ∧
    keyedValue.toExpression = .ok ("fromJSON(" ++ call ++ ")") ∧
    evaluated? (expressions tokens) ["null", "\"\x7b1\x7d\""] call
      = some "\x7b\"it's $\x7b\":[null,0],\"\x7b0\x7d\":\x7b\"$\":\"\x7b1\x7d\"\x7d\x7d" := by
  have hkeys : ∀ key ∈ keyedValue.keysWithin, ¬ opening <:+: key := by decide
  have hok : keyedValue.toJsonTemplate.toBool = true := by decide +kernel
  obtain ⟨template, htemplate⟩ := toBool_eq_true.mp hok
  obtain ⟨-, hall⟩ := toJsonTemplate_evaluates hkeys
  obtain ⟨tokens, hscan, -, -, hcall⟩ := hall template htemplate
  obtain ⟨call, hexpression, hvalues⟩ := hcall (.inr ⟨_, rfl⟩)
  have hevaluated := hvalues [.null, .string "\x7b1\x7d"] rfl
  have hsources : (keyedValue.toJsonTemplate.bind scan).toOption.map expressions
      = some (["toJson(format('a \x7b0\x7d\x7d\x7d', x ))", "toJson('y')"] : List Text) := by
    decide +kernel
  rw [htemplate, Except.bind, hscan] at hsources
  exact ⟨template, tokens, call, htemplate, hscan, Option.some.inj hsources, hexpression,
    hevaluated.trans (by decide)⟩

end Json

end CachedWorkflow
