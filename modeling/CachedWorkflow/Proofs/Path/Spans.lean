import CachedWorkflow.Proofs.Path.Dirname
import CachedWorkflow.Proofs.Template.Grammar

/-!
# Proofs: placeholders in paths

A path is divided without a look at string literals, so a closing inside of one ends its placeholder too early.
But no expression ends with a brace, so the closing of the placeholder is never missed, and what stands behind it
is divided on its own (`segmentsFrom_append_closing`). So a path is divided at all slashes of its literals, and at
no others exactly if nothing divides its expressions (`dividing_embed`). In that case the expressions are found
again in the segments of the path (`keeps_segments`), and in the paths that are made of some of these.
-/

namespace CachedWorkflow.Path

open Template

/-! ## Where slashes stand -/

/-- The offsets of the slashes in a text that begins at an offset. All offsets count bytes. -/
def slashes (start : Nat) : Text → List Nat
  | [] => []
  | c :: rest =>
    if c = '/' then start :: slashes (start + c.utf8Size) rest else slashes (start + c.utf8Size) rest

/-- The offsets of the slashes between pieces of a text that begins at an offset. -/
def slashesBetween (start : Nat) : List Text → List Nat
  | piece :: next :: pieces =>
    (start + piece.byteLength) :: slashesBetween (start + piece.byteLength + 1) (next :: pieces)
  | _ => []

/-- The offsets of the slashes that divide a path. -/
def separators (path : Text) : List Nat := slashesBetween 0 (segments path)

/-- The offsets of the slashes in the literals of a template that begins at an offset. -/
def literalSlashes (start : Nat) : List Token → List Nat
  | [] => []
  | .literal text :: tokens => slashes start text ++ literalSlashes (start + text.byteLength) tokens
  | .expression source :: tokens =>
    literalSlashes (start + (tokenText (.expression source)).byteLength) tokens

/-- The offsets of the slashes that divide a text, read from inside or outside a placeholder. -/
def dividing (inside : Bool) (start : Nat) (text : Text) : List Nat :=
  slashesBetween start ((segmentsFrom inside text).1 :: (segmentsFrom inside text).2)

theorem slashesBetween_append (start : Nat) (text piece : Text) (pieces : List Text) :
    slashesBetween start ((text ++ piece) :: pieces)
      = slashesBetween (start + text.byteLength) (piece :: pieces) := by
  cases pieces with
  | nil => rfl
  | cons next pieces => rw [slashesBetween, slashesBetween, Text.byteLength_append, ← Nat.add_assoc start]

theorem dividing_eq_nil_iff {inside : Bool} (start : Nat) {text : Text} :
    dividing inside start text = [] ↔ IsWhole inside text := by
  have hjoin := segmentsFrom_join inside text
  unfold dividing IsWhole
  generalize segmentsFrom inside text = result at hjoin ⊢
  obtain ⟨segment, others⟩ := result
  cases others with
  | nil =>
    rw [List.flatMap_nil, List.append_nil] at hjoin
    exact ⟨fun _ => Prod.ext hjoin rfl, fun _ => rfl⟩
  | cons next others => exact ⟨(fun h => by cases h), fun h => by cases h⟩

/-! ## Behind an expression -/

/-- Puts pieces of two texts together: the last of the first text and the first of the second are one. -/
def glue (piece : Text) : List Text → Text × List Text → Text × List Text
  | [], (next, others) => (piece ++ next, others)
  | next :: pieces, rest => (piece, (glue next pieces rest).1 :: (glue next pieces rest).2)

theorem glue_cons (c : Char) (piece : Text) (pieces : List Text) (rest : Text × List Text) :
    glue (c :: piece) pieces rest = (c :: (glue piece pieces rest).1, (glue piece pieces rest).2) := by
  cases pieces <;> rfl

theorem slashesBetween_glue (start : Nat) (piece : Text) (pieces : List Text) (rest : Text × List Text) :
    slashesBetween start ((glue piece pieces rest).1 :: (glue piece pieces rest).2)
      = slashesBetween start (piece :: pieces) ++
        slashesBetween (start + (piece ++ pieces.flatMap ('/' :: ·)).byteLength) (rest.1 :: rest.2) := by
  induction pieces generalizing start piece with
  | nil => rw [List.flatMap_nil, List.append_nil, glue, slashesBetween_append]; rfl
  | cons next pieces ih =>
    have hslash : '/'.utf8Size = 1 := rfl
    rw [glue, slashesBetween, ih, slashesBetween, List.cons_append, List.flatMap_cons, List.cons_append,
      Text.byteLength_append piece, Text.byteLength_cons, hslash]
    simp only [Nat.add_assoc]

/-- A closing leads outside of placeholders, wherever it is read. -/
theorem segmentsFrom_closing (inside : Bool) (rest : Text) : segmentsFrom inside (closing ++ rest)
    = (closing ++ (segmentsFrom false rest).1, (segmentsFrom false rest).2) := by
  cases inside with
  | true =>
    have hclosing : segmentsFrom true ('}' :: '}' :: rest) = _ := segmentsFrom.eq_3 rest
    exact hclosing
  | false =>
    have hbrace : ∀ text, segmentsFrom false ('}' :: text)
        = ('}' :: (segmentsFrom false text).1, (segmentsFrom false text).2) := fun text =>
      segmentsFrom_outside_cons (fun h => by cases (List.cons_prefix_cons.mp h).1) (by decide)
    exact (hbrace _).trans (congrArg (fun r : Text × List Text => ('}' :: r.1, r.2)) (hbrace rest))

/-- What stands behind a text completes no closing that begins in front of it, unless the text ends with a
brace. -/
theorem not_closing_prefix_append {c : Char} {text : Text} (h : ¬ closing <+: c :: text)
    (hlast : (c :: text).getLast? ≠ some '}') (rest : Text) : ¬ closing <+: c :: (text ++ rest) := by
  rintro ⟨after, hafter⟩
  cases text with
  | nil =>
    cases hafter
    exact hlast rfl
  | cons d text =>
    cases hafter
    exact h ⟨text, rfl⟩

theorem getLast?_ne_of_cons {c d : Char} {text : Text} (h : (c :: text).getLast? ≠ some d) :
    text.getLast? ≠ some d := by
  cases text with
  | nil => simp
  | cons e text => rwa [List.getLast?_cons_cons] at h

/-- What stands behind the closing of an expression is divided on its own. -/
theorem segmentsFrom_append_closing {inside : Bool} {source : Text} (hlast : source.getLast? ≠ some '}')
    (rest : Text) : segmentsFrom inside (source ++ (closing ++ rest))
      = glue (segmentsFrom inside source).1 (segmentsFrom inside source).2
        (closing ++ (segmentsFrom false rest).1, (segmentsFrom false rest).2) := by
  fun_induction segmentsFrom inside source with
  | case1 source segment others hsource ih =>
    have hrest := ih (getLast?_ne_of_cons (getLast?_ne_of_cons (getLast?_ne_of_cons hlast)))
    rw [hsource] at hrest
    rw [List.cons_append, List.cons_append, List.cons_append, segmentsFrom, hrest, glue_cons, glue_cons, glue_cons]
  | case2 source segment others hsource ih =>
    have hrest := ih (getLast?_ne_of_cons hlast)
    rw [hsource] at hrest
    rw [List.cons_append, segmentsFrom, hrest, glue]
  | case3 source segment others hsource ih =>
    have hrest := ih (getLast?_ne_of_cons (getLast?_ne_of_cons hlast))
    rw [hsource] at hrest
    rw [List.cons_append, List.cons_append, segmentsFrom, hrest, glue_cons, glue_cons]
  | case4 inside c source hopening hslash hclosing segment others hsource ih =>
    have hrest := ih (getLast?_ne_of_cons hlast)
    rw [hsource] at hrest
    rw [List.cons_append, segmentsFrom_cons, hrest, glue_cons]
    · rintro rfl
      refine not_opening_prefix_append ?_ (by simp [closing])
      rintro ⟨after, hafter⟩
      cases hafter
      exact hopening after rfl rfl rfl
    · exact fun hin hc => hslash hin hc
    · rintro rfl
      refine not_closing_prefix_append ?_ hlast _
      rintro ⟨after, hafter⟩
      cases hafter
      exact hclosing after rfl rfl rfl
  | case5 inside => exact segmentsFrom_closing inside rest

/-! ## Slashes of a template -/

/-- In front of a placeholder a text is divided at all its slashes. -/
theorem dividing_append {text rest : Text} (htext : hasOpening text = false) (hrest : rest.head? ≠ some '{')
    (start : Nat) : dividing false start (text ++ rest)
      = slashes start text ++ dividing false (start + text.byteLength) rest := by
  induction text generalizing start with
  | nil => rfl
  | cons c text ih =>
    obtain ⟨hopening, htail⟩ := hasOpening_cons.mp htext
    have hstep := ih htail (start + c.utf8Size)
    rw [Nat.add_assoc, ← Text.byteLength_cons] at hstep
    rw [slashes]
    by_cases hc : c = '/'
    · subst hc
      rw [if_pos rfl, List.cons_append, List.cons_append, ← hstep, dividing, segmentsFrom]
      rfl
    · have hchar : segmentsFrom false (c :: (text ++ rest)) = _ :=
        segmentsFrom_outside_cons (not_opening_prefix_append hopening hrest) hc
      have hsize : Text.byteLength [c] = c.utf8Size := by simp
      rw [if_neg hc, ← hstep, List.cons_append, dividing, hchar, dividing, ← hsize]
      exact slashesBetween_append start [c] _ _

theorem segmentsFrom_expression {source : Text} (hsource : Encloses false source) (rest : Text) :
    segmentsFrom false (tokenText (.expression source) ++ rest)
      = glue (opening ++ (segmentsFrom true source).1) (segmentsFrom true source).2
        (closing ++ (segmentsFrom false rest).1, (segmentsFrom false rest).2) := by
  have htext : tokenText (.expression source) ++ rest = '$' :: '{' :: '{' :: (source ++ (closing ++ rest)) := by
    simp [tokenText, opening]
  rw [htext, segmentsFrom, segmentsFrom_append_closing hsource.getLast?_ne]
  simp only [opening, List.cons_append, List.nil_append, glue_cons]

theorem dividing_expression {source : Text} (hsource : Encloses false source) (start : Nat) (rest : Text) :
    dividing false start (tokenText (.expression source) ++ rest)
      = dividing true (start + opening.byteLength) source ++
        dividing false (start + (tokenText (.expression source)).byteLength) rest := by
  rw [dividing, segmentsFrom_expression hsource, slashesBetween_glue, slashesBetween_append, List.append_assoc,
    segmentsFrom_join, slashesBetween_append, Nat.add_assoc start, ← Text.byteLength_append]
  rfl

/-- A template is divided at all slashes of its literals, and at no others exactly if nothing divides its
expressions. -/
theorem dividing_embed {tokens : List Token} (h : IsTemplate tokens) (start : Nat) :
    (literalSlashes start tokens).Sublist (dividing false start (embed tokens)) ∧
      (dividing false start (embed tokens) = literalSlashes start tokens ↔
        ∀ source ∈ expressions tokens, IsWhole true source) := by
  induction h generalizing start with
  | @last text htext =>
    have hslashes : dividing false start (text ++ []) = literalSlashes start [.literal text] :=
      dividing_append htext (by simp) start
    rw [embed_literal, ← List.append_nil text, hslashes, List.append_nil]
    exact ⟨List.Sublist.refl _, iff_of_true rfl (by simp [expressions])⟩
  | @cons text source rest htext hsource _ ih =>
    obtain ⟨hsublist, hiff⟩ := ih (start + text.byteLength + (tokenText (.expression source)).byteLength)
    have hsources : expressions (.literal text :: .expression source :: rest) = source :: expressions rest := rfl
    rw [embed_literal_expression, dividing_append htext (by simp [tokenText, opening]), dividing_expression hsource, hsources,
      List.forall_mem_cons, literalSlashes, literalSlashes, List.append_cancel_left_eq]
    refine ⟨hsublist.trans (List.sublist_append_right _ _) |>.append_left _, ?_⟩
    rw [← hiff, ← dividing_eq_nil_iff (start + text.byteLength + opening.byteLength)]
    constructor
    · intro heq
      -- the literals have too few slashes for one more
      have hlength := congrArg List.length heq
      have hle := hsublist.length_le
      rw [List.length_append] at hlength
      have hnil : dividing true (start + text.byteLength + opening.byteLength) source = [] :=
        List.length_eq_zero_iff.mp (by omega)
      rw [hnil, List.nil_append] at heq
      exact ⟨hnil, heq⟩
    · rintro ⟨hnil, heq⟩
      rw [hnil, heq, List.nil_append]

/-- Without a closing nothing divides an expression. -/
theorem isWhole_of_not_closing {source : Text} (h : ¬ closing <:+: source) : IsWhole true source := by
  induction source with
  | nil => rw [IsWhole, segmentsFrom]
  | cons c source ih =>
    have hrest : segmentsFrom true source = (source, []) := ih fun hclosing => h (List.infix_cons hclosing)
    rw [IsWhole, segmentsFrom_inside_cons fun hbegins => h hbegins.isInfix, hrest]

/-! ## Texts with placeholders -/

/-- A text is a template with the given expressions. -/
def HasExpressions (text : Text) (sources : List Text) : Prop :=
  ∃ tokens, scan text = .ok tokens ∧ expressions tokens = sources

theorem HasExpressions.of_hasOpening {text : Text} (h : hasOpening text = false) : HasExpressions text [] :=
  ⟨[.literal text], scan_of_hasOpening_eq_false h, rfl⟩

section

variable {text rest source : Text} {sources others : List Text}

theorem HasExpressions.cons (h : HasExpressions text sources) {c : Char} (hopening : ¬ opening <+: c :: text) :
    HasExpressions (c :: text) sources := by
  obtain ⟨tokens, hscan, rfl⟩ := h
  obtain ⟨htokens, rfl⟩ := scan_eq_ok_iff.mp hscan
  cases htokens with
  | @last text htext =>
    refine .of_hasOpening (hasOpening_cons.mpr ⟨hopening, ?_⟩)
    simpa [embed, tokenText] using htext
  | @cons text source rest htext hsource hrest =>
    have hopening' : ¬ opening <+: c :: text := fun hbegins =>
      hopening (hbegins.trans ((List.prefix_cons_inj c).mpr (List.prefix_append text _)))
    exact ⟨.literal (c :: text) :: .expression source :: rest,
      scan_eq_ok_iff.mpr ⟨.cons (hasOpening_cons.mpr ⟨hopening', htext⟩) hsource hrest, rfl⟩, rfl⟩

theorem HasExpressions.expression (h : HasExpressions rest sources) (hsource : Encloses false source) :
    HasExpressions (tokenText (.expression source) ++ rest) (source :: sources) := by
  obtain ⟨tokens, hscan, rfl⟩ := h
  obtain ⟨htokens, rfl⟩ := scan_eq_ok_iff.mp hscan
  exact ⟨.literal [] :: .expression source :: tokens, scan_eq_ok_iff.mpr ⟨.cons rfl hsource htokens, rfl⟩, rfl⟩

theorem HasExpressions.literal (h : HasExpressions rest sources) (htext : hasOpening text = false)
    (hrest : rest.head? ≠ some '{') : HasExpressions (text ++ rest) sources := by
  induction text with
  | nil => exact h
  | cons c text ih =>
    obtain ⟨hopening, htail⟩ := hasOpening_cons.mp htext
    exact (ih htail).cons (not_opening_prefix_append hopening hrest)

theorem HasExpressions.append (h : HasExpressions text sources) (h' : HasExpressions rest others)
    (hrest : rest.head? ≠ some '{') : HasExpressions (text ++ rest) (sources ++ others) := by
  obtain ⟨tokens, hscan, rfl⟩ := h
  obtain ⟨htokens, rfl⟩ := scan_eq_ok_iff.mp hscan
  clear hscan
  induction htokens with
  | @last text htext =>
    rw [embed_literal]
    exact h'.literal htext hrest
  | @cons text source tokens htext hsource _ ih =>
    rw [embed_literal_expression, List.append_assoc, List.append_assoc]
    exact (ih.expression hsource).literal htext (by simp [tokenText, opening])

end

/-- Pieces of a text that are templates, and together have the given expressions. -/
def Keeps (pieces sources : List Text) : Prop :=
  ∃ parts, List.Forall₂ HasExpressions pieces parts ∧ parts.flatten = sources

section

variable {pieces : List Text} {rest source : Text} {sources : List Text}

theorem Keeps.intercalate (h : Keeps pieces sources) : HasExpressions (List.intercalate ['/'] pieces) sources := by
  obtain ⟨parts, hparts, rfl⟩ := h
  induction hparts with
  | nil => exact .of_hasOpening rfl
  | @cons piece part pieces parts hpiece hparts ih =>
    cases hparts with
    | nil => simpa using hpiece
    | @cons next nextPart pieces parts hnext hparts =>
      have hslash := ih.cons (c := '/') fun hbegins => by cases (List.cons_prefix_cons.mp hbegins).1
      rw [List.intercalate_cons_cons, List.append_assoc, List.flatten_cons]
      exact hpiece.append hslash (by simp)

theorem Keeps.sublist (h : Keeps pieces sources) {pieces' : List Text} (hsublist : pieces'.Sublist pieces) :
    ∃ sources', sources'.Sublist sources ∧ Keeps pieces' sources' := by
  obtain ⟨parts, hparts, rfl⟩ := h
  induction hsublist generalizing parts with
  | slnil => exact ⟨[], List.nil_sublist _, [], .nil, rfl⟩
  | cons piece _ ih =>
    cases hparts with
    | @cons _ part _ parts _ hrest =>
      obtain ⟨sources', hsources, hkeeps⟩ := ih parts hrest
      exact ⟨sources', hsources.trans (List.sublist_append_right part parts.flatten), hkeeps⟩
  | cons_cons piece _ ih =>
    cases hparts with
    | @cons _ part _ parts hpiece hrest =>
      obtain ⟨_, hsources, parts', hparts', rfl⟩ := ih parts hrest
      exact ⟨_, hsources.append_left part, part :: parts', .cons hpiece hparts', rfl⟩

theorem Keeps.of_prefix (h : Keeps pieces sources) {front : List Text} (hfront : front <+: pieces) :
    ∃ sources', sources' <+: sources ∧ Keeps front sources' := by
  obtain ⟨parts, hparts, rfl⟩ := h
  rw [List.prefix_iff_eq_take] at hfront
  rw [hfront]
  refine ⟨(parts.take front.length).flatten, ⟨(parts.drop front.length).flatten, ?_⟩,
    parts.take front.length, List.forall₂_take _ hparts, rfl⟩
  rw [← List.flatten_append, List.take_append_drop]

/-! ## Segments with placeholders -/

theorem Keeps.segments_cons (h : Keeps (segments rest) sources) {c : Char} (hopening : ¬ opening <+: c :: rest) :
    Keeps (segments (c :: rest)) sources := by
  obtain ⟨parts, hparts, rfl⟩ := h
  by_cases hc : c = '/'
  · rw [hc, segments_slash]
    exact ⟨[] :: parts, .cons (.of_hasOpening rfl) hparts, rfl⟩
  · rw [segments] at hparts ⊢
    rw [segmentsFrom_outside_cons hopening hc]
    cases hparts with
    | cons hsegment hothers =>
      refine ⟨_, .cons (hsegment.cons fun hbegins => hopening ?_) hothers, rfl⟩
      exact hbegins.trans ((List.prefix_cons_inj c).mpr (prefix_segmentsFrom false rest))

theorem Keeps.segments_expression (h : Keeps (segments rest) sources) (hsource : Encloses false source)
    (hwhole : IsWhole true source) :
    Keeps (segments (tokenText (.expression source) ++ rest)) (source :: sources) := by
  obtain ⟨parts, hparts, rfl⟩ := h
  have hglued : segments (tokenText (.expression source) ++ rest)
      = (tokenText (.expression source) ++ (segmentsFrom false rest).1) :: (segmentsFrom false rest).2 := by
    have hwhole' : segmentsFrom true source = (source, []) := hwhole
    rw [segments, segmentsFrom_expression hsource, hwhole']
    simp [glue, tokenText]
  rw [hglued]
  rw [segments] at hparts
  cases hparts with
  | cons hsegment hothers => exact ⟨_, .cons (hsegment.expression hsource) hothers, rfl⟩

theorem Keeps.segments_literal {text : Text} (h : Keeps (segments rest) sources) (htext : hasOpening text = false)
    (hrest : rest.head? ≠ some '{') : Keeps (segments (text ++ rest)) sources := by
  induction text with
  | nil => exact h
  | cons c text ih =>
    obtain ⟨hopening, htail⟩ := hasOpening_cons.mp htext
    exact (ih htail).segments_cons (not_opening_prefix_append hopening hrest)

end

/-- If nothing divides the expressions of a template, they are found again in its segments. -/
theorem keeps_segments {tokens : List Token} (h : IsTemplate tokens)
    (hwhole : ∀ source ∈ expressions tokens, IsWhole true source) :
    Keeps (segments (embed tokens)) (expressions tokens) := by
  induction h with
  | @last text htext =>
    have hempty : Keeps (segments []) [] := ⟨[[]], .cons (.of_hasOpening rfl) .nil, rfl⟩
    rw [embed_literal, ← List.append_nil text]
    exact hempty.segments_literal htext (by simp)
  | @cons text source rest htext hsource _ ih =>
    have hsources : expressions (.literal text :: .expression source :: rest) = source :: expressions rest := rfl
    rw [hsources, List.forall_mem_cons] at hwhole
    rw [embed_literal_expression, hsources]
    exact ((ih hwhole.2).segments_expression hsource hwhole.1).segments_literal htext (by simp [tokenText, opening])

theorem exists_hasExpressions_normalize {path : Text} {sources : List Text} (h : Keeps (segments path) sources) :
    ∃ kept, kept.Sublist sources ∧ HasExpressions (normalize path) kept := by
  obtain ⟨kept, hkept, hkeeps⟩ := h.sublist (foldl_push_sublist (isAbsolute path) (segments path) [])
  have hremaining : HasExpressions (remaining path) kept := hkeeps.intercalate
  rw [normalize_eq]
  split
  · exact ⟨kept, hkept, hremaining.cons fun hbegins => by cases (List.cons_prefix_cons.mp hbegins).1⟩
  · split
    · exact ⟨[], List.nil_sublist _, .of_hasOpening rfl⟩
    · exact ⟨kept, hkept, hremaining⟩

theorem exists_hasExpressions_dirname {path : Text} {sources : List Text} (h : Keeps (segments path) sources) :
    ∃ kept, kept <+: sources ∧ HasExpressions (dirname path) kept := by
  obtain ⟨front, hfront, hdirname | hslashes⟩ := exists_dirname_eq path
  · obtain ⟨kept, hkept, hkeeps⟩ := h.of_prefix (hfront.trans (List.dropLast_prefix _))
    exact ⟨kept, hkept, hdirname ▸ hkeeps.intercalate⟩
  · refine ⟨[], List.nil_prefix, .of_hasOpening ?_⟩
    rw [Bool.eq_false_iff, ne_eq, hasOpening_iff]
    intro hopening
    have hdollar := hslashes '$' (hopening.subset (by decide))
    cases hdollar

/-! ## Agreement -/

/-- A path is divided at every slash that scanning finds in a literal, and at no other exactly if nothing divides
its expressions. That is so if no expression has a closing, not even in a string literal. If the slashes agree,
each segment is a template, and their expressions are those of the path: none is split. The normal form of the
path and the path before its last segment have some of them, unaltered and in their order. -/
theorem separators_agree {path : Text} {tokens : List Token} (hscan : scan path = .ok tokens) :
    (literalSlashes 0 tokens).Sublist (separators path) ∧
      (separators path = literalSlashes 0 tokens ↔ ∀ source ∈ expressions tokens, IsWhole true source) ∧
      ((∀ source ∈ expressions tokens, ¬ closing <:+: source) → separators path = literalSlashes 0 tokens) ∧
      (separators path = literalSlashes 0 tokens →
        Keeps (segments path) (expressions tokens) ∧
        (∃ kept, kept.Sublist (expressions tokens) ∧ HasExpressions (normalize path) kept) ∧
        ∃ kept, kept <+: expressions tokens ∧ HasExpressions (dirname path) kept) := by
  obtain ⟨htokens, rfl⟩ := scan_eq_ok_iff.mp hscan
  obtain ⟨hsublist, hiff⟩ := dividing_embed htokens 0
  refine ⟨hsublist, hiff, fun hnone => ?_, fun hequal => ?_⟩
  · exact hiff.mpr fun source hsource => isWhole_of_not_closing (hnone source hsource)
  · have hkeeps := keeps_segments htokens (hiff.mp hequal)
    exact ⟨hkeeps, exists_hasExpressions_normalize hkeeps, exists_hasExpressions_dirname hkeeps⟩

/-- A path with a closing in a literal, behind which no slash stands, and with a slash in another literal. -/
def closedPath : Text := "a/$\x7b\x7b f('\x7d\x7d') \x7d\x7d/../$\x7b\x7b 'b/c' \x7d\x7d"

theorem separators_agree_closedPath : ∃ tokens, scan closedPath = .ok tokens ∧
    expressions tokens = [" f('\x7d\x7d') ", " 'b/c' "] ∧ separators closedPath = literalSlashes 0 tokens ∧
      Keeps (segments closedPath) [" f('\x7d\x7d') ", " 'b/c' "] := by
  have hscan : scan closedPath = .ok [.literal "a/", .expression " f('\x7d\x7d') ", .literal "/../",
      .expression " 'b/c' ", .literal []] := by decide +kernel
  obtain ⟨-, hiff, -, hkept⟩ := separators_agree hscan
  have hequal := hiff.mpr (List.forall_mem_cons.mpr ⟨rfl, List.forall_mem_cons.mpr ⟨rfl, by simp⟩⟩)
  exact ⟨_, hscan, rfl, hequal, (hkept hequal).1⟩

/-- A path with a closing in a literal, behind which slashes stand. -/
def quotedPath : Text := "$\x7b\x7b 'a\x7d\x7d//b' \x7d\x7d"

/-- Slashes behind a closing divide a literal, and the expression becomes another one. -/
theorem separators_disagree_quotedPath :
    scan quotedPath = .ok [.literal [], .expression " 'a\x7d\x7d//b' ", .literal []] ∧
      separators quotedPath = [8, 9] ∧ normalize quotedPath = "$\x7b\x7b 'a\x7d\x7d/b' \x7d\x7d" ∧
      (¬ ∀ path tokens, scan path = .ok tokens → separators path = literalSlashes 0 tokens) ∧
      ¬ ∀ path tokens, scan path = .ok tokens →
        ∃ kept, kept.Sublist (expressions tokens) ∧ HasExpressions (normalize path) kept := by
  have hscan : scan quotedPath = .ok [.literal [], .expression " 'a\x7d\x7d//b' ", .literal []] := by
    decide +kernel
  have hseparators : separators quotedPath = [8, 9] := by decide +kernel
  have hnormal : normalize quotedPath = "$\x7b\x7b 'a\x7d\x7d/b' \x7d\x7d" := by decide +kernel
  refine ⟨hscan, hseparators, hnormal, fun h => ?_, fun h => ?_⟩
  · have hequal := h quotedPath _ hscan
    rw [hseparators] at hequal
    cases hequal
  · obtain ⟨kept, hsublist, tokens, hscan', rfl⟩ := h quotedPath _ hscan
    have hother : scan (normalize quotedPath) = .ok [.literal [], .expression " 'a\x7d\x7d/b' ", .literal []] := by
      decide +kernel
    rw [hother] at hscan'
    cases hscan'
    have hmem := hsublist.subset (List.mem_singleton.mpr rfl)
    have hdifferent : " 'a\x7d\x7d/b' ".toList ∉ expressions [.literal [], .expression " 'a\x7d\x7d//b' ", .literal []] := by
      decide
    exact hdifferent hmem

end CachedWorkflow.Path
