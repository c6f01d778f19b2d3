import CachedWorkflow.Proofs.Expression.Replacing
import CachedWorkflow.Proofs.Pipeline.Binding
import CachedWorkflow.Proofs.Template.Embedding
import CachedWorkflow.Proofs.Template.Rewiring

/-!
# Proofs: inlining inputs

Where an input is mentioned in a larger expression, or next to other text, its expression is put in as it is,
without parentheses. So an operator in it may take operands from around it: the outcome is the expression with
those of the inputs in the place of the references exactly if each of them binds tightly enough for its place
(`substitute_inlines`).
-/

namespace CachedWorkflow

open Renaming Template Lexeme

namespace Binding

/-! ## Names of inputs -/

/-- The names of inputs are bound to these expressions, as far as any are given. -/
def AreBound (inputs : Object) (trees : Text → Option ExprTree) : Prop :=
  ∀ name value tree, (name, value) ∈ ofInputs inputs → trees name = some tree →
    ∃ expression, value.toExpression = .ok expression ∧ IsParse expression tree

/-- An input that is a placeholder is bound to the expression in it. -/
theorem areBound_of_placeholders {inputs : Object} {trees : Text → Option ExprTree}
    (hkeys : ∀ key ∈ inputs.keys, IsName key) (hd : inputs.Distinct)
    (h : ∀ name tree, trees name = some tree → ∃ key text expression, name = "inputs." ++ key ∧
      inputs.get? key = some (.string text) ∧ fullExpression? text = .ok (some expression) ∧
        IsParse expression tree) : AreBound inputs trees := by
  intro name value tree hmem htree
  obtain ⟨key, text, expression, rfl, hkey, hfull, hparse⟩ := h name tree htree
  have hname : IsName key := hkeys key (Object.mem_keys_of_get? hkey)
  obtain rfl : value = .string text := eq_of_mem_ofInputs hkeys hd hname hkey hmem
  refine ⟨expression, ?_, hparse⟩
  rw [Json.toExpression, Template.toExpression, hfull]
  rfl

section

variable {inputs : Object} {inlined : Renaming}

/-- All names of inputs begin with the same word, if they are references. -/
theorem splitDots_of_mem_ofInputs {pair : Text × Json} (hmem : pair ∈ ofInputs inputs)
    (hjoins : ∀ c ∈ pair.1, joinsNext c = true) : (splitDots pair.1).1 = "inputs" := by
  obtain ⟨suffix, hname, haccess⟩ := exists_access_of_mem_ofValue _ _ pair hmem
  rw [hname] at hjoins ⊢
  have htail : ∀ c ∈ suffix, joinsNext c = true := fun c hc => hjoins c (List.mem_append_right _ hc)
  have hend : ∀ c ∈ suffix.head?, isIdentifierChar c = false := by
    intro c hc
    rcases haccess c hc with rfl | rfl
    · decide
    · decide
  have hparts : ∃ back, splitDots ("inputs" ++ suffix)
      = ((splitDots "inputs").1, (splitDots "inputs").2 ++ back) ∧ suffix = back.flatMap ('.' :: ·) :=
    splitDots_of_heads htail hend
  obtain ⟨back, hsplit, -⟩ := hparts
  rw [hsplit]
  rfl

theorem isReference_of_mem_ofInputs {pair : Text × Json} (hmem : pair ∈ ofInputs inputs)
    (hjoins : ∀ c ∈ pair.1, joinsNext c = true) : IsReference pair.1 := by
  obtain ⟨suffix, hname, -⟩ := exists_access_of_mem_ofValue _ _ pair hmem
  refine ⟨hjoins, 'i', ?_, by decide⟩
  rw [hname]
  rfl

/-- The names of inputs that are references are replaced by the expressions that they are bound to. -/
theorem inlines_of_toRenaming {trees : Text → Option ExprTree} (hbound : AreBound inputs trees)
    (hinlined : (ofInputs inputs).toRenaming = .ok inlined) :
    Inlines (inlined.filter fun pair => pair.1.all joinsNext) (Object.keys (ofInputs inputs)) trees := by
  -- every pair comes from a name and the value that it is bound to
  have hpairs : ∀ pair ∈ inlined.filter fun pair => pair.1.all joinsNext, (∀ c ∈ pair.1, joinsNext c = true) ∧
      ∃ value, (pair.1, value) ∈ ofInputs inputs ∧ value.toExpression = .ok pair.2 := by
    intro pair hpair
    obtain ⟨hmem, hjoins⟩ := List.mem_filter.mp hpair
    obtain ⟨⟨name, value⟩, hvalue, hname, hexpression⟩ := exists_of_mem_right (toRenaming_eq_ok.mp hinlined) hmem
    exact ⟨List.all_eq_true.mp hjoins, value, hname.symm ▸ hvalue, hexpression⟩
  refine ⟨?_, ?_, ?_, ?_, ?_⟩
  · intro pair hpair
    obtain ⟨hjoins, value, hmem, -⟩ := hpairs pair hpair
    exact isReference_of_mem_ofInputs hmem hjoins
  · intro pair hpair
    obtain ⟨hjoins, value, hmem, -⟩ := hpairs pair hpair
    rw [splitDots_of_mem_ofInputs hmem hjoins]
    exact ⟨by decide, by decide⟩
  · intro name hname
    rw [← names_of_toRenaming hinlined, List.mem_map]
    constructor
    · rintro ⟨pair, hpair, rfl⟩
      exact ⟨pair, List.mem_filter.mpr ⟨hpair, List.all_eq_true.mpr hname.joins⟩, rfl⟩
    · rintro ⟨pair, hpair, rfl⟩
      exact ⟨pair, (List.mem_filter.mp hpair).1, rfl⟩
  · intro pair hpair tree htree
    obtain ⟨-, value, hmem, hexpression⟩ := hpairs pair hpair
    obtain ⟨expression, hexpression', hparse⟩ := hbound pair.1 value tree hmem htree
    rw [hexpression] at hexpression'
    obtain rfl := Except.ok.inj hexpression'
    exact hparse
  · intro pair hpair
    obtain ⟨-, value, -, hexpression⟩ := hpairs pair hpair
    rw [← trimmed_toExpression hexpression]
    exact Text.getLast?_trimmed

/-! ## Expressions with inputs -/

/-- A text is an expression whose references to inputs are known, and this is the expression with those of the
inputs in their place. -/
structure IsInlining (inputs : Object) (trees : Text → Option ExprTree) (source : Text)
    (body outcome : ExprTree) : Prop where
  isParse : IsParse source body
  inline : body.inline (Object.keys (ofInputs inputs)) trees = some outcome
  /-- No name of an item is mentioned, which would be no reference. -/
  spared : ∀ name ∈ Object.keys (ofInputs inputs), ¬ IsReference name → ¬ Mentions source name

variable {trees : Text → Option ExprTree} {source : Text} {body outcome : ExprTree}

/-- The inlined text is read as the symbols of the expression with those of the inputs in the place of
references, whatever the expression is. -/
theorem IsInlining.readsAs (h : IsInlining inputs trees source body outcome) (hbound : AreBound inputs trees)
    (hinlined : (ofInputs inputs).toRenaming = .ok inlined) :
    ∃ lexemes, ReadsAs (inlined.apply source) lexemes outcome.symbols := by
  have hspared : ∀ pair ∈ inlined, pair.1.all joinsNext = false → ¬ Mentions source pair.1 := by
    intro pair hpair hjoins
    refine h.spared pair.1 ?_ fun hreference => ?_
    · rw [← names_of_toRenaming hinlined]
      exact List.mem_map_of_mem hpair
    · rw [List.all_eq_true.mpr hreference.joins] at hjoins
      cases hjoins
  have hquotes : ∀ pair ∈ inlined, pair.1.all joinsNext = true → '\'' ∉ pair.1 := by
    intro pair _ hjoins hquote
    exact ne_quote_of_joinsNext (List.all_eq_true.mp hjoins '\'' hquote) rfl
  have hfilter : Renaming.apply (inlined.filter fun pair => pair.1.all joinsNext) source = inlined.apply source :=
    apply_filter hspared hquotes
  rw [← hfilter]
  exact h.isParse.readsAs_apply (inlines_of_toRenaming hbound hinlined) h.inline

/-- So it is this expression exactly if the expressions of the inputs bind tightly enough. -/
theorem IsInlining.isParse_iff (h : IsInlining inputs trees source body outcome) (hbound : AreBound inputs trees)
    (hinlined : (ofInputs inputs).toRenaming = .ok inlined) :
    IsParse (inlined.apply source) outcome ↔ body.Fits (Object.keys (ofInputs inputs)) trees 0 := by
  have htrees : ∀ name ∈ Object.keys (ofInputs inputs), ∀ tree, trees name = some tree → tree.WellFormed := by
    intro name hname tree htree
    obtain ⟨⟨_, value⟩, hmem, rfl⟩ := List.mem_map.mp hname
    obtain ⟨expression, -, hparse⟩ := hbound _ value tree hmem htree
    exact hparse.wellFormed
  have hiff := ExprTree.wellFormed_inline_iff htrees h.inline h.isParse.wellFormed (Nat.zero_le _)
  rw [← hiff]
  constructor
  · intro hparse
    exact ⟨hparse.wellFormed, Nat.zero_le _⟩
  · rintro ⟨hwell, -⟩
    exact ⟨h.readsAs hbound hinlined, hwell⟩

/-- Nor does it mean the same otherwise. -/
theorem IsInlining.means_iff (h : IsInlining inputs trees source body outcome) (hbound : AreBound inputs trees)
    (hinlined : (ofInputs inputs).toRenaming = .ok inlined) :
    Means (inlined.apply source) outcome.ungrouped ↔ body.Fits (Object.keys (ofInputs inputs)) trees 0 := by
  rw [← h.isParse_iff hbound hinlined]
  constructor
  · rintro ⟨tree, hparse, hungrouped⟩
    obtain ⟨lexemes, hreads⟩ := hparse.readsAs
    obtain ⟨lexemes', hreads'⟩ := h.readsAs hbound hinlined
    obtain rfl := ExprTree.eq_of_ungrouped (hreads.unique hreads') hungrouped
    exact hparse
  · intro hparse
    exact ⟨outcome, hparse, rfl⟩

end

/-- What becomes of a leaf in which inputs are mentioned, next to other text or in larger expressions. Each of its
expressions is the one that was written, with the expressions of the inputs in the place of the references, exactly
if these bind tightly enough for their places; otherwise it does not even mean the same. Names, members, calls and
what stands in parentheses always do. The fragments of the leaf stay the ones that they are. -/
theorem substitute_inlines {inputs : Object} {document result : Json} {position : List Json.Step} {leaf : Text}
    {tokens : List Token} {trees : Text → Option ExprTree} (hbound : AreBound inputs trees)
    (hleaf : document.at? position = some (.string leaf)) (hscan : scan leaf = .ok tokens)
    (hother : ∀ name, fullExpression? leaf = .ok (some name) → (ofInputs inputs).lookup? name = none)
    (hresult : (ofInputs inputs).substitute document = .ok result) :
    ∃ inlined, (ofInputs inputs).toRenaming = .ok inlined ∧
      result.at? position = some (.string (embed (tokens.map inlined.rewritten))) ∧
      ((∀ source, .expression source ∈ tokens → ∃ body outcome, IsInlining inputs trees source body outcome) →
        scan (embed (tokens.map inlined.rewritten)) = .ok (tokens.map inlined.rewritten)) ∧
      ∀ source, .expression source ∈ tokens → ∀ body outcome, IsInlining inputs trees source body outcome →
        (IsParse (inlined.apply source) outcome ↔ body.Fits (Object.keys (ofInputs inputs)) trees 0) ∧
        (Means (inlined.apply source) outcome.ungrouped ↔ body.Fits (Object.keys (ofInputs inputs)) trees 0) ∧
        ((∀ name ∈ Object.keys (ofInputs inputs), ∀ tree, trees name = some tree → 7 ≤ tree.level) →
          IsParse (inlined.apply source) outcome) := by
  obtain ⟨inlined, hinlined, hpasses⟩ := bind_eq_ok.mp hresult
  obtain ⟨between, hfirst, hsecond⟩ := bind_eq_ok.mp hpasses
  refine ⟨inlined, hinlined, substitute_other hleaf hscan hother hfirst hsecond, ?_, ?_⟩
  · intro hall
    refine scan_rewritten_of_encloses hscan fun source hsource => ?_
    obtain ⟨body, outcome, hinlining⟩ := hall source hsource
    obtain ⟨lexemes, hreads⟩ := hinlining.readsAs hbound hinlined
    have hencloses := hreads.reads.encloses hreads.lexing.chained
    rwa [hreads.lexing.join_eq] at hencloses
  · intro source _ body outcome hinlining
    have hparse := hinlining.isParse_iff hbound hinlined
    refine ⟨hparse, hinlining.means_iff hbound hinlined, fun hlevel => ?_⟩
    exact hparse.mpr (ExprTree.fits_of_forall_level hlevel (Nat.zero_le 7) body)

/-- One input is a disjunction, and another one the same in parentheses. -/
def choiceInputs : Object :=
  [("k", .string (placeholder "a || b")), ("g", .string (placeholder "(a || b)"))]

/-- The disjunction. -/
def choice : ExprTree := .binary .or (.name "a") (.name "b")

def choiceTrees (name : Text) : Option ExprTree :=
  if name = "inputs.k" then some choice else if name = "inputs.g" then some (.group choice) else none

/-- A conjunction of one of these inputs and a name. -/
def choiceBody (key : Text) : ExprTree := .binary .and (.member (.name "inputs") key) (.name "c")

/-- A child with both conjunctions in one leaf. -/
def choiceDocument : Json :=
  .object [("env", .string ("x " ++ placeholder "inputs.k && c" ++ " " ++ placeholder "inputs.g && c"))]

/-- What it becomes. -/
def chosenDocument : Json :=
  .object [("env", .string ("x " ++ placeholder "a || b && c" ++ " " ++ placeholder "(a || b) && c"))]

theorem at?_choiceDocument : choiceDocument.at? [.member "env"]
    = some (.string ("x " ++ placeholder "inputs.k && c" ++ " " ++ placeholder "inputs.g && c")) := by
  decide +kernel

theorem substitute_choice : (ofInputs choiceInputs).substitute choiceDocument = .ok chosenDocument := by
  decide +kernel

theorem isParse_choice : IsParse "a || b" choice := by
  have hpair : pair? '|' '|' = some (.operator .or) := rfl
  have ha : IsParse "a" (.name "a") := isParse_word (by decide) (by decide)
  have hb : IsParse "b" (.name "b") := isParse_word (by decide) (by decide)
  exact ha.binary hb hpair (by decide) (by decide) (by decide)

theorem isParse_choiceBody {key : Text} (hkey : isIdentifier key = true) :
    IsParse (" inputs." ++ key ++ " && c ") (choiceBody key) := by
  have hpair : pair? '&' '&' = some (.operator .and) := rfl
  have hmember : IsParse (chainOf "inputs" [key]) (.member (.name "inputs") key) :=
    isParse_members (by decide) (by decide) (List.forall_mem_singleton.mpr hkey)
  have hc : IsParse "c" (.name "c") := isParse_word (by decide) (by decide)
  have hboth := (hmember.binary hc hpair (Nat.le_of_ble_eq_true rfl) (by decide) (by decide)).padded
    (by simp [chainOf])
  simpa [chainOf, choiceBody] using hboth

theorem areBound_choice : AreBound choiceInputs choiceTrees := by
  refine areBound_of_placeholders (by decide +kernel) (by decide +kernel) fun name tree htree => ?_
  rw [choiceTrees] at htree
  split at htree
  · next hname =>
    obtain rfl := Option.some.inj htree
    exact ⟨"k", _, _, hname, rfl, by decide +kernel, isParse_choice⟩
  · split at htree
    · next hname =>
      obtain rfl := Option.some.inj htree
      have hgroup : IsParse "(a || b)" (.group choice) := isParse_group_iff.mpr ⟨isParse_choice, by decide⟩
      exact ⟨"g", _, _, hname, rfl, by decide +kernel, hgroup⟩
    · cases htree

theorem isInlining_choice {key source : Text} {tree : ExprTree} (hkey : isIdentifier key = true)
    (hsource : source = " inputs." ++ key ++ " && c ")
    (hinline : (choiceBody key).inline (Object.keys (ofInputs choiceInputs)) choiceTrees
      = some (.binary .and tree (.name "c"))) :
    IsInlining choiceInputs choiceTrees source (choiceBody key) (.binary .and tree (.name "c")) := by
  refine ⟨hsource ▸ isParse_choiceBody hkey, hinline, fun name hname hnot => ?_⟩
  have hjoins : ∀ name ∈ Object.keys (ofInputs choiceInputs), ∀ c ∈ name, joinsNext c = true := by
    decide +kernel
  obtain ⟨pair, hmem, rfl⟩ := List.mem_map.mp hname
  exact absurd (isReference_of_mem_ofInputs hmem (hjoins _ hname)) hnot

/-- Only the input in parentheses is inlined as it is meant. -/
theorem substitute_inlines_choice : ∃ inlined, (ofInputs choiceInputs).toRenaming = .ok inlined ∧
    ¬ Means (inlined.apply " inputs.k && c ") (.binary .and choice (.name "c")) ∧
    Means (inlined.apply " inputs.g && c ") (.binary .and choice (.name "c")) := by
  have hscan : scan ("x " ++ placeholder "inputs.k && c" ++ " " ++ placeholder "inputs.g && c")
      = .ok [.literal "x ", .expression " inputs.k && c ", .literal " ", .expression " inputs.g && c ",
        .literal []] := by
    decide +kernel
  have hfull : fullExpression? ("x " ++ placeholder "inputs.k && c" ++ " " ++ placeholder "inputs.g && c")
      = .ok none := by
    decide +kernel
  obtain ⟨inlined, hinlined, -, -, hsources⟩ := substitute_inlines areBound_choice at?_choiceDocument hscan
    (fun name hname => by rw [hfull] at hname; cases hname) substitute_choice
  have hk : IsInlining choiceInputs choiceTrees " inputs.k && c " (choiceBody "k")
      (.binary .and choice (.name "c")) := isInlining_choice (by decide) rfl (by decide +kernel)
  have hg : IsInlining choiceInputs choiceTrees " inputs.g && c " (choiceBody "g")
      (.binary .and (.group choice) (.name "c")) := isInlining_choice (by decide) rfl (by decide +kernel)
  obtain ⟨-, hmeans, -⟩ := hsources _ (by simp) _ _ hk
  obtain ⟨-, hmeans', -⟩ := hsources _ (by simp) _ _ hg
  refine ⟨inlined, hinlined, fun h => ?_, hmeans'.mpr ?_⟩
  · have hfits := hmeans.mp h
    have hplace : (("inputs.k" : Text), 2) ∈ (choiceBody "k").places (Object.keys (ofInputs choiceInputs)) 0 := by
      decide +kernel
    exact absurd (hfits _ hplace choice rfl) (by decide)
  · have hplaces : (choiceBody "g").places (Object.keys (ofInputs choiceInputs)) 0 = [(("inputs.g" : Text), 2)] := by
      decide +kernel
    rw [ExprTree.Fits, hplaces, List.forall_mem_singleton]
    intro tree htree
    obtain rfl : ExprTree.group choice = tree := Option.some.inj htree
    decide

/-- An input that is a placeholder is not always inlined as it is meant. -/
theorem not_forall_inlined_means :
    ¬ ∀ (inputs : Object) (document result : Json) (position : List Json.Step) (leaf key text expression : Text)
        (tokens : List Token) (source : Text) (tree body outcome : ExprTree),
      (∀ key ∈ inputs.keys, IsName key) → inputs.Distinct → inputs.get? key = some (.string text) →
      fullExpression? text = .ok (some expression) → IsParse expression tree →
      document.at? position = some (.string leaf) → scan leaf = .ok tokens → fullExpression? leaf = .ok none →
      .expression source ∈ tokens → IsParse source body →
      body.inline ["inputs." ++ key] (fun _ => some tree) = some outcome →
      (ofInputs inputs).substitute document = .ok result →
      ∃ inlined, (ofInputs inputs).toRenaming = .ok inlined ∧
        result.at? position = some (.string (embed (tokens.map inlined.rewritten))) ∧
        Means (inlined.apply source) outcome.ungrouped := by
  intro h
  have hpair : pair? '&' '&' = some (.operator .and) := rfl
  have hpair' : pair? '|' '|' = some (.operator .or) := rfl
  have hbody : IsParse " inputs.k && c " (choiceBody "k") := by
    have hkey : isIdentifier "k" = true := by decide
    exact isParse_choiceBody hkey
  obtain ⟨inlined, hinlined, -, hmeans⟩ := h choiceInputs choiceDocument chosenDocument [.member "env"] _ "k" _
    "a || b" _ " inputs.k && c " choice (choiceBody "k") (.binary .and choice (.name "c"))
    (by decide +kernel) (by decide +kernel) rfl (by decide +kernel) isParse_choice at?_choiceDocument rfl
    (by decide +kernel) (by decide +kernel) hbody (by decide +kernel) substitute_choice
  -- the conjunction takes one operand of the disjunction
  have hrenamed : (ofInputs choiceInputs).toRenaming.map (fun inlined => inlined.apply " inputs.k && c ")
      = .ok " a || b && c " := by
    decide +kernel
  rw [hinlined] at hrenamed
  have happly : inlined.apply " inputs.k && c " = " a || b && c " := Except.ok.inj hrenamed
  have ha : IsParse "a" (.name "a") := isParse_word (by decide) (by decide)
  have hb : IsParse "b" (.name "b") := isParse_word (by decide) (by decide)
  have hc : IsParse "c" (.name "c") := isParse_word (by decide) (by decide)
  have hright : IsParse "b && c" (.binary .and (.name "b") (.name "c")) :=
    hb.binary hc hpair (by decide) (by decide) (by decide)
  have hwhole : IsParse " a || b && c " (.binary .or (.name "a") (.binary .and (.name "b") (.name "c"))) :=
    (ha.binary hright hpair' (by decide) (by decide) (by decide)).padded (by decide)
  rw [happly] at hmeans
  have heq := hmeans.unique ⟨_, hwhole, rfl⟩
  revert heq
  decide

end Binding

end CachedWorkflow
