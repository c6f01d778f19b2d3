import CachedWorkflow.Proofs.Expression.Reading

/-!
# Proofs: expressions put together

How the text of an expression is made from those of its parts. Parentheses keep what is in them apart from the
text around them: it is an operand if, and only if, it is an expression by itself (`ReadsAs.enclosed_iff`).
-/

namespace CachedWorkflow

open Lexeme Renaming

/-! ## Parts of what is read -/

theorem apart_head_of_append {front back : List Lexeme} {lexeme : Lexeme}
    (h : ∀ next ∈ (front ++ back).head?, lexeme.Apart next) : ∀ next ∈ front.head?, lexeme.Apart next := by
  intro next hnext
  refine h next ?_
  rw [List.head?_append, Option.mem_def.mp hnext]
  rfl

/-- What is read is read piece by piece, unless an operator goes across. -/
theorem Reads.of_append {front back : List Lexeme} {symbols : List Symbol} (h : Reads (front ++ back) symbols)
    (hapart : ∀ last ∈ front.getLast?, ∀ next ∈ back.head?, last.Apart next) :
    ∃ first second, Reads front first ∧ Reads back second ∧ symbols = first ++ second := by
  generalize hlexemes : front ++ back = lexemes at h
  -- nothing is in front of `back`, or the first lexeme in front of it is the one that is read
  induction h generalizing front with
  | nil =>
    obtain ⟨rfl, rfl⟩ := List.append_eq_nil_iff.mp hlexemes
    exact ⟨[], [], .nil, .nil, rfl⟩
  | literal hrest ih =>
    rcases front with - | ⟨lexeme, front⟩
    · obtain rfl := hlexemes
      exact ⟨[], _, .nil, .literal hrest, rfl⟩
    · obtain ⟨rfl, hfront⟩ := List.cons.inj hlexemes
      obtain ⟨first, second, hfirst, hsecond, rfl⟩ := ih (apart_of_cons hapart) hfront
      exact ⟨_, second, .literal hfirst, hsecond, rfl⟩
  | chain hrun hrest ih =>
    rcases front with - | ⟨lexeme, front⟩
    · obtain rfl := hlexemes
      exact ⟨[], _, .nil, .chain hrun hrest, rfl⟩
    · obtain ⟨rfl, hfront⟩ := List.cons.inj hlexemes
      obtain ⟨first, second, hfirst, hsecond, rfl⟩ := ih (apart_of_cons hapart) hfront
      exact ⟨_, second, .chain hrun hfirst, hsecond, (List.append_assoc _ _ _).symm⟩
  | pair hpair hrest ih =>
    rcases front with - | ⟨lexeme, - | ⟨lexeme', front⟩⟩
    · obtain rfl := hlexemes
      exact ⟨[], _, .nil, .pair hpair hrest, rfl⟩
    · obtain ⟨rfl, rfl⟩ := List.cons.inj hlexemes
      have hnone : pair? _ _ = none := hapart _ rfl _ rfl
      rw [hpair] at hnone
      cases hnone
    · obtain ⟨rfl, hcons⟩ := List.cons.inj hlexemes
      obtain ⟨rfl, hfront⟩ := List.cons.inj hcons
      obtain ⟨first, second, hfirst, hsecond, rfl⟩ := ih (apart_of_cons (apart_of_cons hapart)) hfront
      exact ⟨_, second, .pair hpair hfirst, hsecond, rfl⟩
  | single hsingle hnext hrest ih =>
    rcases front with - | ⟨lexeme, front⟩
    · obtain rfl := hlexemes
      exact ⟨[], _, .nil, .single hsingle hnext hrest, rfl⟩
    · obtain ⟨rfl, hfront⟩ := List.cons.inj hlexemes
      obtain ⟨first, second, hfirst, hsecond, rfl⟩ := ih (apart_of_cons hapart) hfront
      exact ⟨_, second, .single hsingle (apart_head_of_append (hfront ▸ hnext)) hfirst, hsecond, rfl⟩
  | blank hblank hnext hrest ih =>
    rcases front with - | ⟨lexeme, front⟩
    · obtain rfl := hlexemes
      exact ⟨[], _, .nil, .blank hblank hnext hrest, rfl⟩
    · obtain ⟨rfl, hfront⟩ := List.cons.inj hlexemes
      obtain ⟨first, second, hfirst, hsecond, rfl⟩ := ih (apart_of_cons hapart) hfront
      exact ⟨_, second, .blank hblank (apart_head_of_append (hfront ▸ hnext)) hfirst, hsecond, rfl⟩

/-! ## Parentheses -/

/-- A parenthesis may come after any lexeme. -/
theorem Lexeme.apart_paren {paren : Char} (hparen : paren = '(' ∨ paren = ')') (lexeme : Lexeme) :
    lexeme.Apart (.other paren) := by
  cases lexeme with
  | literal _ _ => trivial
  | chain _ => trivial
  | other c =>
    rw [Apart, Option.eq_none_iff_forall_not_mem]
    intro symbol hsymbol
    have hnot := (mem_of_pair? hsymbol).2
    rcases hparen with rfl | rfl
    · exact absurd hnot (by decide)
    · exact absurd hnot (by decide)

/-- Any lexeme may come after a parenthesis. -/
theorem Lexeme.paren_apart {paren : Char} (hparen : paren = '(' ∨ paren = ')') (lexeme : Lexeme) :
    (Lexeme.other paren).Apart lexeme := by
  cases lexeme with
  | literal _ _ => trivial
  | chain run =>
    intro hblank
    rcases hparen with rfl | rfl
    · exact absurd hblank (by decide)
    · exact absurd hblank (by decide)
  | other c =>
    rw [Apart, Option.eq_none_iff_forall_not_mem]
    intro symbol hsymbol
    have hnot := (mem_of_pair? hsymbol).1
    rcases hparen with rfl | rfl
    · exact absurd hnot (by decide)
    · exact absurd hnot (by decide)

theorem readsAs_paren {paren : Char} {symbol : Symbol} (hparen : paren = '(' ∨ paren = ')')
    (hsingle : single? paren = some symbol) : ReadsAs [paren] [.other paren] [symbol] := by
  have hfits : (Lexeme.other paren).Fits (join []) := by
    rcases hparen with rfl | rfl
    · exact ⟨by decide, by decide⟩
    · exact ⟨by decide, by decide⟩
  exact ⟨⟨.cons hfits .nil, rfl⟩, .single hsingle (by simp) .nil⟩

/-- What is read ends outside of literals. -/
theorem ReadsAs.endsQuoted_eq {text : Text} {lexemes : List Lexeme} {symbols : List Symbol}
    (h : ReadsAs text lexemes symbols) : endsQuoted text = false := by
  rw [← h.lexing.join_eq, Bool.eq_false_iff, ne_eq, endsQuoted_join_iff h.lexing.chained]
  rintro ⟨body, hmem⟩
  exact h.reads.literal_not_mem body hmem

/-- What stands in parentheses at the end of a text is read by itself. -/
theorem ReadsAs.enclosed_iff {lead inner : Text} {front : List Lexeme} {first symbols : List Symbol}
    (hlead : ReadsAs lead front first) :
    (∃ lexemes, ReadsAs (lead ++ '(' :: (inner ++ [')'])) lexemes
        (first ++ .parenOpen :: (symbols ++ [.parenClose]))) ↔
      ∃ lexemes, ReadsAs inner lexemes symbols := by
  have hopen := hlead.append (readsAs_paren (.inl rfl) rfl) fun last _ next hnext => by
    obtain rfl := Option.some.inj hnext
    exact apart_paren (.inl rfl) last
  have hclose : ReadsAs [')'] [.other ')'] [.parenClose] := readsAs_paren (.inr rfl) rfl
  have hbefore : ∀ {between : List Lexeme}, ∀ last ∈ (front ++ [Lexeme.other '(']).getLast?,
      ∀ next ∈ between.head?, last.Apart next := by
    intro between last hlast next _
    rw [List.getLast?_concat] at hlast
    obtain rfl := Option.some.inj hlast
    exact paren_apart (.inl rfl) next
  have hbehind : ∀ {between : List Lexeme}, ∀ last ∈ between.getLast?,
      ∀ next ∈ [Lexeme.other ')'].head?, last.Apart next := by
    intro between last _ next hnext
    obtain rfl := Option.some.inj hnext
    exact apart_paren (.inr rfl) last
  have htext : lead ++ '(' :: (inner ++ [')']) = (lead ++ ['(']) ++ (inner ++ [')']) := by
    rw [List.append_assoc, List.singleton_append]
  have hsymbols : first ++ .parenOpen :: (symbols ++ [.parenClose])
      = (first ++ [.parenOpen]) ++ (symbols ++ [.parenClose]) := by
    rw [List.append_assoc, List.singleton_append]
  rw [htext, hsymbols]
  constructor
  · rintro ⟨lexemes, h⟩
    obtain ⟨between, hbetween⟩ := exists_isLexing inner
    -- an open literal would go on behind the parenthesis, up to the end
    have hclosed : ∀ body, Lexeme.literal body false ∉ between := by
      intro body hmem
      have hquoted := h.endsQuoted_eq
      rw [endsQuoted_append, hopen.endsQuoted_eq, endsQuoted_append, hclose.endsQuoted_eq, Bool.false_xor,
        Bool.xor_false, ← hbetween.join_eq, (endsQuoted_join_iff hbetween.chained).mpr ⟨body, hmem⟩] at hquoted
      cases hquoted
    have hchained := hbetween.chained.append hclose.lexing.chained hclosed hbehind
    have hwhole : IsLexing ((lead ++ ['(']) ++ (inner ++ [')']))
        ((front ++ [.other '(']) ++ (between ++ [.other ')'])) := by
      refine ⟨hopen.lexing.chained.append hchained hopen.reads.literal_not_mem hbefore, ?_⟩
      rw [join_append, join_append between, hopen.lexing.join_eq, hbetween.join_eq]
      rfl
    obtain rfl := h.lexing.unique hwhole
    obtain ⟨outer, rest, houter, hrest, hsplit⟩ := h.reads.of_append hbefore
    obtain rfl := houter.unique hopen.reads
    obtain ⟨own, last, hown, hlast, rfl⟩ := hrest.of_append hbehind
    obtain rfl := hlast.unique hclose.reads
    have heq : symbols = own := List.append_cancel_right (List.append_cancel_left hsplit)
    exact ⟨between, hbetween, heq ▸ hown⟩
  · rintro ⟨between, h⟩
    exact ⟨_, hopen.append (h.append hclose hbehind) hbefore⟩

/-- In parentheses stands an expression. -/
theorem isParse_group_iff {inner : Text} {tree : ExprTree} :
    IsParse ('(' :: (inner ++ [')'])) (.group tree) ↔ IsParse inner tree ∧ 1 ≤ tree.level := by
  have hlead : ReadsAs [] [] [] := ⟨⟨.nil, rfl⟩, .nil⟩
  have henclosed : (∃ lexemes, ReadsAs ('(' :: (inner ++ [')'])) lexemes (ExprTree.group tree).symbols) ↔
      ∃ lexemes, ReadsAs inner lexemes tree.symbols := hlead.enclosed_iff
  constructor
  · intro h
    exact ⟨⟨henclosed.mp h.readsAs, h.wellFormed.1⟩, h.wellFormed.2⟩
  · rintro ⟨h, hlevel⟩
    exact ⟨henclosed.mpr h.readsAs, h.wellFormed, hlevel⟩

/-! ## Operators -/

/-- An operator of two characters between blanks. -/
theorem readsAs_operator {c d : Char} {op : Operator} (hpair : pair? c d = some (.operator op)) :
    ReadsAs [' ', c, d, ' '] [.other ' ', .other c, .other d, .other ' '] [.operator op] := by
  obtain ⟨hc, hd⟩ := mem_of_pair? hpair
  have hsigns : ∀ c ∈ ['|', '&', '=', '!', '<', '>'], joinsNext c = false ∧ c ≠ '\'' := by decide
  have hsigns' : ∀ c ∈ ['|', '&', '='], joinsNext c = false ∧ c ≠ '\'' := by decide
  have hblank : ∀ rest, (Lexeme.other ' ').Fits rest := fun _ => ⟨by decide, by decide⟩
  refine ⟨⟨.cons (hblank _) (.cons (hsigns c hc) (.cons (hsigns' d hd) (.cons (hblank _) .nil))), rfl⟩, ?_⟩
  refine .blank (by decide) ?_ (.pair hpair (.blank (by decide) (by simp) .nil))
  intro next hnext
  obtain rfl := Option.some.inj hnext
  rfl

theorem apart_blank (lexeme : Lexeme) : lexeme.Apart (.other ' ') := by
  cases lexeme with
  | literal _ _ => trivial
  | chain _ => trivial
  | other c =>
    rw [Apart, Option.eq_none_iff_forall_not_mem]
    intro symbol hsymbol
    exact absurd (mem_of_pair? hsymbol).2 (by decide)

/-- A blank is apart from all but a member that is accessed. -/
theorem blank_apart {text : Text} {lexemes : List Lexeme} (h : IsLexing text lexemes) (hdot : text.head? ≠ some '.') :
    ∀ next ∈ lexemes.head?, (Lexeme.other ' ').Apart next := by
  intro next hnext
  cases next with
  | literal _ _ => trivial
  | chain run =>
    intro _ hrun
    obtain ⟨rest, rfl⟩ := List.head?_eq_some_iff.mp (Option.mem_def.mp hnext)
    obtain ⟨tail, rfl⟩ := List.head?_eq_some_iff.mp hrun
    rw [← h.join_eq, join_cons] at hdot
    exact hdot rfl
  | other c =>
    rw [Apart, Option.eq_none_iff_forall_not_mem]
    intro symbol hsymbol
    exact absurd (mem_of_pair? hsymbol).1 (by decide)

/-- Blanks around an expression change nothing. -/
theorem IsParse.padded {text : Text} {tree : ExprTree} (h : IsParse text tree) (hdot : text.head? ≠ some '.') :
    IsParse (' ' :: (text ++ [' '])) tree := by
  obtain ⟨lexemes, hreads⟩ := h.readsAs
  have hfits : (Lexeme.other ' ').Fits (join []) := ⟨by decide, by decide⟩
  have hblank : ReadsAs [' '] [.other ' '] [] :=
    ⟨⟨.cons hfits .nil, rfl⟩, .blank (by decide) (by simp) .nil⟩
  have hbefore := hblank.append hreads fun last hlast next hnext => by
    obtain rfl := Option.some.inj hlast
    exact blank_apart hreads.lexing hdot next hnext
  have hwhole := hbefore.append hblank fun last _ next hnext => by
    obtain rfl := Option.some.inj hnext
    exact apart_blank last
  rw [List.nil_append, List.append_nil] at hwhole
  exact ⟨⟨_, hwhole⟩, h.wellFormed⟩

section

variable {text text' : Text} {left right : ExprTree} {c d : Char} {op : Operator}

/-- What comes before an operand. -/
theorem IsParse.before_operand (h : IsParse text left) (hpair : pair? c d = some (.operator op)) :
    ∃ lexemes, ReadsAs (text ++ [' ', c, d, ' ']) (lexemes ++ [.other ' ', .other c, .other d, .other ' '])
      (left.symbols ++ [.operator op]) := by
  obtain ⟨lexemes, hreads⟩ := h.readsAs
  refine ⟨lexemes, hreads.append (readsAs_operator hpair) fun last _ next hnext => ?_⟩
  obtain rfl := Option.some.inj hnext
  exact apart_blank last

theorem IsParse.binary (h : IsParse text left) (h' : IsParse text' right) (hpair : pair? c d = some (.operator op))
    (hleft : op.level ≤ left.level) (hright : op.level < right.level) (hdot : text'.head? ≠ some '.') :
    IsParse (text ++ [' ', c, d, ' '] ++ text') (.binary op left right) := by
  obtain ⟨lexemes, hlead⟩ := h.before_operand hpair
  obtain ⟨lexemes', hreads⟩ := h'.readsAs
  have hwhole := hlead.append hreads fun last hlast next hnext => by
    rw [List.getLast?_append] at hlast
    obtain rfl := Option.some.inj hlast
    exact blank_apart hreads.lexing hdot next hnext
  have hsymbols : (ExprTree.binary op left right).symbols = (left.symbols ++ [.operator op]) ++ right.symbols := by
    rw [List.append_assoc, List.singleton_append]
    rfl
  rw [← hsymbols] at hwhole
  exact ⟨⟨_, hwhole⟩, h.wellFormed, hleft, h'.wellFormed, hright⟩

/-- What stands in parentheses behind an operator is an operand if it is an expression, and only then. -/
theorem IsParse.binary_group_iff (h : IsParse text left) (hpair : pair? c d = some (.operator op))
    (hleft : op.level ≤ left.level) :
    IsParse (text ++ [' ', c, d, ' '] ++ '(' :: (text' ++ [')'])) (.binary op left (.group right)) ↔
      IsParse text' right ∧ 1 ≤ right.level := by
  obtain ⟨lexemes, hlead⟩ := h.before_operand hpair
  have hsymbols : (ExprTree.binary op left (.group right)).symbols
      = (left.symbols ++ [.operator op]) ++ .parenOpen :: (right.symbols ++ [.parenClose]) := by
    rw [List.append_assoc, List.singleton_append]
    rfl
  have henclosed : (∃ lexemes, ReadsAs (text ++ [' ', c, d, ' '] ++ '(' :: (text' ++ [')'])) lexemes
      (ExprTree.binary op left (.group right)).symbols) ↔ ∃ lexemes, ReadsAs text' lexemes right.symbols := by
    rw [hsymbols]
    exact hlead.enclosed_iff
  constructor
  · rintro ⟨hreads, -, -, hwell, -⟩
    exact ⟨⟨henclosed.mp hreads, hwell.1⟩, hwell.2⟩
  · rintro ⟨h', hlevel⟩
    have hlt : op.level < (ExprTree.group right).level := op.level_lt.trans (Nat.lt_add_of_pos_right Nat.two_pos)
    exact ⟨henclosed.mpr h'.readsAs, h.wellFormed, hleft, ⟨h'.wellFormed, hlevel⟩, hlt⟩

end

/-! ## Operands -/

theorem isParse_literal {body : Text} (h : Template.IsLiteralBody body) :
    IsParse ('\'' :: (body ++ ['\''])) (.literal ('\'' :: (body ++ ['\'']))) := by
  have hfits : (Lexeme.literal body true).Fits (join []) := ⟨h, by decide⟩
  exact ⟨⟨_, ⟨.cons hfits .nil, List.append_nil _⟩, .literal .nil⟩, trivial⟩

/-- The members of an object, one after the other. -/
def ExprTree.members (object : ExprTree) (properties : List Text) : ExprTree := properties.foldl .member object

theorem ExprTree.symbols_members (object : ExprTree) (properties : List Text) :
    (object.members properties).symbols = object.symbols ++ properties.map .access := by
  induction properties generalizing object with
  | nil => exact (List.append_nil _).symm
  | cons property properties ih =>
    refine (ih (object.member property)).trans ?_
    rw [symbols, List.append_assoc]
    rfl

theorem ExprTree.wellFormed_members {object : ExprTree} (h : object.WellFormed) (hlevel : 7 ≤ object.level)
    (properties : List Text) : (object.members properties).WellFormed ∧ 7 ≤ (object.members properties).level := by
  induction properties generalizing object with
  | nil => exact ⟨h, hlevel⟩
  | cons property properties ih =>
    have hmember : (object.member property).WellFormed := ⟨h, hlevel⟩
    exact ih hmember (le_refl 7)

theorem readsAs_chain {run : Text} {symbols : List Symbol} (hne : run ≠ []) (hjoins : ∀ c ∈ run, joinsNext c = true)
    (h : chainSymbols? run = some symbols) : ReadsAs run [.chain run] symbols := by
  have hfits : (Lexeme.chain run).Fits (join []) := ⟨hne, hjoins, by simp [join]⟩
  have hreads := Reads.chain h .nil
  rw [List.append_nil] at hreads
  exact ⟨⟨.cons hfits .nil, List.append_nil _⟩, hreads⟩

theorem isParse_members {word : Text} {properties : List Text} (hword : isIdentifier word = true)
    (hkeyword : word ∉ keywords) (hproperties : ∀ property ∈ properties, isIdentifier property = true) :
    IsParse (chainOf word properties) ((ExprTree.name word).members properties) := by
  have hsymbols := chainSymbols?_chainOf hword hproperties
  rw [wordSymbol_of_not_mem hkeyword] at hsymbols
  have hne : chainOf word properties ≠ [] := by
    intro hnil
    rw [chainOf, List.append_eq_nil_iff] at hnil
    rw [hnil.1] at hword
    cases hword
  have hchain := readsAs_chain hne (joinsNext_chainOf hword hproperties) hsymbols
  have hwell : (ExprTree.name word).WellFormed := trivial
  refine ⟨⟨[.chain (chainOf word properties)], ?_⟩, (ExprTree.wellFormed_members hwell (le_refl 7) properties).1⟩
  rw [ExprTree.symbols_members]
  exact hchain

theorem isParse_word {word : Text} (hword : isIdentifier word = true) (hkeyword : word ∉ keywords) :
    IsParse word (.name word) := by
  have hparse : IsParse (chainOf word []) (.name word) := isParse_members hword hkeyword (by simp)
  rwa [chainOf, List.flatMap_nil, List.append_nil] at hparse

/-- A call without arguments. -/
theorem isParse_nullary {function : Text} (hfunction : isIdentifier function = true)
    (hkeyword : function ∉ keywords) : IsParse (function ++ ['(', ')']) (.nullary function) := by
  obtain ⟨lexemes, hname⟩ := (isParse_word hfunction hkeyword).readsAs
  have hnothing : ReadsAs [] [] [] := ⟨⟨.nil, rfl⟩, .nil⟩
  exact ⟨hname.enclosed_iff.mpr ⟨_, hnothing⟩, trivial⟩

end CachedWorkflow
