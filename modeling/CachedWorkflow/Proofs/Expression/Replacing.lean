import CachedWorkflow.Proofs.Expression.Inlining
import CachedWorkflow.Proofs.Template.Rewriting

/-!
# Proofs: renaming references to expressions

Renaming puts texts in the place of references. If these are expressions, so that the lexemes around them do not
run into theirs, the outcome is read as the symbols of the expression with those of the others in the place of the
references (`readsAs_apply`).
-/

namespace CachedWorkflow

open Lexeme Renaming CachedWorkflow.Symbol

/-! ## The ends of what is read -/

/-- A lexeme that may come right behind any other character. -/
def Lexeme.Opens (next : Lexeme) : Prop := ∀ c, (Lexeme.other c).Apart next

/-- A lexeme that any other character may come right behind. -/
def Lexeme.Closes (last : Lexeme) : Prop := ∀ c, last.Apart (.other c)

theorem exists_operator_of_pair? {c d : Char} {symbol : Symbol} (h : pair? c d = some symbol) :
    ∃ op, symbol = .operator op := by
  unfold pair? at h
  split at h
  case h_7 => cases h
  all_goals exact ⟨_, (Option.some.inj h).symm⟩

/-- A symbol of one character is neither a word nor a member. -/
theorem not_isWord_of_single? {c : Char} {symbol : Symbol} (h : single? c = some symbol) :
    ¬ symbol.IsWord ∧ ∀ property, symbol ≠ .access property := by
  unfold single? at h
  split at h
  case h_9 => cases h
  all_goals
    obtain rfl := Option.some.inj h
    exact ⟨id, by simp⟩

theorem pair?_eq_none_left {c : Char} (h : c ∉ ['|', '&', '=', '!', '<', '>']) (d : Char) : pair? c d = none := by
  rw [Option.eq_none_iff_forall_not_mem]
  exact fun symbol hsymbol => h (mem_of_pair? hsymbol).1

theorem pair?_eq_none_right {d : Char} (h : d ∉ ['|', '&', '=']) (c : Char) : pair? c d = none := by
  rw [Option.eq_none_iff_forall_not_mem]
  exact fun symbol hsymbol => h (mem_of_pair? hsymbol).2

/-- A chain that does not begin with a dot begins with a name or a literal. -/
theorem exists_head_of_chainSymbols? {run : Text} {symbols : List Symbol} (h : chainSymbols? run = some symbols)
    (hne : run ≠ []) (hdot : run.head? ≠ some '.') : ∃ symbol ∈ symbols.head?, symbol.IsWord := by
  obtain ⟨first, properties, hstart, -, rfl⟩ := chainSymbols?_eq_some.mp h
  have hword : (splitDots run).1 ≠ [] := by
    obtain ⟨c, rest, rfl⟩ := List.exists_cons_of_ne_nil hne
    have hc : c ≠ '.' := fun heq => hdot (congrArg some heq)
    rw [splitDots, if_neg hc]
    exact List.cons_ne_nil _ _
  unfold chainStart? at hstart
  rw [if_neg hword] at hstart
  have hwordSymbol : (wordSymbol (splitDots run).1).IsWord := by
    unfold wordSymbol
    split <;> trivial
  split at hstart
  · cases hstart
    exact ⟨_, rfl, hwordSymbol⟩
  · split at hstart
    · split at hstart
      · cases hstart
        exact ⟨_, rfl, trivial⟩
      · split at hstart
        · cases hstart
          exact ⟨_, rfl, trivial⟩
        · cases hstart
          exact ⟨_, rfl, trivial⟩
    · cases hstart

/-- A chain that begins with a dot begins with a member. -/
theorem exists_head_of_chainSymbols?_dot {tail : Text} {symbols : List Symbol}
    (h : chainSymbols? ('.' :: tail) = some symbols) : ∃ property, symbols.head? = some (.access property) := by
  obtain ⟨-, rfl⟩ := chainSymbols?_dot h
  exact ⟨_, rfl⟩

/-- Where a member is accessed at the beginning, the first lexeme is a chain that begins with a dot. -/
theorem Reads.head?_ne_access {lexemes : List Lexeme} {symbols : List Symbol} (h : Reads lexemes symbols)
    (hchained : Chained lexemes) (hdot : ∀ run, .chain run ∈ lexemes.head? → run.head? ≠ some '.') :
    ∀ next ∈ symbols.head?, ∀ property, next ≠ .access property := by
  induction h with
  | nil => simp
  | literal => simp
  | @chain run front symbols rest hrun hrest ih =>
    obtain ⟨hfits, -⟩ := chained_cons_iff.mp hchained
    obtain ⟨symbol, hsymbol, hword⟩ := exists_head_of_chainSymbols? hrun hfits.1 (hdot run rfl)
    intro next hnext property
    rw [List.head?_append, Option.mem_def.mp hsymbol] at hnext
    obtain rfl := Option.some.inj hnext
    rintro rfl
    exact hword
  | pair hpair _ _ =>
    obtain ⟨op, rfl⟩ := exists_operator_of_pair? hpair
    simp
  | @single c symbol _ _ hsingle _ _ _ =>
    intro next hnext property
    obtain rfl := Option.some.inj hnext
    exact (not_isWord_of_single? hsingle).2 property
  | @blank c rest symbols hblank hnext _ ih =>
    refine ih (chained_cons_iff.mp hchained).2 fun run hrun => ?_
    exact hnext (.chain run) hrun hblank

/-- The first lexeme of an operand opens it. -/
theorem Reads.opens_head {lexemes : List Lexeme} {symbols : List Symbol} (h : Reads lexemes symbols)
    (hfirst : ∀ first ∈ symbols.head?, (∀ op, first ≠ .operator op) ∧ ∀ property, first ≠ .access property) :
    ∀ next ∈ lexemes.head?, next.Opens := by
  intro next hnext c
  cases h with
  | nil => cases hnext
  | literal =>
    obtain rfl := Option.some.inj hnext
    trivial
  | @chain run front symbols rest hrun hrest =>
    obtain rfl := Option.some.inj hnext
    intro _ hdot
    obtain ⟨tail, rfl⟩ := List.head?_eq_some_iff.mp hdot
    obtain ⟨property, hproperty⟩ := exists_head_of_chainSymbols?_dot hrun
    have hmem : Symbol.access property ∈ (front ++ symbols).head? := by
      rw [List.head?_append, hproperty]
      rfl
    exact (hfirst _ hmem).2 property rfl
  | pair hpair _ =>
    obtain ⟨op, rfl⟩ := exists_operator_of_pair? hpair
    exact absurd rfl ((hfirst _ rfl).1 op)
  | @single d symbol _ _ hsingle _ _ =>
    obtain rfl := Option.some.inj hnext
    have hsigns : ∀ d ∈ ['<', '>', ',', '!', '(', ')', '[', ']'], d ∉ ['|', '&', '='] := by decide
    exact pair?_eq_none_right (hsigns d (mem_of_single? hsingle)) c
  | @blank d _ _ hblank _ _ =>
    obtain rfl := Option.some.inj hnext
    have hsigns : ∀ d ∈ ['|', '&', '='], isWhiteSpace d = false := by decide
    refine pair?_eq_none_right (fun hmem => ?_) c
    rw [hsigns d hmem] at hblank
    cases hblank

theorem mem_getLast?_cons {α : Type} {a last : α} {rest : List α} :
    last ∈ (a :: rest).getLast? ↔ rest = [] ∧ last = a ∨ last ∈ rest.getLast? := by
  cases rest with
  | nil => simp [eq_comm]
  | cons b rest => simp [List.getLast?_cons]

theorem mem_getLast?_append {α : Type} {last : α} {front back : List α} (h : last ∈ back.getLast?) :
    last ∈ (front ++ back).getLast? := by
  rw [List.getLast?_append, Option.mem_def.mp h]
  rfl

/-- The last lexeme of an operand closes it, unless it is a blank. -/
theorem Reads.closes_getLast {lexemes : List Lexeme} {symbols : List Symbol} (h : Reads lexemes symbols)
    (hlast : ∀ last ∈ symbols.getLast?, last.EndsOperand)
    (hblank : ∀ c, .other c ∈ lexemes.getLast? → isWhiteSpace c = false) :
    ∀ last ∈ lexemes.getLast?, last.Closes := by
  induction h with
  | nil => simp
  | @literal body rest symbols hrest ih =>
    intro last hmem
    rcases mem_getLast?_cons.mp hmem with ⟨-, rfl⟩ | hmem
    · exact fun c => trivial
    · exact ih (fun last hlast' => hlast last (mem_getLast?_cons.mpr (.inr hlast')))
        (fun c hc => hblank c (mem_getLast?_cons.mpr (.inr hc))) last hmem
  | @chain run front symbols rest hrun hrest ih =>
    intro last hmem
    rcases mem_getLast?_cons.mp hmem with ⟨-, rfl⟩ | hmem
    · exact fun c => trivial
    · exact ih (fun last hlast' => hlast last (mem_getLast?_append hlast'))
        (fun c hc => hblank c (mem_getLast?_cons.mpr (.inr hc))) last hmem
  | @pair c d symbol rest symbols hpair hrest ih =>
    intro last hmem
    have hrest' := (mem_getLast?_cons.mp hmem).resolve_left fun h => List.cons_ne_nil _ _ h.1
    rcases mem_getLast?_cons.mp hrest' with ⟨rfl, rfl⟩ | hmem
    · cases hrest
      obtain ⟨op, rfl⟩ := exists_operator_of_pair? hpair
      exact (hlast _ rfl).elim
    · exact ih (fun last hlast' => hlast last (mem_getLast?_cons.mpr (.inr hlast')))
        (fun e he => hblank e (mem_getLast?_cons.mpr (.inr (mem_getLast?_cons.mpr (.inr he))))) last hmem
  | @single c symbol rest symbols hsingle hnext hrest ih =>
    intro last hmem
    rcases mem_getLast?_cons.mp hmem with ⟨rfl, rfl⟩ | hmem
    · cases hrest
      have hends : symbol.EndsOperand := hlast _ rfl
      have hclosed : c = ')' ∨ c = ']' := by
        unfold single? at hsingle
        split at hsingle
        case h_6 => exact .inl rfl
        case h_8 => exact .inr rfl
        case h_9 => cases hsingle
        all_goals
          obtain rfl := Option.some.inj hsingle
          exact hends.elim
      intro d
      rcases hclosed with rfl | rfl
      · exact pair?_eq_none_left (by decide) d
      · exact pair?_eq_none_left (by decide) d
    · exact ih (fun last hlast' => hlast last (mem_getLast?_cons.mpr (.inr hlast')))
        (fun e he => hblank e (mem_getLast?_cons.mpr (.inr he))) last hmem
  | @blank c rest symbols hwhite hnext hrest ih =>
    intro last hmem
    rcases mem_getLast?_cons.mp hmem with ⟨rfl, rfl⟩ | hmem
    · have hnot := hblank c rfl
      rw [hwhite] at hnot
      cases hnot
    · exact ih hlast (fun e he => hblank e (mem_getLast?_cons.mpr (.inr he))) last hmem

/-! ## Members of an operand -/

/-- Members are accessed behind a chain that ends what is read. -/
theorem Reads.access {front : List Lexeme} {run tail : Text} {symbols own : List Symbol}
    (h : Reads (front ++ [.chain run]) symbols) (hne : run ≠ [])
    (htail : chainSymbols? ('.' :: tail) = some own) :
    Reads (front ++ [.chain (run ++ '.' :: tail)]) (symbols ++ own) := by
  generalize hlexemes : front ++ [.chain run] = lexemes at h
  -- what comes right behind an other character stays a chain that begins alike
  have hkeep : ∀ {c : Char} {front rest : List Lexeme}, front ++ [Lexeme.chain run] = rest →
      (∀ next ∈ rest.head?, (Lexeme.other c).Apart next) →
      ∀ next ∈ (front ++ [Lexeme.chain (run ++ '.' :: tail)]).head?, (Lexeme.other c).Apart next := by
    intro c front rest hfront hnext next hmem
    subst hfront
    cases front with
    | nil =>
      obtain rfl := Option.some.inj hmem
      intro hblank
      rw [List.head?_append_of_ne_nil _ hne]
      exact hnext (.chain run) rfl hblank
    | cons first front => exact hnext next hmem
  induction h generalizing front with
  | nil => simp at hlexemes
  | literal hrest ih =>
    rcases front with - | ⟨lexeme, front⟩
    · cases hlexemes
    · obtain ⟨rfl, hfront⟩ := List.cons.inj hlexemes
      exact .literal (ih hfront)
  | chain hrun hrest ih =>
    rcases front with - | ⟨lexeme, front⟩
    · cases hlexemes
      cases hrest
      rw [List.append_assoc, List.nil_append]
      have hchain := Reads.chain (chainSymbols?_append hrun htail) .nil
      rwa [List.append_nil] at hchain
    · obtain ⟨rfl, hfront⟩ := List.cons.inj hlexemes
      rw [List.append_assoc]
      exact .chain hrun (ih hfront)
  | pair hpair hrest ih =>
    rcases front with - | ⟨lexeme, - | ⟨lexeme', front⟩⟩
    · cases hlexemes
    · cases hlexemes
    · obtain ⟨rfl, hcons⟩ := List.cons.inj hlexemes
      obtain ⟨rfl, hfront⟩ := List.cons.inj hcons
      exact .pair hpair (ih hfront)
  | single hsingle hnext hrest ih =>
    rcases front with - | ⟨lexeme, front⟩
    · cases hlexemes
    · obtain ⟨rfl, hfront⟩ := List.cons.inj hlexemes
      exact .single hsingle (hkeep hfront hnext) (ih hfront)
  | blank hblank hnext hrest ih =>
    rcases front with - | ⟨lexeme, front⟩
    · cases hlexemes
    · obtain ⟨rfl, hfront⟩ := List.cons.inj hlexemes
      exact .blank hblank (hkeep hfront hnext) (ih hfront)

theorem Lexeme.Chained.extend {front : List Lexeme} {run tail : Text} (h : Chained (front ++ [.chain run]))
    (htail : ∀ c ∈ tail, joinsNext c = true) : Chained (front ++ [.chain (run ++ tail)]) := by
  have hone : ∀ run : Text, join [Lexeme.chain run] = run := fun run => List.append_nil run
  induction front with
  | nil =>
    obtain ⟨⟨hne, hrun, -⟩, -⟩ := chained_cons_iff.mp h
    have hfits : (Lexeme.chain (run ++ tail)).Fits (join []) :=
      ⟨List.append_ne_nil_of_left_ne_nil hne tail, List.forall_mem_append.mpr ⟨hrun, htail⟩, by simp [join]⟩
    exact .cons hfits .nil
  | cons lexeme front ih =>
    obtain ⟨hfits, hrest⟩ := chained_cons_iff.mp h
    have hne := hrest.join_ne_nil (by simp)
    have hjoin : join (front ++ [.chain (run ++ tail)]) = join (front ++ [.chain run]) ++ tail := by
      rw [join_append, join_append, hone, hone, List.append_assoc]
    have hhead := (congrArg List.head? hjoin).trans (List.head?_append_of_ne_nil _ hne)
    exact .cons (hfits.congr_head hne hhead) (ih hrest)

/-- Members are accessed behind an operand that does not end with a blank. -/
theorem ReadsAs.access {text tail : Text} {lexemes : List Lexeme} {symbols own : List Symbol}
    (h : ReadsAs text lexemes symbols) (hblank : ∀ c, .other c ∈ lexemes.getLast? → isWhiteSpace c = false)
    (htail : chainSymbols? ('.' :: tail) = some own) (hjoins : ∀ c ∈ '.' :: tail, joinsNext c = true) :
    ∃ front run, ReadsAs (text ++ '.' :: tail) (front ++ [.chain run]) (symbols ++ own) := by
  by_cases hend : ∃ front run, lexemes = front ++ [.chain run]
  · -- the chain at the end goes on
    obtain ⟨front, run, rfl⟩ := hend
    obtain ⟨hfits, -⟩ := chained_cons_iff.mp h.lexing.chained.of_append
    refine ⟨front, run ++ '.' :: tail, ⟨h.lexing.chained.extend hjoins, ?_⟩, h.reads.access hfits.1 htail⟩
    have hone : ∀ run : Text, join [Lexeme.chain run] = run := fun run => List.append_nil run
    rw [← h.lexing.join_eq, join_append, join_append, hone, hone, List.append_assoc]
  · -- the members are a chain of their own
    refine ⟨lexemes, '.' :: tail, h.append (readsAs_chain (List.cons_ne_nil _ _) hjoins htail) ?_⟩
    intro last hlast next hnext
    obtain rfl := Option.some.inj hnext
    cases last with
    | literal _ _ => trivial
    | chain run =>
      obtain ⟨front, heq⟩ := List.getLast?_eq_some_iff.mp hlast
      exact absurd ⟨front, run, heq⟩ hend
    | other c =>
      intro hwhite
      rw [hblank c hlast] at hwhite
      cases hwhite

/-! ## Chains and references -/

/-- A chain is read as a name with members, or there is no name in it. -/
theorem chainSymbols?_cases {run : Text} {symbols : List Symbol} (h : chainSymbols? run = some symbols) :
    (∃ word properties, run = chainOf word properties ∧ isIdentifier word = true ∧
        (∀ property ∈ properties, isIdentifier property = true) ∧
        symbols = .name word :: properties.map .access) ∨
      (∀ word, .name word ∉ symbols) ∧
        (isIdentifier (splitDots run).1 = true → (splitDots run).1 ∈ keywords) := by
  obtain ⟨first, properties, hstart, hall, rfl⟩ := chainSymbols?_eq_some.mp h
  have hmembers : ∀ word, Symbol.name word ∉ properties.map .access := by simp
  by_cases hword : isIdentifier (splitDots run).1 = true
  · rw [chainStart?_of_isIdentifier hword] at hstart
    obtain ⟨rfl, rfl⟩ := Prod.mk.inj (Option.some.inj hstart)
    by_cases hkeyword : (splitDots run).1 ∈ keywords
    · refine .inr ⟨fun word hmem => ?_, fun _ => hkeyword⟩
      rw [wordSymbol_of_mem hkeyword, List.singleton_append] at hmem
      rcases List.mem_cons.mp hmem with heq | hmem
      · cases heq
      · exact hmembers word hmem
    · refine .inl ⟨_, _, (chainOf_splitDots run).symm, hword, List.all_eq_true.mp hall, ?_⟩
      rw [wordSymbol_of_not_mem hkeyword, List.singleton_append]
  · refine .inr ⟨fun word hmem => ?_, fun hidentifier => absurd hidentifier hword⟩
    refine (List.mem_append.mp hmem).elim (fun hfirst => ?_) (hmembers word)
    unfold chainStart? at hstart
    rw [if_neg hword] at hstart
    split at hstart
    · obtain ⟨rfl, -⟩ := Prod.mk.inj (Option.some.inj hstart)
      cases hfirst
    · split at hstart
      · split at hstart
        · obtain ⟨rfl, -⟩ := Prod.mk.inj (Option.some.inj hstart)
          simp at hfirst
        · split at hstart
          · obtain ⟨rfl, -⟩ := Prod.mk.inj (Option.some.inj hstart)
            simp at hfirst
          · obtain ⟨rfl, -⟩ := Prod.mk.inj (Option.some.inj hstart)
            simp at hfirst
      · cases hstart

/-- What begins a chain has the first of its parts. -/
theorem splitDots_of_heads {old tail : Text} (hjoins : ∀ c ∈ tail, joinsNext c = true)
    (hend : ∀ c ∈ tail.head?, isIdentifierChar c = false) :
    ∃ back, splitDots (old ++ tail) = ((splitDots old).1, (splitDots old).2 ++ back) ∧
      tail = back.flatMap ('.' :: ·) := by
  cases tail with
  | nil => exact ⟨[], by rw [List.append_nil, List.append_nil], rfl⟩
  | cons c rest =>
    have hdot : c = '.' := by
      have hjoinsNext := hjoins c List.mem_cons_self
      rw [joinsNext, hend c rfl, Bool.false_or] at hjoinsNext
      exact beq_iff_eq.mp hjoinsNext
    subst hdot
    refine ⟨(splitDots rest).1 :: (splitDots rest).2, splitDots_append old rest, ?_⟩
    rw [List.flatMap_cons]
    exact congrArg ('.' :: ·) (chainOf_splitDots rest).symm

theorem heads_chainOf (word : Text) (front back : List Text) :
    Heads (chainOf word front) (chainOf word (front ++ back)) := by
  refine ⟨back.flatMap ('.' :: ·), chainOf_append word front back, fun c hc => ?_⟩
  cases back with
  | nil => cases hc
  | cons property back =>
    obtain rfl := Option.some.inj hc
    decide

/-- What begins a name with members is that name with the first of them. -/
theorem Renaming.Heads.exists_chainOf {old word : Text} {properties : List Text}
    (h : Heads old (chainOf word properties)) (hword : isIdentifier word = true)
    (hproperties : ∀ property ∈ properties, isIdentifier property = true) :
    ∃ front back, properties = front ++ back ∧ old = chainOf word front := by
  obtain ⟨tail, hrun, hend⟩ := h
  have htail : ∀ c ∈ tail, joinsNext c = true := fun c hc =>
    joinsNext_chainOf hword hproperties c (hrun ▸ List.mem_append_right old hc)
  obtain ⟨back, hsplit, -⟩ : ∃ back, splitDots (old ++ tail) = ((splitDots old).1, (splitDots old).2 ++ back) ∧
      tail = back.flatMap ('.' :: ·) := splitDots_of_heads htail hend
  rw [← hrun, splitDots_chainOf (not_mem_dot_of_isIdentifier hword)
    fun property hmem => not_mem_dot_of_isIdentifier (hproperties property hmem)] at hsplit
  obtain ⟨rfl, rfl⟩ := Prod.mk.inj hsplit
  exact ⟨(splitDots old).2, back, rfl, (chainOf_splitDots old).symm⟩

theorem isReference_chainOf {word : Text} {properties : List Text} (hword : isIdentifier word = true)
    (hproperties : ∀ property ∈ properties, isIdentifier property = true) :
    IsReference (chainOf word properties) := by
  refine ⟨joinsNext_chainOf hword hproperties, ?_⟩
  have hname := isName_of_isIdentifier hword
  obtain ⟨c, rest, rfl⟩ := List.exists_cons_of_ne_nil hname.ne_nil
  exact ⟨c, rfl, isIdentifierChar_of_isJobIdChar (hname.chars c List.mem_cons_self)⟩

/-- An expression neither begins with an operator nor with a member that is accessed. -/
theorem ExprTree.first_cases (tree : ExprTree) :
    (∀ op, tree.first ≠ .operator op) ∧ ∀ property, tree.first ≠ .access property := by
  induction tree with
  | member object property ih => exact ih
  | index object key ih _ => exact ih
  | binary op left right ih _ => exact ih
  | _ => simp [first]

/-- An expression that does not end with a blank, and members of it: other characters may stand right before it
and right behind it. -/
theorem IsParse.members {text : Text} {tree : ExprTree} {properties : List Text} (h : IsParse text tree)
    (htrimmed : ∀ c ∈ text.getLast?, isWhiteSpace c = false)
    (hproperties : ∀ property ∈ properties, isIdentifier property = true) :
    ∃ lexemes, ReadsAs (text ++ properties.flatMap ('.' :: ·)) lexemes (tree.members properties).symbols ∧
      (∀ next ∈ lexemes.head?, next.Opens) ∧ ∀ last ∈ lexemes.getLast?, last.Closes := by
  obtain ⟨lexemes, hreads⟩ := h.readsAs
  have hblank : ∀ c, .other c ∈ lexemes.getLast? → isWhiteSpace c = false := by
    intro c hc
    obtain ⟨front, rfl⟩ := List.getLast?_eq_some_iff.mp hc
    have hjoin : join front ++ [c] = text := by
      rw [← hreads.lexing.join_eq, join_append]
      rfl
    refine htrimmed c ?_
    rw [← hjoin, List.getLast?_concat]
    rfl
  obtain ⟨lexemes', hmembers, hblank'⟩ : ∃ lexemes',
      ReadsAs (text ++ properties.flatMap ('.' :: ·)) lexemes' (tree.members properties).symbols ∧
        ∀ c, .other c ∈ lexemes'.getLast? → isWhiteSpace c = false := by
    rw [ExprTree.symbols_members]
    cases properties with
    | nil =>
      rw [List.flatMap_nil, List.map_nil, List.append_nil, List.append_nil]
      exact ⟨lexemes, hreads, hblank⟩
    | cons property properties =>
      obtain ⟨hproperty, hrest⟩ := List.forall_mem_cons.mp hproperties
      have hjoins : ∀ c ∈ '.' :: chainOf property properties, joinsNext c = true :=
        List.forall_mem_cons.mpr ⟨rfl, joinsNext_chainOf hproperty hrest⟩
      obtain ⟨front, run, haccess⟩ := hreads.access hblank (chainSymbols?_members hproperties) hjoins
      refine ⟨_, haccess, fun c hc => ?_⟩
      rw [List.getLast?_concat] at hc
      cases hc
  refine ⟨lexemes', hmembers, hmembers.reads.opens_head ?_, hmembers.reads.closes_getLast ?_ hblank'⟩
  · intro first hfirst
    rw [ExprTree.head?_symbols] at hfirst
    obtain rfl := Option.some.inj hfirst
    exact (tree.members properties).first_cases
  · intro last hlast
    rw [ExprTree.getLast?_symbols] at hlast
    obtain rfl := Option.some.inj hlast
    exact (tree.members properties).endsOperand_last

/-! ## Lexemes in the place of others -/

/-- A lexeme that a name or a literal begins. -/
def Lexeme.IsWord : Lexeme → Prop
  | .literal _ _ => True
  | .chain run => run.head? ≠ some '.'
  | .other _ => False

theorem isWord_chainOf {word : Text} (hword : isIdentifier word = true) (properties : List Text) :
    (Lexeme.chain (chainOf word properties)).IsWord := by
  intro hdot
  have hne : word ≠ [] := by
    rintro rfl
    cases hword
  rw [chainOf, List.head?_append_of_ne_nil _ hne] at hdot
  exact not_mem_dot_of_isIdentifier hword (List.mem_of_mem_head? hdot)

/-- Where neither a name nor a literal stands first, no lexeme of one does. -/
theorem Reads.not_isWord_head {lexemes : List Lexeme} {symbols : List Symbol} (h : Reads lexemes symbols)
    (hchained : Chained lexemes) (hsymbols : ∀ symbol ∈ symbols.head?, ¬ symbol.IsWord) :
    ∀ lexeme ∈ lexemes.head?, ¬ lexeme.IsWord := by
  intro lexeme hlexeme hword
  cases h with
  | nil => cases hlexeme
  | literal => exact hsymbols _ rfl trivial
  | chain hrun _ =>
    obtain rfl := Option.some.inj hlexeme
    obtain ⟨symbol, hsymbol, hsymbolWord⟩ :=
      exists_head_of_chainSymbols? hrun (chained_cons_iff.mp hchained).1.1 hword
    refine hsymbols symbol ?_ hsymbolWord
    rw [List.head?_append, Option.mem_def.mp hsymbol]
    rfl
  | pair | single | blank =>
    obtain rfl := Option.some.inj hlexeme
    exact hword

/-- Some lexemes begin like others, or with one that may stand behind any other character where a chain
begins the others. -/
def BeginsLike (lexemes lexemes' : List Lexeme) : Prop :=
  lexemes'.head? = lexemes.head? ∨
    (∃ run, .chain run ∈ lexemes.head? ∧ (Lexeme.chain run).IsWord) ∧ ∀ next ∈ lexemes'.head?, next.Opens

theorem BeginsLike.apart {lexemes lexemes' : List Lexeme} {lexeme : Lexeme} (h : BeginsLike lexemes lexemes')
    (hnext : ∀ next ∈ lexemes.head?, lexeme.Apart next)
    (hother : ∀ run, .chain run ∈ lexemes.head? → (Lexeme.chain run).IsWord → ∃ c, lexeme = .other c) :
    ∀ next ∈ lexemes'.head?, lexeme.Apart next := by
  rcases h with heq | ⟨⟨run, hrun, hword⟩, hopens⟩
  · rw [heq]
    exact hnext
  · obtain ⟨c, rfl⟩ := hother run hrun hword
    exact fun next hmem => hopens next hmem c

/-- What closes an operand is apart from what is neither a chain nor a literal. -/
theorem BeginsLike.apart_of_closes {front lexemes lexemes' : List Lexeme} (h : BeginsLike lexemes lexemes')
    (hchain : ∀ run, .chain run ∉ lexemes.head?) (hliteral : ∀ body closed, .literal body closed ∉ lexemes.head?)
    (hcloses : ∀ last ∈ front.getLast?, last.Closes) :
    ∀ last ∈ front.getLast?, ∀ next ∈ lexemes'.head?, last.Apart next := by
  intro last hlast next hnext
  rcases h with heq | ⟨⟨run, hrun, -⟩, -⟩
  · rw [heq] at hnext
    cases next with
    | literal body closed => exact absurd hnext (hliteral body closed)
    | chain run => exact absurd hnext (hchain run)
    | other c => exact hcloses last hlast c
  · exact absurd hrun (hchain run)

/-- Two chains or two literals are not cut apart. -/
theorem Lexeme.Chained.apart_head {lexeme : Lexeme} {rest : List Lexeme} (h : Chained (lexeme :: rest))
    (hother : ∀ c, lexeme ≠ .other c) : ∀ next ∈ rest.head?, lexeme.Apart next := by
  obtain ⟨hfits, hrest⟩ := chained_cons_iff.mp h
  intro next hnext
  obtain ⟨behind, rfl⟩ := List.head?_eq_some_iff.mp (Option.mem_def.mp hnext)
  obtain ⟨c, tail, htext, hbegins⟩ := (chained_cons_iff.mp hrest).1.exists_begins
  rw [join_cons, htext, List.cons_append] at hfits
  cases lexeme with
  | literal body closed =>
    cases next with
    | literal body' closed' =>
      obtain rfl : c = '\'' := hbegins
      cases closed with
      | true => exact absurd rfl hfits.2
      | false => cases hfits.2
    | chain _ => trivial
    | other _ => trivial
  | chain run =>
    cases next with
    | literal _ _ => trivial
    | chain run' =>
      have hjoins : joinsNext c = true := hbegins
      rw [hfits.2.2 c rfl] at hjoins
      cases hjoins
    | other _ => trivial
  | other d => exact absurd rfl (hother d)

section

variable {pairs : Renaming} {names : List Text} {trees : Text → Option ExprTree}

/-- Renaming puts expressions in the place of references. -/
structure Inlines (pairs : Renaming) (names : List Text) (trees : Text → Option ExprTree) : Prop where
  isReference : ∀ pair ∈ pairs, IsReference pair.1
  /-- The references begin with a word that stands for no value. -/
  word : ∀ pair ∈ pairs, isIdentifier (splitDots pair.1).1 = true ∧ (splitDots pair.1).1 ∉ keywords
  mem_iff : ∀ name, IsReference name → (name ∈ names ↔ ∃ pair ∈ pairs, pair.1 = name)
  isParse : ∀ pair ∈ pairs, ∀ tree, trees pair.1 = some tree → IsParse pair.2 tree
  trimmed : ∀ pair ∈ pairs, ∀ c ∈ pair.2.getLast?, isWhiteSpace c = false

theorem Renaming.Takes.mem {run old new : Text} (h : Takes pairs run old new) : (old, new) ∈ pairs := by
  obtain ⟨front, back, rfl, -⟩ := h.last
  exact List.mem_append_right front List.mem_cons_self

theorem Inlines.mem_chainOf_iff (h : Inlines pairs names trees) {word : Text} {front back : List Text}
    (hword : isIdentifier word = true) (hproperties : ∀ property ∈ front ++ back, isIdentifier property = true) :
    chainOf word front ∈ names ↔ ∃ pair ∈ pairs, pair.1 = chainOf word front :=
  h.mem_iff _ (isReference_chainOf hword fun property hproperty =>
    hproperties property (List.mem_append_left back hproperty))

/-- The reference that is replaced at the beginning of a name with members is the longest bound part of it. -/
theorem Inlines.eq_of_takes (h : Inlines pairs names trees) {word old new : Text} {front back : List Text}
    (hword : isIdentifier word = true) (hproperties : ∀ property ∈ front ++ back, isIdentifier property = true)
    (hmem : chainOf word front ∈ names)
    (hlongest : ∀ more, more <+: back → more ≠ [] → chainOf word (front ++ more) ∉ names)
    (htakes : Takes pairs (chainOf word (front ++ back)) old new) : old = chainOf word front := by
  obtain ⟨front', back', hsplit, rfl⟩ := htakes.heads.exists_chainOf hword hproperties
  rcases List.append_eq_append_iff.mp hsplit with ⟨more, rfl, rfl⟩ | ⟨more, rfl, -⟩
  · by_cases hmore : more = []
    · rw [hmore, List.append_nil]
    · obtain ⟨before, after, hpairs, -⟩ := htakes.last
      have hpair : (chainOf word (front ++ more), new) ∈ pairs := by
        rw [hpairs]
        exact List.mem_append_right _ List.mem_cons_self
      have hbound : chainOf word (front ++ more) ∈ names :=
        (h.mem_chainOf_iff hword (List.append_assoc front more back' ▸ hproperties)).mpr ⟨_, htakes.mem, rfl⟩
      exact absurd hbound (hlongest more (List.prefix_append more back') hmore)
  · by_cases hmore : more = []
    · rw [hmore, List.append_nil]
    · -- the longer one would have been taken
      obtain ⟨pair, hpair, heq⟩ := (h.mem_chainOf_iff hword hproperties).mp hmem
      have hle := htakes.longest pair hpair (heq ▸ heads_chainOf word _ back)
      obtain ⟨property, more, rfl⟩ := List.exists_cons_of_ne_nil hmore
      rw [heq, chainOf_append, List.length_append, List.flatMap_cons, List.cons_append, List.length_cons] at hle
      omega

/-- What is read of a chain that is renamed: the same, or an expression with members. -/
theorem Renaming.RewritesTo.reads_chain (h : Inlines pairs names trees) {run outcome : Text}
    (hrewrites : RewritesTo pairs (.chain run) outcome) (hjoins : ∀ c ∈ run, joinsNext c = true)
    {own rest symbols : List Symbol} (hown : chainSymbols? run = some own)
    (hend : ∀ next ∈ rest.head?, ∀ property, next ≠ .access property)
    (hsymbols : ExprTree.InlinesTo names trees (own ++ rest) symbols) :
    ∃ own' rest', symbols = own' ++ rest' ∧ ExprTree.InlinesTo names trees rest rest' ∧
      (outcome = run ∧ own' = own ∨
        (Lexeme.chain run).IsWord ∧ (∀ last ∈ own.getLast?, last.EndsOperand) ∧
          ∃ tree : ExprTree, own' = tree.symbols ∧ ∃ lexemes, ReadsAs outcome lexemes tree.symbols ∧
            (∀ next ∈ lexemes.head?, next.Opens) ∧ ∀ last ∈ lexemes.getLast?, last.Closes) := by
  generalize hlexeme : Lexeme.chain run = lexeme at hrewrites
  rcases chainSymbols?_cases hown with ⟨word, properties, rfl, hword, hproperties, rfl⟩ | ⟨hnames, hkeyword⟩
  · -- a name with members: both look for the longest reference at its beginning
    obtain ⟨rest', hrest, hcases⟩ := hsymbols.of_name hend
    rcases hcases with ⟨hnone, rfl⟩ | ⟨front, back, inlined, rfl, hmem, hlongest, htree, rfl⟩
    · refine ⟨_, rest', rfl, hrest, .inl ⟨?_, rfl⟩⟩
      cases hrewrites with
      | literal => cases hlexeme
      | kept _ => exact (Lexeme.chain.inj hlexeme).symm
      | other => cases hlexeme
      | @replaced old new tail htakes =>
        rw [← Lexeme.chain.inj hlexeme] at htakes
        obtain ⟨front, back, rfl, rfl⟩ := htakes.heads.exists_chainOf hword hproperties
        have hbound := (h.mem_chainOf_iff hword hproperties).mpr ⟨_, htakes.mem, rfl⟩
        exact absurd hbound (hnone front (List.prefix_append front back))
    · cases hrewrites with
      | literal => cases hlexeme
      | other => cases hlexeme
      | kept hnone =>
        rw [← Lexeme.chain.inj hlexeme] at hnone
        obtain ⟨pair, hpair, heq⟩ := (h.mem_chainOf_iff hword hproperties).mp hmem
        exact absurd (heq ▸ heads_chainOf word front back) (hnone pair hpair)
      | @replaced old new tail htakes =>
        have hrun := Lexeme.chain.inj hlexeme
        rw [← hrun] at htakes
        obtain rfl := h.eq_of_takes hword hproperties hmem hlongest htakes
        have htail : back.flatMap ('.' :: ·) = tail := by
          rw [chainOf_append] at hrun
          exact List.append_cancel_left hrun
        have hback : ∀ property ∈ back, isIdentifier property = true :=
          fun property hproperty => hproperties property (List.mem_append_right front hproperty)
        obtain ⟨lexemes, hreads, hopens, hcloses⟩ := (h.isParse _ htakes.mem inlined htree).members
          (h.trimmed _ htakes.mem) hback
        rw [htail] at hreads
        refine ⟨(inlined.members back).symbols, rest', ?_, hrest, .inr ⟨?_, ?_, _, rfl, lexemes, hreads, hopens,
          hcloses⟩⟩
        · rw [ExprTree.symbols_members, List.append_assoc]
        · rw [← hrun]
          exact isWord_chainOf hword (front ++ back)
        · intro last hlast
          rcases List.mem_cons.mp (List.mem_of_mem_getLast? hlast) with rfl | hlast
          · trivial
          · obtain ⟨property, -, rfl⟩ := List.mem_map.mp hlast
            trivial
  · -- no name, so no reference either
    obtain ⟨rest', rfl, hrest⟩ := hsymbols.of_append hnames
    refine ⟨own, rest', rfl, hrest, .inl ⟨?_, rfl⟩⟩
    cases hrewrites with
    | literal => cases hlexeme
    | kept _ => exact (Lexeme.chain.inj hlexeme).symm
    | other => cases hlexeme
    | @replaced old new tail htakes =>
      have hrun := Lexeme.chain.inj hlexeme
      obtain ⟨tail', htail, hheads⟩ := htakes.heads
      obtain rfl := List.append_cancel_left htail
      obtain ⟨hidentifier, hnot⟩ := h.word _ htakes.mem
      have hparts : ∃ back, splitDots (old ++ tail) = ((splitDots old).1, (splitDots old).2 ++ back) ∧
          tail = back.flatMap ('.' :: ·) :=
        splitDots_of_heads (fun c hc => hjoins c (hrun ▸ List.mem_append_right old hc)) hheads
      obtain ⟨back, hsplit, -⟩ := hparts
      rw [hrun, hsplit] at hkeyword
      exact absurd (hkeyword hidentifier) hnot

theorem BeginsLike.cons (lexeme : Lexeme) (rest rest' : List Lexeme) :
    BeginsLike (lexeme :: rest) (lexeme :: rest') := .inl rfl

/-- What fits one text fits lexemes that are apart from it. -/
theorem Lexeme.Fits.behind {lexeme : Lexeme} {rest : Text} {lexemes : List Lexeme} (h : lexeme.Fits rest)
    (hclosed : ∀ body, lexeme ≠ .literal body false) (hchained : Chained lexemes)
    (hapart : ∀ next ∈ lexemes.head?, lexeme.Apart next) : lexeme.Fits (join lexemes) := by
  have halone : lexeme.Fits [] := by
    cases lexeme with
    | literal body closed =>
      cases closed with
      | false => exact absurd rfl (hclosed body)
      | true => exact ⟨h.1, by simp⟩
    | chain run => exact ⟨h.1, h.2.1, by simp⟩
    | other c => exact h
  exact halone.of_apart hclosed hchained hapart

/-- A lexeme that is kept, before those that are read in the place of the others. -/
theorem ReadsAs.cons {lexeme : Lexeme} {rest text : Text} {lexemes : List Lexeme} {symbols symbols' : List Symbol}
    (h : ReadsAs text lexemes symbols) (hfits : lexeme.Fits rest) (hclosed : ∀ body, lexeme ≠ .literal body false)
    (hapart : ∀ next ∈ lexemes.head?, lexeme.Apart next) (hreads : Reads (lexeme :: lexemes) symbols') :
    ReadsAs (lexeme.text ++ text) (lexeme :: lexemes) symbols' := by
  have hchained := h.lexing.chained
  refine ⟨⟨.cons (hfits.behind hclosed hchained hapart) hchained, ?_⟩, hreads⟩
  rw [join_cons, h.lexing.join_eq]

/-- Renaming lexeme by lexeme: what is read afterwards are the symbols with expressions in the place of the
references. Nothing runs into an expression that is put in, because a reference is a chain, so that no chain
stands next to it, and an operand, so that no literal does. -/
theorem Reads.rewritten (h : Inlines pairs names trees) {lexemes : List Lexeme} {symbols symbols' : List Symbol}
    (hreads : Reads lexemes symbols) (hchained : Chained lexemes) (hadjacent : symbols.IsChain Adjacent)
    (hsymbols : ExprTree.InlinesTo names trees symbols symbols') {outcomes : List Text}
    (houtcomes : List.Forall₂ (RewritesTo pairs) lexemes outcomes) :
    ∃ lexemes', ReadsAs outcomes.flatten lexemes' symbols' ∧ BeginsLike lexemes lexemes' := by
  have hother : ∀ {c : Char} {lexemes : List Lexeme} (run : Text), .chain run ∈ lexemes.head? →
      (Lexeme.chain run).IsWord → ∃ d, Lexeme.other c = .other d := fun _ _ _ => ⟨_, rfl⟩
  induction hreads generalizing symbols' outcomes with
  | nil =>
    cases hsymbols
    cases houtcomes
    exact ⟨[], ⟨⟨.nil, rfl⟩, .nil⟩, .inl rfl⟩
  | @literal body rest symbols hrest ih =>
    obtain ⟨hfits, hchainedRest⟩ := chained_cons_iff.mp hchained
    obtain ⟨hnext, hadjacentRest⟩ := List.isChain_cons.mp hadjacent
    obtain ⟨between, rfl, hbetween⟩ := hsymbols.of_cons (by simp)
    cases houtcomes with
    | cons houtcome houtcomes =>
      cases houtcome
      obtain ⟨rest', hrest', hbegins⟩ := ih hchainedRest hadjacentRest hbetween houtcomes
      have hapart : ∀ next ∈ rest'.head?, (Lexeme.literal body true).Apart next := by
        refine hbegins.apart (hchained.apart_head (by simp)) fun run hrun hword => ?_
        have hnot := hrest.not_isWord_head hchainedRest fun symbol hsymbol => hnext symbol hsymbol trivial
        exact absurd hword (hnot _ hrun)
      exact ⟨_, hrest'.cons hfits (by simp) hapart (.literal hrest'.reads), .cons _ _ _⟩
  | @chain run own symbols rest hrun hrest ih =>
    obtain ⟨hfits, hchainedRest⟩ := chained_cons_iff.mp hchained
    obtain ⟨-, hadjacentRest, hnext⟩ := List.isChain_append.mp hadjacent
    -- no other chain stands behind this one
    have hnone : ∀ run', .chain run' ∉ rest.head? := fun run' hrun' => hchained.apart_head (by simp) _ hrun'
    have hend := hrest.head?_ne_access hchainedRest fun run' hrun' => absurd hrun' (hnone run')
    cases houtcomes with
    | cons houtcome houtcomes =>
      obtain ⟨own', between, rfl, hbetween, hcases⟩ := houtcome.reads_chain h hfits.2.1 hrun hend hsymbols
      obtain ⟨rest', hrest', hbegins⟩ := ih hchainedRest hadjacentRest hbetween houtcomes
      rcases hcases with ⟨rfl, rfl⟩ | ⟨hword, hends, tree, rfl, lexemes, hreads, hopens, hcloses⟩
      · have hapart := hbegins.apart (hchained.apart_head (by simp)) fun run' hrun' => absurd hrun' (hnone run')
        exact ⟨_, hrest'.cons hfits (by simp) hapart (.chain hrun hrest'.reads), .cons _ _ _⟩
      · -- nor does a literal stand behind an operand
        have hnoLiteral : ∀ body closed, .literal body closed ∉ rest.head? := by
          intro body closed hmem
          obtain ⟨first, hfirst, -⟩ := exists_head_of_chainSymbols? hrun hfits.1 hword
          have hne : own ≠ [] := List.ne_nil_of_mem (List.mem_of_mem_head? hfirst)
          have hgetLast := List.getLast?_eq_some_getLast hne
          have hnot := hrest.not_isWord_head hchainedRest fun symbol hsymbol =>
            hnext _ hgetLast symbol hsymbol (hends _ hgetLast)
          exact hnot _ hmem trivial
        have hapart := hbegins.apart_of_closes hnone hnoLiteral hcloses
        have hne : lexemes ≠ [] := by
          rintro rfl
          have hnil := hreads.reads.unique .nil
          exact tree.symbols_ne_nil hnil
        refine ⟨lexemes ++ rest', hreads.append hrest' hapart, .inr ⟨⟨run, rfl, hword⟩, fun next hmem => ?_⟩⟩
        rw [List.head?_append_of_ne_nil _ hne] at hmem
        exact hopens next hmem
  | @pair c d symbol rest symbols hpair hrest ih =>
    obtain ⟨hfits, hchainedTail⟩ := chained_cons_iff.mp hchained
    obtain ⟨hfits', hchainedRest⟩ := chained_cons_iff.mp hchainedTail
    obtain ⟨op, rfl⟩ := exists_operator_of_pair? hpair
    obtain ⟨between, rfl, hbetween⟩ := hsymbols.of_cons (by simp)
    cases houtcomes with
    | cons houtcome houtcomes =>
      cases houtcomes with
      | cons houtcome' houtcomes =>
        cases houtcome
        cases houtcome'
        obtain ⟨rest', hrest', -⟩ := ih hchainedRest (List.isChain_cons.mp hadjacent).2 hbetween houtcomes
        refine ⟨.other c :: .other d :: rest', ⟨⟨.cons hfits (.cons hfits' hrest'.lexing.chained), ?_⟩,
          .pair hpair hrest'.reads⟩, .cons _ _ _⟩
        rw [join_cons, join_cons, hrest'.lexing.join_eq]
        rfl
  | @single c symbol rest symbols hsingle hnext hrest ih =>
    obtain ⟨hfits, hchainedRest⟩ := chained_cons_iff.mp hchained
    have hname : ∀ word, symbol ≠ .name word := by
      rintro word rfl
      exact (not_isWord_of_single? hsingle).1 trivial
    obtain ⟨between, rfl, hbetween⟩ := hsymbols.of_cons hname
    cases houtcomes with
    | cons houtcome houtcomes =>
      cases houtcome
      obtain ⟨rest', hrest', hbegins⟩ := ih hchainedRest (List.isChain_cons.mp hadjacent).2 hbetween houtcomes
      have hapart := hbegins.apart hnext hother
      exact ⟨_, hrest'.cons hfits (by simp) hapart (.single hsingle hapart hrest'.reads), .cons _ _ _⟩
  | @blank c rest symbols hblank hnext hrest ih =>
    obtain ⟨hfits, hchainedRest⟩ := chained_cons_iff.mp hchained
    cases houtcomes with
    | cons houtcome houtcomes =>
      cases houtcome
      obtain ⟨rest', hrest', hbegins⟩ := ih hchainedRest hadjacent hsymbols houtcomes
      have hapart := hbegins.apart hnext hother
      exact ⟨_, hrest'.cons hfits (by simp) hapart (.blank hblank hapart hrest'.reads), .cons _ _ _⟩

/-- The renamed text of an expression is read as the symbols of the expression with others in the place of its
references. -/
theorem IsParse.readsAs_apply (h : Inlines pairs names trees) {source : Text} {body outcome : ExprTree}
    (hbody : IsParse source body) (houtcome : body.inline names trees = some outcome) :
    ∃ lexemes, ReadsAs (pairs.apply source) lexemes outcome.symbols := by
  obtain ⟨lexemes, hlexing, hreads⟩ := hbody.readsAs
  have hsymbols : ExprTree.InlinesTo names trees (body.symbols ++ []) (outcome.symbols ++ []) :=
    ExprTree.inlinesTo_symbols houtcome hbody.wellFormed (.inl (by simp)) .nil
  rw [List.append_nil, List.append_nil] at hsymbols
  obtain ⟨outcomes, houtcomes⟩ := exists_forall₂ fun lexeme (_ : lexeme ∈ lexemes) =>
    exists_rewritesTo h.isReference lexeme
  obtain ⟨lexemes', hreads', -⟩ := hreads.rewritten h hlexing.chained body.isChain_symbols hsymbols houtcomes
  rw [apply_eq_flatten h.isReference hlexing houtcomes]
  exact ⟨lexemes', hreads'⟩

end

end CachedWorkflow
