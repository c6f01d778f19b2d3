import CachedWorkflow.Text
import Mathlib.Data.List.Chain
import Mathlib.Data.List.Infix

/-!
# Proofs: expressions as trees

An expression is a tree of operators, member accesses, calls and parentheses, written as a list of symbols
(`ExprTree.symbols`). Which trees can be written is a matter of levels: an operand binds at least as tightly as
the place that it stands in (`ExprTree.WellFormed`). So the symbols determine the tree
(`ExprTree.eq_of_symbols`): the operator at the root is the last of the loosest ones outside of brackets.
-/

namespace CachedWorkflow

/-- The operators between two operands. The comma between two arguments of a call is one of them. -/
inductive Operator where
  | comma
  | or
  | and
  | equal
  | notEqual
  | less
  | lessEqual
  | greater
  | greaterEqual
  deriving DecidableEq, Repr

/-- How tightly an operator binds. -/
def Operator.level : Operator → Nat
  | .comma => 0
  | .or => 1
  | .and => 2
  | .equal | .notEqual => 3
  | .less | .lessEqual | .greater | .greaterEqual => 4

theorem Operator.level_lt (op : Operator) : op.level < 5 := by cases op <;> decide

/-- A symbol of an expression. -/
inductive Symbol where
  | name (text : Text)
  | literal (text : Text)
  /-- A dot with the name of a member. -/
  | access (property : Text)
  | operator (op : Operator)
  | not
  | parenOpen
  | parenClose
  | bracketOpen
  | bracketClose
  deriving DecidableEq, Repr

/-- An expression with its parentheses. -/
inductive ExprTree where
  | name (text : Text)
  | literal (text : Text)
  | member (object : ExprTree) (property : Text)
  | index (object key : ExprTree)
  /-- A call without arguments. -/
  | nullary (function : Text)
  /-- A call with arguments, which commas put together. -/
  | call (function : Text) (arguments : ExprTree)
  | group (inner : ExprTree)
  | not (operand : ExprTree)
  | binary (op : Operator) (left right : ExprTree)
  deriving DecidableEq, Repr

namespace ExprTree

/-- How tightly the root of an expression binds. -/
def level : ExprTree → Nat
  | .binary op _ _ => op.level
  | .not _ => 5
  | .literal _ => 6
  | .name _ | .member _ _ | .index _ _ | .nullary _ | .call _ _ | .group _ => 7

/-- The symbols of an expression, from left to right. -/
def symbols : ExprTree → List Symbol
  | .name text => [.name text]
  | .literal text => [.literal text]
  | .member object property => object.symbols ++ [.access property]
  | .index object key => object.symbols ++ .bracketOpen :: (key.symbols ++ [.bracketClose])
  | .nullary function => [.name function, .parenOpen, .parenClose]
  | .call function arguments => .name function :: .parenOpen :: (arguments.symbols ++ [.parenClose])
  | .group inner => .parenOpen :: (inner.symbols ++ [.parenClose])
  | .not operand => .not :: operand.symbols
  | .binary op left right => left.symbols ++ .operator op :: right.symbols

/-- Whether every operand binds tightly enough for its place. Operators of one level are read from left to
right, commas only stand between the arguments of a call, and literals have no members. -/
def WellFormed : ExprTree → Prop
  | .name _ | .literal _ | .nullary _ => True
  | .member object _ => object.WellFormed ∧ 7 ≤ object.level
  | .index object key => object.WellFormed ∧ 7 ≤ object.level ∧ key.WellFormed ∧ 1 ≤ key.level
  | .call _ arguments => arguments.WellFormed
  | .group inner => inner.WellFormed ∧ 1 ≤ inner.level
  | .not operand => operand.WellFormed ∧ 5 ≤ operand.level
  | .binary op left right =>
    left.WellFormed ∧ op.level ≤ left.level ∧ right.WellFormed ∧ op.level < right.level

/-- The expression without its parentheses: what it means. -/
def ungrouped : ExprTree → ExprTree
  | .name text => .name text
  | .literal text => .literal text
  | .member object property => .member object.ungrouped property
  | .index object key => .index object.ungrouped key.ungrouped
  | .nullary function => .nullary function
  | .call function arguments => .call function arguments.ungrouped
  | .group inner => inner.ungrouped
  | .not operand => .not operand.ungrouped
  | .binary op left right => .binary op left.ungrouped right.ungrouped

instance decidableWellFormed : (tree : ExprTree) → Decidable tree.WellFormed
  | .name _ | .literal _ | .nullary _ => .isTrue trivial
  | .member object _ =>
    have := decidableWellFormed object
    inferInstanceAs (Decidable (object.WellFormed ∧ 7 ≤ object.level))
  | .index object key =>
    have := decidableWellFormed object
    have := decidableWellFormed key
    inferInstanceAs (Decidable (object.WellFormed ∧ 7 ≤ object.level ∧ key.WellFormed ∧ 1 ≤ key.level))
  | .call _ arguments => decidableWellFormed arguments
  | .group inner =>
    have := decidableWellFormed inner
    inferInstanceAs (Decidable (inner.WellFormed ∧ 1 ≤ inner.level))
  | .not operand =>
    have := decidableWellFormed operand
    inferInstanceAs (Decidable (operand.WellFormed ∧ 5 ≤ operand.level))
  | .binary op left right =>
    have := decidableWellFormed left
    have := decidableWellFormed right
    inferInstanceAs (Decidable
      (left.WellFormed ∧ op.level ≤ left.level ∧ right.WellFormed ∧ op.level < right.level))

end ExprTree

/-! ## Brackets -/

namespace Symbol

/-- How many brackets are open behind a symbol, if `depth` are before it. There is no answer for one that is
closed but not open. -/
def step (depth : Nat) : Symbol → Option Nat
  | .parenOpen | .bracketOpen => some (depth + 1)
  | .parenClose | .bracketClose =>
    match depth with
    | 0 => none
    | depth + 1 => some depth
  | _ => some depth

/-- The same for symbols, one after the other. -/
def depthAfter (depth : Nat) (symbols : List Symbol) : Option Nat := symbols.foldlM step depth

/-- All brackets that are opened are closed, and no others. -/
def Balanced (symbols : List Symbol) : Prop := depthAfter 0 symbols = some 0

theorem depthAfter_append (depth : Nat) (front back : List Symbol) :
    depthAfter depth (front ++ back) = (depthAfter depth front).bind (depthAfter · back) :=
  List.foldlM_append

theorem depthAfter_cons (depth : Nat) (symbol : Symbol) (rest : List Symbol) :
    depthAfter depth (symbol :: rest) = (step depth symbol).bind (depthAfter · rest) :=
  List.foldlM_cons

theorem step_add {depth depth' : Nat} {symbol : Symbol} (h : step depth symbol = some depth') (more : Nat) :
    step (depth + more) symbol = some (depth' + more) := by
  cases symbol with
  | parenOpen | bracketOpen =>
    obtain rfl := Option.some.inj h
    rw [step, Nat.add_right_comm]
  | parenClose | bracketClose =>
    cases depth with
    | zero => cases h
    | succ depth =>
      obtain rfl := Option.some.inj h
      rw [Nat.add_right_comm]
      rfl
  | _ =>
    obtain rfl := Option.some.inj h
    rfl

/-- More brackets around symbols change nothing in them. -/
theorem depthAfter_add {depth depth' : Nat} {symbols : List Symbol}
    (h : depthAfter depth symbols = some depth') (more : Nat) :
    depthAfter (depth + more) symbols = some (depth' + more) := by
  induction symbols generalizing depth with
  | nil =>
    obtain rfl := Option.some.inj h
    rfl
  | cons symbol rest ih =>
    rw [depthAfter_cons] at h ⊢
    obtain ⟨between, hstep, hrest⟩ := Option.bind_eq_some_iff.mp h
    rw [step_add hstep, Option.bind_some, ih hrest]

namespace Balanced

variable {front back : List Symbol}

theorem depthAfter_eq (h : Balanced front) (depth : Nat) : depthAfter depth front = some depth := by
  have hmore := depthAfter_add h depth
  rwa [Nat.zero_add] at hmore

theorem append (h : Balanced front) (h' : Balanced back) : Balanced (front ++ back) := by
  rw [Balanced, depthAfter_append, h.depthAfter_eq, Option.bind_some, h'.depthAfter_eq]

theorem cons {symbol : Symbol} (hsymbol : step 0 symbol = some 0) (h : Balanced back) :
    Balanced (symbol :: back) := by
  rw [Balanced, depthAfter_cons, hsymbol]
  exact h

theorem of_append (h : Balanced (front ++ back)) (hfront : Balanced front) : Balanced back := by
  rw [Balanced, depthAfter_append, hfront.depthAfter_eq, Option.bind_some] at h
  exact h

/-- At the beginning of balanced symbols no bracket is closed that is not open. -/
theorem exists_depthAfter (h : Balanced (front ++ back)) : ∃ depth, depthAfter 0 front = some depth := by
  rw [Balanced, depthAfter_append] at h
  obtain ⟨depth, hdepth, -⟩ := Option.bind_eq_some_iff.mp h
  exact ⟨depth, hdepth⟩

/-- Inside of brackets the beginning of balanced symbols is not balanced. -/
theorem not_balanced_inside (h : Balanced (front ++ back)) (hlead : Balanced lead) {opened : Symbol}
    (hopened : step 0 opened = some 1) : ¬ Balanced (lead ++ opened :: front) := by
  obtain ⟨depth, hdepth⟩ := h.exists_depthAfter
  have hinside : depthAfter 0 (lead ++ opened :: front) = some (depth + 1) := by
    rw [depthAfter_append, hlead.depthAfter_eq, Option.bind_some, depthAfter_cons, hopened, Option.bind_some]
    exact depthAfter_add hdepth 1
  rw [Balanced, hinside]
  exact fun heq => Nat.succ_ne_zero depth (Option.some.inj heq)

theorem enclosed (h : Balanced front) {opened closed : Symbol} (hopened : step 0 opened = some 1)
    (hclosed : step 1 closed = some 0) : Balanced (opened :: (front ++ [closed])) := by
  rw [Balanced, depthAfter_cons, hopened, Option.bind_some, depthAfter_append, h.depthAfter_eq,
    Option.bind_some, depthAfter_cons, hclosed]
  rfl

end Balanced

end Symbol

namespace ExprTree

open CachedWorkflow.Symbol

theorem balanced_symbols (tree : ExprTree) : Balanced tree.symbols := by
  induction tree with
  | name _ => rfl
  | literal _ => rfl
  | member object property ih => exact ih.append rfl
  | index object key ih ih' => exact ih.append (ih'.enclosed rfl rfl)
  | nullary _ => rfl
  | call function arguments ih => exact .cons rfl (ih.enclosed rfl rfl)
  | group inner ih => exact ih.enclosed rfl rfl
  | not operand ih => exact .cons rfl ih
  | binary op left right ih ih' => exact ih.append (.cons rfl ih')

theorem symbols_ne_nil (tree : ExprTree) : tree.symbols ≠ [] := by
  cases tree <;> simp [symbols]

end ExprTree

/-! ## Operators outside of brackets -/

/-- Two ways to split a list at an element. -/
theorem append_cons_cases {α : Type} {front front' back back' : List α} {a a' : α}
    (h : front ++ a :: back = front' ++ a' :: back') :
    (∃ rest, front = front' ++ a' :: rest ∧ back' = rest ++ a :: back) ∨
      (front = front' ∧ a = a' ∧ back = back') ∨
      ∃ rest, front' = front ++ a :: rest ∧ back = rest ++ a' :: back' := by
  rcases List.append_eq_append_iff.mp h with ⟨rest, hfront, hback⟩ | ⟨rest, hfront, hback⟩
  · cases rest with
    | nil =>
      obtain ⟨rfl, rfl⟩ := List.cons.inj hback
      exact .inr (.inl ⟨by rw [hfront, List.append_nil], rfl, rfl⟩)
    | cons c rest =>
      obtain ⟨rfl, rfl⟩ := List.cons.inj hback
      exact .inr (.inr ⟨rest, hfront, rfl⟩)
  · cases rest with
    | nil =>
      obtain ⟨rfl, rfl⟩ := List.cons.inj hback
      exact .inr (.inl ⟨by rw [hfront, List.append_nil], rfl, rfl⟩)
    | cons c rest =>
      obtain ⟨rfl, rfl⟩ := List.cons.inj hback
      exact .inl ⟨rest, hfront, rfl⟩

namespace ExprTree

open CachedWorkflow.Symbol

/-- Every operator that stands in the symbols outside of brackets binds at least this tightly. -/
def OperatorsFrom (level : Nat) (symbols : List Symbol) : Prop :=
  ∀ front op back, symbols = front ++ .operator op :: back → Balanced front → level ≤ op.level

section

variable {level : Nat} {front back : List Symbol}

theorem OperatorsFrom.mono {level' : Nat} (h : OperatorsFrom level front) (hle : level' ≤ level) :
    OperatorsFrom level' front := fun lead op rest hsplit hlead => hle.trans (h lead op rest hsplit hlead)

theorem OperatorsFrom.nil : OperatorsFrom level [] := by
  intro lead op rest hsplit
  simp at hsplit

theorem OperatorsFrom.cons {symbol : Symbol} (h : OperatorsFrom level back) (hsymbol : ∀ op, symbol ≠ .operator op)
    (hstep : step 0 symbol = some 0) : OperatorsFrom level (symbol :: back) := by
  intro lead op rest hsplit hlead
  cases lead with
  | nil => exact absurd (List.cons.inj hsplit).1 (hsymbol op)
  | cons first lead =>
    obtain ⟨rfl, hback⟩ := List.cons.inj hsplit
    have hfirst : Balanced [symbol] := .cons hstep rfl
    exact h lead op rest hback (hlead.of_append hfirst)

theorem OperatorsFrom.concat {symbol : Symbol} (h : OperatorsFrom level front)
    (hsymbol : ∀ op, symbol ≠ .operator op) : OperatorsFrom level (front ++ [symbol]) := by
  intro lead op rest hsplit hlead
  rcases append_cons_cases hsplit with ⟨more, hmore, -⟩ | ⟨-, heq, -⟩ | ⟨more, -, hmore⟩
  · exact h lead op more hmore hlead
  · exact absurd heq (hsymbol op)
  · simp at hmore

theorem OperatorsFrom.operator {op : Operator} (h : OperatorsFrom level front) (hle : level ≤ op.level)
    (h' : OperatorsFrom level back) (hfront : Balanced front) :
    OperatorsFrom level (front ++ .operator op :: back) := by
  intro lead other rest hsplit hlead
  rcases append_cons_cases hsplit with ⟨more, hmore, -⟩ | ⟨-, heq, -⟩ | ⟨more, rfl, hmore⟩
  · exact h lead other more hmore hlead
  · cases heq
    exact hle
  · have hop : Balanced [.operator op] := rfl
    exact h' more other rest hmore ((hlead.of_append hfront).of_append hop)

theorem OperatorsFrom.enclosed {inner : List Symbol} {opened closed : Symbol} (h : OperatorsFrom level front)
    (hfront : Balanced front) (hinner : Balanced inner) (hopened : step 0 opened = some 1)
    (hclosed : step 1 closed = some 0) :
    OperatorsFrom level (front ++ opened :: (inner ++ [closed])) := by
  intro lead op rest hsplit hlead
  rcases append_cons_cases hsplit with ⟨more, hmore, -⟩ | ⟨-, rfl, -⟩ | ⟨more, rfl, hmore⟩
  · exact h lead op more hmore hlead
  · cases hopened
  · rcases append_cons_cases hmore with ⟨more', rfl, -⟩ | ⟨-, rfl, -⟩ | ⟨more', -, hmore'⟩
    · exact absurd hlead (hinner.not_balanced_inside hfront hopened)
    · cases hclosed
    · simp at hmore'

end

/-- Outside of brackets no operator binds less tightly than the root. -/
theorem operatorsFrom_level {tree : ExprTree} (h : tree.WellFormed) : OperatorsFrom tree.level tree.symbols := by
  induction tree with
  | name _ => exact OperatorsFrom.nil.cons (by simp) rfl
  | literal _ => exact OperatorsFrom.nil.cons (by simp) rfl
  | member object property ih => exact ((ih h.1).mono h.2).concat (by simp)
  | index object key ih _ =>
    exact ((ih h.1).mono h.2.1).enclosed object.balanced_symbols key.balanced_symbols rfl rfl
  | nullary function =>
    have hname : OperatorsFrom 7 [.name function] := OperatorsFrom.nil.cons (by simp) rfl
    have hnone : Balanced [] := rfl
    exact hname.enclosed rfl hnone rfl rfl
  | call function arguments _ =>
    have hname : OperatorsFrom 7 [.name function] := OperatorsFrom.nil.cons (by simp) rfl
    exact hname.enclosed rfl arguments.balanced_symbols rfl rfl
  | group inner _ => exact OperatorsFrom.nil.enclosed rfl inner.balanced_symbols rfl rfl
  | not operand ih => exact ((ih h.1).mono h.2).cons (by simp) rfl
  | binary op left right ih ih' =>
    obtain ⟨hleft, hle, hright, hlt⟩ := h
    exact ((ih hleft).mono hle).operator le_rfl ((ih' hright).mono hlt.le) left.balanced_symbols

/-- Only where an operator is at the root there is one outside of brackets. -/
theorem exists_binary {tree : ExprTree} (h : tree.WellFormed) {front back : List Symbol} {op : Operator}
    (hsplit : tree.symbols = front ++ .operator op :: back) (hfront : Balanced front) :
    ∃ op' left right, tree = .binary op' left right := by
  have hle := operatorsFrom_level h front op back hsplit hfront
  have hlt := Operator.level_lt op
  cases tree with
  | binary op' left right => exact ⟨op', left, right, rfl⟩
  | _ =>
    simp only [level] at hle
    omega

/-- The symbols determine an operator at the root and its operands. -/
theorem binary_inj {op op' : Operator} {left right left' right' : ExprTree}
    (h : (binary op left right).WellFormed) (h' : (binary op' left' right').WellFormed)
    (hsymbols : (binary op left right).symbols = (binary op' left' right').symbols) :
    left.symbols = left'.symbols ∧ op = op' ∧ right.symbols = right'.symbols := by
  obtain ⟨hleft, hle, hright, hlt⟩ := h
  obtain ⟨hleft', hle', hright', hlt'⟩ := h'
  -- where one of them comes first, it stands in the left operand of the other one, and this in its right
  have hfirst : ∀ {op op' : Operator} {left right left' right' : ExprTree} {between : List Symbol},
      left'.WellFormed → op'.level ≤ left'.level → right.WellFormed → op.level < right.level →
      left'.symbols = left.symbols ++ .operator op :: between →
      right.symbols = between ++ .operator op' :: right'.symbols → False := by
    intro op op' left right left' right' between hleft' hle' hright hlt hfront hback
    have hbetween : Balanced between := by
      have hbalanced := left'.balanced_symbols
      rw [hfront] at hbalanced
      have hop : Balanced [.operator op] := rfl
      exact (hbalanced.of_append left.balanced_symbols).of_append hop
    have hone := operatorsFrom_level hleft' _ op _ hfront left.balanced_symbols
    have hother := operatorsFrom_level hright _ op' _ hback hbetween
    omega
  rcases append_cons_cases hsymbols with ⟨between, hfront, hback⟩ | ⟨hfront, heq, hback⟩ | ⟨between, hfront, hback⟩
  · exact (hfirst hleft hle hright' hlt' hfront hback).elim
  · exact ⟨hfront, Symbol.operator.inj heq, hback⟩
  · exact (hfirst hleft' hle' hright hlt hfront hback).elim

/-- The symbols determine an access by key: the bracket that is closed at the end is opened behind the object. -/
theorem index_inj {object key object' key' : ExprTree}
    (hsymbols : (index object key).symbols = (index object' key').symbols) :
    object.symbols = object'.symbols ∧ key.symbols = key'.symbols := by
  have hinside : ∀ {object key object' key' : ExprTree} {between : List Symbol},
      object'.symbols = object.symbols ++ .bracketOpen :: between →
      key.symbols ++ [.bracketClose] = between ++ .bracketOpen :: (key'.symbols ++ [.bracketClose]) → False := by
    intro object key object' key' between hfront hback
    have hkey : key.symbols = between ++ .bracketOpen :: key'.symbols := by
      refine List.append_cancel_right (hback.trans ?_)
      rw [List.append_assoc, List.cons_append]
    have hopened : step 0 .bracketOpen = some 1 := rfl
    have hinside := (hkey ▸ key.balanced_symbols).not_balanced_inside object.balanced_symbols hopened
    exact hinside (hfront ▸ object'.balanced_symbols)
  rcases append_cons_cases hsymbols with ⟨between, hfront, hback⟩ | ⟨hfront, -, hback⟩ | ⟨between, hfront, hback⟩
  · exact (hinside hfront hback).elim
  · exact ⟨hfront, List.append_cancel_right hback⟩
  · exact (hinside hfront hback).elim

/-! ## Reading back -/

/-- The symbol that an expression begins with. -/
def first : ExprTree → Symbol
  | .name text | .nullary text | .call text _ => .name text
  | .literal text => .literal text
  | .member object _ | .index object _ => object.first
  | .group _ => .parenOpen
  | .not _ => .not
  | .binary _ left _ => left.first

/-- The symbol that an expression ends with. -/
def last : ExprTree → Symbol
  | .name text => .name text
  | .literal text => .literal text
  | .member _ property => .access property
  | .index _ _ => .bracketClose
  | .nullary _ | .call _ _ | .group _ => .parenClose
  | .not operand => operand.last
  | .binary _ _ right => right.last

theorem head?_symbols (tree : ExprTree) : tree.symbols.head? = some tree.first := by
  induction tree with
  | member object property ih => rw [symbols, List.head?_append, ih, first, Option.some_or]
  | index object key ih _ => rw [symbols, List.head?_append, ih, first, Option.some_or]
  | binary op left right ih _ => rw [symbols, List.head?_append, ih, first, Option.some_or]
  | _ => rfl

theorem getLast?_symbols (tree : ExprTree) : tree.symbols.getLast? = some tree.last := by
  have hend : ∀ (lead inner : List Symbol) (opened closed : Symbol),
      (lead ++ opened :: (inner ++ [closed])).getLast? = some closed := by
    intro lead inner opened closed
    rw [← List.cons_append, ← List.append_assoc, List.getLast?_concat]
  induction tree with
  | name _ => rfl
  | literal _ => rfl
  | member object property _ => rw [symbols, List.getLast?_concat, last]
  | index object key _ _ => exact hend object.symbols key.symbols _ _
  | nullary _ => rfl
  | call function arguments _ => exact hend [.name function] arguments.symbols _ _
  | group inner _ => exact hend [] inner.symbols _ _
  | not operand ih => rw [symbols, List.getLast?_cons, ih, last, Option.getD_some]
  | binary op left right _ ih =>
    rw [symbols, List.getLast?_append, List.getLast?_cons, ih, last, Option.getD_some, Option.some_or]

theorem first_eq {tree tree' : ExprTree} (h : tree.symbols = tree'.symbols) : tree.first = tree'.first := by
  have hhead := congrArg List.head? h
  rwa [head?_symbols, head?_symbols, Option.some.injEq] at hhead

theorem last_eq {tree tree' : ExprTree} (h : tree.symbols = tree'.symbols) : tree.last = tree'.last := by
  have hlast := congrArg List.getLast? h
  rwa [getLast?_symbols, getLast?_symbols, Option.some.injEq] at hlast

/-- Only a negation begins with one, unless an operator is at the root. -/
theorem first_ne_not {tree : ExprTree} (h : tree.WellFormed) (hlevel : 6 ≤ tree.level) : tree.first ≠ .not := by
  induction tree with
  | member object property ih => exact ih h.1 (Nat.le_of_succ_le h.2)
  | index object key ih _ => exact ih h.1 (Nat.le_of_succ_le h.2.1)
  | binary op left right _ _ =>
    have hlt := op.level_lt
    simp only [level] at hlevel
    omega
  | not operand _ => simp [level] at hlevel
  | _ => simp [first]

/-- Where neither an operator nor a negation is at the root, none is at the root of another expression with the
same symbols. -/
theorem not_prefixed_of_symbols {tree tree' : ExprTree} (h : tree.WellFormed) (hlevel : 6 ≤ tree.level)
    (hsymbols : tree.symbols = tree'.symbols) :
    (∀ op left right, tree' ≠ binary op left right) ∧ ∀ operand, tree' ≠ not operand := by
  constructor
  · rintro op left right rfl
    obtain ⟨op', left', right', rfl⟩ := exists_binary h hsymbols left.balanced_symbols
    have hlt := op'.level_lt
    simp only [level] at hlevel
    omega
  · rintro operand rfl
    exact first_ne_not h hlevel (first_eq hsymbols)

/-- The symbols determine the expression. -/
theorem eq_of_symbols {tree tree' : ExprTree} (h : tree.WellFormed) (h' : tree'.WellFormed)
    (hsymbols : tree.symbols = tree'.symbols) : tree = tree' := by
  induction tree generalizing tree' with
  | binary op left right ih ih' =>
    obtain ⟨op', left', right', rfl⟩ := exists_binary h' hsymbols.symm left.balanced_symbols
    obtain ⟨hleft, rfl, hright⟩ := binary_inj h h' hsymbols
    rw [ih h.1 h'.1 hleft, ih' h.2.2.1 h'.2.2.1 hright]
  | not operand ih =>
    cases tree' with
    | not operand' => rw [ih h.1 h'.1 (List.cons.inj hsymbols).2]
    | binary op left right =>
      obtain ⟨_, _, _, heq⟩ := exists_binary h hsymbols left.balanced_symbols
      cases heq
    | _ => exact absurd rfl ((not_prefixed_of_symbols h' (by simp [level]) hsymbols.symm).2 operand)
  | member object property ih =>
    obtain ⟨hbinary, hnot⟩ := not_prefixed_of_symbols h (Nat.le_succ 6) hsymbols
    have hlast := last_eq hsymbols
    cases tree' with
    | member object' property' =>
      obtain ⟨hobject, -⟩ := List.append_inj' hsymbols rfl
      rw [ih h.1 h'.1 hobject, Symbol.access.inj hlast]
    | binary op left right => exact absurd rfl (hbinary op left right)
    | not operand => exact absurd rfl (hnot operand)
    | _ => simp [last] at hlast
  | index object key ih ih' =>
    obtain ⟨hbinary, hnot⟩ := not_prefixed_of_symbols h (Nat.le_succ 6) hsymbols
    have hlast := last_eq hsymbols
    cases tree' with
    | index object' key' =>
      obtain ⟨hobject, hkey⟩ := index_inj hsymbols
      rw [ih h.1 h'.1 hobject, ih' h.2.2.1 h'.2.2.1 hkey]
    | binary op left right => exact absurd rfl (hbinary op left right)
    | not operand => exact absurd rfl (hnot operand)
    | _ => simp [last] at hlast
  | call function arguments ih =>
    obtain ⟨hbinary, hnot⟩ := not_prefixed_of_symbols h (Nat.le_succ 6) hsymbols
    have hlast := last_eq hsymbols
    cases tree' with
    | call function' arguments' =>
      obtain ⟨hfunction, hrest⟩ := List.cons.inj hsymbols
      have harguments := List.append_cancel_right (List.cons.inj hrest).2
      have hwell : arguments.WellFormed := h
      have hwell' : arguments'.WellFormed := h'
      rw [ih hwell hwell' harguments, Symbol.name.inj hfunction]
    | nullary _ => simp [symbols, symbols_ne_nil] at hsymbols
    | group _ => simp [symbols] at hsymbols
    | binary op left right => exact absurd rfl (hbinary op left right)
    | not operand => exact absurd rfl (hnot operand)
    | _ => simp [last] at hlast
  | group inner ih =>
    obtain ⟨hbinary, hnot⟩ := not_prefixed_of_symbols h (Nat.le_succ 6) hsymbols
    have hlast := last_eq hsymbols
    cases tree' with
    | group inner' => rw [ih h.1 h'.1 (List.append_cancel_right (List.cons.inj hsymbols).2)]
    | nullary _ | call _ _ => simp [symbols] at hsymbols
    | binary op left right => exact absurd rfl (hbinary op left right)
    | not operand => exact absurd rfl (hnot operand)
    | _ => simp [last] at hlast
  | nullary function =>
    obtain ⟨hbinary, hnot⟩ := not_prefixed_of_symbols h (Nat.le_succ 6) hsymbols
    have hlast := last_eq hsymbols
    cases tree' with
    | nullary _ => rw [Symbol.name.inj (List.cons.inj hsymbols).1]
    | call _ arguments => simp [symbols, symbols_ne_nil] at hsymbols
    | group _ => simp [symbols] at hsymbols
    | binary op left right => exact absurd rfl (hbinary op left right)
    | not operand => exact absurd rfl (hnot operand)
    | _ => simp [last] at hlast
  | name text =>
    obtain ⟨hbinary, hnot⟩ := not_prefixed_of_symbols h (Nat.le_succ 6) hsymbols
    have hlast := last_eq hsymbols
    cases tree' with
    | name _ => rw [Symbol.name.inj hlast]
    | binary op left right => exact absurd rfl (hbinary op left right)
    | not operand => exact absurd rfl (hnot operand)
    | _ => simp [last] at hlast
  | literal text =>
    obtain ⟨hbinary, hnot⟩ := not_prefixed_of_symbols h le_rfl hsymbols
    have hlast := last_eq hsymbols
    cases tree' with
    | literal _ => rw [Symbol.literal.inj hlast]
    | binary op left right => exact absurd rfl (hbinary op left right)
    | not operand => exact absurd rfl (hnot operand)
    | _ => simp [last] at hlast

/-! ## Parentheses -/

/-- Whether a symbol is no parenthesis. -/
def isMark (symbol : Symbol) : Bool := symbol != .parenOpen && symbol != .parenClose

/-- The symbols of an expression apart from parentheses. -/
def marks (symbols : List Symbol) : List Symbol := symbols.filter isMark

theorem marks_append (front back : List Symbol) : marks (front ++ back) = marks front ++ marks back :=
  List.filter_append _ _

theorem marks_cons {symbol : Symbol} (h : isMark symbol = true) (rest : List Symbol) :
    marks (symbol :: rest) = symbol :: marks rest := List.filter_cons_of_pos h

theorem marks_paren {symbol : Symbol} (h : isMark symbol = false) (rest : List Symbol) :
    marks (symbol :: rest) = marks rest := List.filter_cons_of_neg (by rw [h]; decide)

/-- Without parentheses the other symbols stay. -/
theorem marks_ungrouped (tree : ExprTree) : marks tree.ungrouped.symbols = marks tree.symbols := by
  induction tree with
  | name _ => rfl
  | literal _ => rfl
  | nullary _ => rfl
  | member object property ih => rw [ungrouped, symbols, symbols, marks_append, marks_append, ih]
  | index object key ih ih' =>
    rw [ungrouped, symbols, symbols, marks_append, marks_append, ih, marks_cons rfl, marks_cons rfl,
      marks_append, marks_append, ih']
  | call function arguments ih =>
    rw [ungrouped, symbols, symbols, marks_cons rfl, marks_paren rfl, marks_cons rfl, marks_paren rfl,
      marks_append, marks_append, ih]
  | group inner ih =>
    rw [ungrouped, symbols, marks_paren rfl, marks_append, ih, marks_paren rfl]
    exact (List.append_nil _).symm
  | not operand ih => rw [ungrouped, symbols, symbols, marks_cons rfl, marks_cons rfl, ih]
  | binary op left right ih ih' =>
    rw [ungrouped, symbols, symbols, marks_append, marks_append, ih, marks_cons rfl, marks_cons rfl, ih']

/-- A symbol that is no parenthesis is found again by the number of those before it. -/
theorem split_of_marks {front front' back back' : List Symbol} {symbol symbol' : Symbol}
    (h : front ++ symbol :: back = front' ++ symbol' :: back') (hsymbol : isMark symbol = true)
    (hsymbol' : isMark symbol' = true) (hmarks : marks front = marks front') :
    front = front' ∧ back = back' := by
  have hlonger : ∀ {front front' : List Symbol} {symbol : Symbol} {rest : List Symbol},
      isMark symbol = true → marks front = marks front' → front ≠ front' ++ symbol :: rest := by
    rintro front front' symbol rest hsymbol hmarks rfl
    rw [marks_append, marks_cons hsymbol] at hmarks
    simp at hmarks
  rcases append_cons_cases h with ⟨rest, hfront, -⟩ | ⟨hfront, -, hback⟩ | ⟨rest, hfront, -⟩
  · exact absurd hfront (hlonger hsymbol' hmarks)
  · exact ⟨hfront, hback⟩
  · exact absurd hfront (hlonger hsymbol hmarks.symm)

/-- Behind how many parentheses the operator at the root of an expression stands, in whatever groups. -/
theorem exists_operator_of_ungrouped {tree left right : ExprTree} {op : Operator}
    (h : tree.ungrouped = binary op left right) : ∃ front back depth,
      tree.symbols = front ++ .operator op :: back ∧ depthAfter 0 front = some depth ∧
        marks front = marks left.symbols := by
  induction tree with
  | binary op' left' right' _ _ =>
    rw [ungrouped, ExprTree.binary.injEq] at h
    obtain ⟨rfl, rfl, -⟩ := h
    exact ⟨_, _, 0, rfl, left'.balanced_symbols, (marks_ungrouped left').symm⟩
  | group inner ih =>
    obtain ⟨front, back, depth, hsymbols, hdepth, hmarks⟩ := ih h
    refine ⟨.parenOpen :: front, back ++ [.parenClose], depth + 1, ?_, ?_, hmarks⟩
    · rw [symbols, hsymbols, List.append_assoc]
      rfl
    · rw [depthAfter_cons]
      exact depthAfter_add hdepth 1
  | _ => cases h

/-- Parentheses around an expression show, although nothing but the number of symbols before the operator at the
root is known. -/
theorem group_ne_of_ungrouped {inner tree : ExprTree} (hgroup : ∀ inner', tree ≠ group inner')
    (h : inner.ungrouped = tree.ungrouped) : (group inner).symbols ≠ tree.symbols := by
  intro hsymbols
  have hlast := last_eq hsymbols
  have hfirst := first_eq hsymbols
  cases tree with
  | group inner' => exact hgroup inner' rfl
  | binary op left right =>
    obtain ⟨front, back, depth, hinner, hdepth, hmarks⟩ := exists_operator_of_ungrouped h
    rw [marks_ungrouped] at hmarks
    have hsplit : (.parenOpen :: front) ++ .operator op :: (back ++ [.parenClose])
        = left.symbols ++ .operator op :: right.symbols := by
      have hgroup' : (group inner).symbols = (.parenOpen :: front) ++ .operator op :: (back ++ [.parenClose]) := by
        rw [symbols, hinner, List.append_assoc]
        rfl
      exact hgroup'.symm.trans hsymbols
    obtain ⟨hfront, -⟩ := split_of_marks hsplit rfl rfl hmarks
    -- an open parenthesis stands before the operator, but the left operand is balanced
    have hopen : depthAfter 0 (.parenOpen :: front) = some (depth + 1) := by
      rw [depthAfter_cons]
      exact depthAfter_add hdepth 1
    rw [hfront, left.balanced_symbols] at hopen
    exact Nat.succ_ne_zero depth (Option.some.inj hopen).symm
  | member _ _ | index _ _ | name _ | literal _ => simp [last] at hlast
  | _ => simp [first] at hfirst

/-- The symbols and what an expression means determine where its parentheses are, also of an expression that is
not well formed. -/
theorem eq_of_ungrouped {tree tree' : ExprTree} (hsymbols : tree.symbols = tree'.symbols)
    (h : tree.ungrouped = tree'.ungrouped) : tree = tree' := by
  have hclash : ∀ {tree inner : ExprTree}, (∀ inner', tree ≠ group inner') →
      tree.symbols = (group inner).symbols → tree.ungrouped = inner.ungrouped → False :=
    fun hgroup hsymbols h => group_ne_of_ungrouped hgroup h.symm hsymbols.symm
  induction tree generalizing tree' with
  | group inner ih =>
    by_cases hgroup : ∃ inner', tree' = group inner'
    · obtain ⟨inner', rfl⟩ := hgroup
      rw [ih (List.append_cancel_right (List.cons.inj hsymbols).2) h]
    · exact (hclash (fun inner' heq => hgroup ⟨inner', heq⟩) hsymbols.symm h.symm).elim
  | name text =>
    cases tree' with
    | name _ => rw [ExprTree.name.inj h]
    | group inner => exact (hclash (by simp) hsymbols h).elim
    | _ => cases h
  | literal text =>
    cases tree' with
    | literal _ => rw [ExprTree.literal.inj h]
    | group inner => exact (hclash (by simp) hsymbols h).elim
    | _ => cases h
  | nullary function =>
    cases tree' with
    | nullary _ => rw [ExprTree.nullary.inj h]
    | group inner => exact (hclash (by simp) hsymbols h).elim
    | _ => cases h
  | member object property ih =>
    cases tree' with
    | member object' property' =>
      obtain ⟨hobject, rfl⟩ := ExprTree.member.inj h
      rw [ih (List.append_cancel_right hsymbols) hobject]
    | group inner => exact (hclash (by simp) hsymbols h).elim
    | _ => cases h
  | index object key ih ih' =>
    cases tree' with
    | index object' key' =>
      obtain ⟨hobject, hkey⟩ := ExprTree.index.inj h
      obtain ⟨hobjects, hkeys⟩ := index_inj hsymbols
      rw [ih hobjects hobject, ih' hkeys hkey]
    | group inner => exact (hclash (by simp) hsymbols h).elim
    | _ => cases h
  | call function arguments ih =>
    cases tree' with
    | call function' arguments' =>
      obtain ⟨rfl, harguments⟩ := ExprTree.call.inj h
      rw [ih (List.append_cancel_right (List.cons.inj (List.cons.inj hsymbols).2).2) harguments]
    | group inner => exact (hclash (by simp) hsymbols h).elim
    | _ => cases h
  | not operand ih =>
    cases tree' with
    | not operand' => rw [ih (List.cons.inj hsymbols).2 (ExprTree.not.inj h)]
    | group inner => exact (hclash (by simp) hsymbols h).elim
    | _ => cases h
  | binary op left right ih ih' =>
    cases tree' with
    | binary op' left' right' =>
      obtain ⟨rfl, hleft, hright⟩ := ExprTree.binary.inj h
      have hmarks : marks left.symbols = marks left'.symbols := by
        rw [← marks_ungrouped left, hleft, marks_ungrouped]
      obtain ⟨hlefts, hrights⟩ := split_of_marks hsymbols rfl rfl hmarks
      rw [ih hlefts hleft, ih' hrights hright]
    | group inner => exact (hclash (by simp) hsymbols h).elim
    | _ => cases h

end ExprTree

/-! ## Neighbours -/

namespace Symbol

/-- An operand may end with the symbol. -/
def EndsOperand : Symbol → Prop
  | .name _ | .literal _ | .access _ | .parenClose | .bracketClose => True
  | .operator _ | .not | .parenOpen | .bracketOpen => False

/-- A symbol that is an operand by itself. -/
def IsWord : Symbol → Prop
  | .name _ | .literal _ => True
  | _ => False

/-- No operand stands right behind another one. -/
def Adjacent (symbol next : Symbol) : Prop := symbol.EndsOperand → ¬ next.IsWord

end Symbol

namespace ExprTree

open CachedWorkflow.Symbol

theorem endsOperand_last (tree : ExprTree) : tree.last.EndsOperand := by
  induction tree with
  | not operand ih => exact ih
  | binary op left right _ ih => exact ih
  | _ => trivial

theorem isChain_symbols (tree : ExprTree) : tree.symbols.IsChain Adjacent := by
  -- what is no word may stand behind anything
  have hbehind : ∀ (symbol : Symbol) {front rest : List Symbol}, ¬ symbol.IsWord → front.IsChain Adjacent →
      (symbol :: rest).IsChain Adjacent → (front ++ symbol :: rest).IsChain Adjacent := by
    intro symbol front rest hsymbol hfront hrest
    refine List.isChain_append.mpr ⟨hfront, hrest, ?_⟩
    intro last _ next hnext _
    obtain rfl := Option.some.inj hnext
    exact hsymbol
  -- and what ends no operand may stand before anything
  have hbefore : ∀ (symbol : Symbol) {rest : List Symbol}, ¬ symbol.EndsOperand → rest.IsChain Adjacent →
      (symbol :: rest).IsChain Adjacent := by
    intro symbol rest hsymbol hrest
    refine List.isChain_cons.mpr ⟨?_, hrest⟩
    intro next _ hends
    exact absurd hends hsymbol
  have hone : ∀ symbol : Symbol, [symbol].IsChain Adjacent := List.isChain_singleton
  induction tree with
  | name _ => exact hone _
  | literal _ => exact hone _
  | member object property ih => exact hbehind (.access property) id ih (hone _)
  | index object key ih ih' =>
    have hkey := hbefore .bracketOpen id (hbehind .bracketClose id ih' (hone _))
    exact hbehind .bracketOpen id ih hkey
  | nullary function =>
    exact hbehind .parenOpen id (hone (.name function)) (hbefore .parenOpen id (hone .parenClose))
  | call function arguments ih =>
    have harguments := hbefore .parenOpen id (hbehind .parenClose id ih (hone _))
    exact hbehind .parenOpen id (hone (.name function)) harguments
  | group inner ih => exact hbefore .parenOpen id (hbehind .parenClose id ih (hone _))
  | not operand ih => exact hbefore .not id ih
  | binary op left right ih ih' => exact hbehind (.operator op) id ih (hbefore (.operator op) id ih')

end ExprTree

end CachedWorkflow
