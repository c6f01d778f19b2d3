import CachedWorkflow.Proofs.Expression.Tree
import CachedWorkflow.Proofs.Template.Lexemes
import CachedWorkflow.Proofs.Workflow.Gate

/-!
# Proofs: reading expressions

The lexemes of an expression are read as symbols, and the symbols as a tree (`IsParse`). There is no more than
one (`IsParse.unique`). Two texts that are read one by one are read together where no symbol goes across
(`Reads.append`).
-/

namespace CachedWorkflow

open Lexeme Renaming

/-! ## Words -/

/-- An identifier of the expression language. -/
def isIdentifier : Text → Bool
  | [] => false
  | c :: rest => isJobIdStart c && rest.all isJobIdChar

/-- A numeral begins with a digit; what else is in it, such as an exponent, continues identifiers, too. -/
def isNumeral : Text → Bool
  | [] => false
  | c :: rest => c.isDigit && rest.all isJobIdChar

/-- A text without the minus sign at its beginning. -/
def unsigned : Text → Text
  | '-' :: rest => rest
  | text => text

/-- The words that stand for values. -/
def keywords : List Text := ["true", "false", "null"]

def wordSymbol (word : Text) : Symbol := if keywords.contains word then .literal word else .name word

/-- What stands between the dots of a chain: the first part and the others. -/
def splitDots : Text → Text × List Text
  | [] => ([], [])
  | c :: rest =>
    if c = '.' then ([], (splitDots rest).1 :: (splitDots rest).2)
    else (c :: (splitDots rest).1, (splitDots rest).2)

/-- A word with members that are accessed, one after the other. -/
def chainOf (word : Text) (properties : List Text) : Text := word ++ properties.flatMap ('.' :: ·)

/-- What a chain begins with, and the parts behind it: a word, a number with the digits behind its dot, or
nothing, if the members that are accessed are those of something else. -/
def chainStart? (word : Text) (others : List Text) : Option (List Symbol × List Text) :=
  if word = [] then some ([], others)
  else if isIdentifier word then some ([wordSymbol word], others)
  else if isNumeral (unsigned word) then
    match others with
    | [] => some ([.literal word], [])
    | fraction :: rest =>
      if isNumeral fraction then some ([.literal (word ++ '.' :: fraction)], rest)
      else some ([.literal word], fraction :: rest)
  else none

/-- The symbols of a chain: what it begins with, and the members that are accessed. -/
def chainSymbols? (run : Text) : Option (List Symbol) :=
  (chainStart? (splitDots run).1 (splitDots run).2).bind fun start =>
    if start.2.all isIdentifier then some (start.1 ++ start.2.map .access) else none

theorem not_mem_dot_of_isIdentifier {text : Text} (h : isIdentifier text = true) : '.' ∉ text := by
  intro hmem
  cases text with
  | nil => cases hmem
  | cons c rest =>
    obtain ⟨hstart, hrest⟩ := Bool.and_eq_true_iff.mp h
    rcases List.mem_cons.mp hmem with rfl | hmem
    · exact absurd hstart (by decide)
    · exact absurd (List.all_eq_true.mp hrest '.' hmem) (by decide)

theorem isName_of_isIdentifier {text : Text} (h : isIdentifier text = true) : IsName text := by
  cases text with
  | nil => cases h
  | cons c rest => exact validateJobId_eq_ok (if_pos h)

theorem joinsNext_of_isIdentifier {text : Text} (h : isIdentifier text = true) : ∀ c ∈ text, joinsNext c = true :=
  fun c hc => joinsNext_of_isIdentifierChar (isIdentifierChar_of_isJobIdChar ((isName_of_isIdentifier h).chars c hc))

theorem isDigit_of_isJobIdStart {c : Char} (h : isJobIdStart c = true) : c.isDigit = false := by
  rw [Bool.eq_false_iff]
  intro hdigit
  have hnine : c.val.toNat ≤ 57 := of_decide_eq_true (Bool.and_eq_true_iff.mp hdigit).2
  rcases Bool.or_eq_true_iff.mp h with hletter | hunderscore
  · -- the letters come behind the digits
    have hbounds : 65 ≤ c.val.toNat := by
      rcases Bool.or_eq_true_iff.mp hletter with hupper | hlower
      · exact (of_decide_eq_true hupper).1
      · have hle : 97 ≤ c.val.toNat := of_decide_eq_true (Bool.and_eq_true_iff.mp hlower).1
        omega
    omega
  · obtain rfl := beq_iff_eq.mp hunderscore
    exact absurd hdigit (by decide)

/-- An identifier is no numeral. -/
theorem isNumeral_of_isIdentifier {text : Text} (h : isIdentifier text = true) : isNumeral text = false := by
  cases text with
  | nil => rfl
  | cons c rest =>
    have hstart : isJobIdStart c = true := (Bool.and_eq_true_iff.mp h).1
    rw [isNumeral, isDigit_of_isJobIdStart hstart, Bool.false_and]

theorem wordSymbol_of_mem {word : Text} (h : word ∈ keywords) : wordSymbol word = .literal word :=
  if_pos (List.contains_iff_mem.mpr h)

theorem wordSymbol_of_not_mem {word : Text} (h : word ∉ keywords) : wordSymbol word = .name word :=
  if_neg (List.contains_iff_mem.not.mpr h)

/-! ## Chains -/

theorem chainOf_cons (word property : Text) (properties : List Text) :
    chainOf word (property :: properties) = word ++ '.' :: chainOf property properties := by
  rw [chainOf, chainOf, List.flatMap_cons, List.cons_append]

theorem chainOf_append (word : Text) (front back : List Text) :
    chainOf word (front ++ back) = chainOf word front ++ back.flatMap ('.' :: ·) := by
  rw [chainOf, chainOf, List.flatMap_append, List.append_assoc]

theorem joinsNext_chainOf {word : Text} {properties : List Text} (hword : isIdentifier word = true)
    (hproperties : ∀ property ∈ properties, isIdentifier property = true) :
    ∀ c ∈ chainOf word properties, joinsNext c = true := by
  intro c hc
  rcases List.mem_append.mp hc with hc | hc
  · exact joinsNext_of_isIdentifier hword c hc
  · obtain ⟨property, hproperty, hc⟩ := List.mem_flatMap.mp hc
    rcases List.mem_cons.mp hc with rfl | hc
    · rfl
    · exact joinsNext_of_isIdentifier (hproperties property hproperty) c hc

theorem splitDots_append (text rest : Text) : splitDots (text ++ '.' :: rest)
    = ((splitDots text).1, (splitDots text).2 ++ (splitDots rest).1 :: (splitDots rest).2) := by
  induction text with
  | nil => rfl
  | cons c text ih =>
    rw [List.cons_append, splitDots, splitDots, ih]
    by_cases hc : c = '.'
    · simp [hc]
    · simp [hc]

theorem splitDots_of_plain {text : Text} (h : '.' ∉ text) : splitDots text = (text, []) := by
  induction text with
  | nil => rfl
  | cons c rest ih =>
    obtain ⟨hc, hrest⟩ := not_or.mp (List.mem_cons.not.mp h)
    rw [splitDots, ih hrest]
    exact if_neg (Ne.symm hc)

/-- A chain is cut where its dots are. -/
theorem splitDots_chainOf {word : Text} {properties : List Text} (hword : '.' ∉ word)
    (hproperties : ∀ property ∈ properties, '.' ∉ property) :
    splitDots (chainOf word properties) = (word, properties) := by
  induction properties generalizing word with
  | nil =>
    rw [chainOf, List.flatMap_nil, List.append_nil]
    exact splitDots_of_plain hword
  | cons property properties ih =>
    obtain ⟨hproperty, hrest⟩ := List.forall_mem_cons.mp hproperties
    rw [chainOf_cons, splitDots_append, splitDots_of_plain hword, ih hproperty hrest]
    rfl

/-- And its parts give it back. -/
theorem chainOf_splitDots (run : Text) : chainOf (splitDots run).1 (splitDots run).2 = run := by
  induction run with
  | nil => rfl
  | cons c rest ih =>
    rw [splitDots]
    by_cases hc : c = '.'
    · rw [if_pos hc, chainOf_cons, ih, hc]
      rfl
    · rw [if_neg hc]
      exact congrArg (c :: ·) ih

theorem chainStart?_of_isIdentifier {word : Text} (h : isIdentifier word = true) (others : List Text) :
    chainStart? word others = some ([wordSymbol word], others) := by
  have hne : word ≠ [] := by
    rintro rfl
    cases h
  unfold chainStart?
  rw [if_neg hne, if_pos h]

/-- More parts may come behind those of a chain, unless the first one is a numeral. -/
theorem chainStart?_append {word : Text} {others rest more : List Text} {first : List Symbol}
    (h : chainStart? word others = some (first, rest)) (hmore : ∀ part ∈ more.head?, isNumeral part = false) :
    chainStart? word (others ++ more) = some (first, rest ++ more) := by
  unfold chainStart? at h ⊢
  split at h
  · next hword =>
    cases h
    rw [if_pos hword]
  · next hword =>
    rw [if_neg hword]
    split at h
    · next hidentifier =>
      cases h
      rw [if_pos hidentifier]
    · next hidentifier =>
      rw [if_neg hidentifier]
      split at h
      · next hnumeral =>
        rw [if_pos hnumeral]
        cases others with
        | nil =>
          cases h
          cases more with
          | nil => rfl
          | cons part more =>
            have hpart : ¬ isNumeral part = true := by
              rw [hmore part rfl]
              exact Bool.false_ne_true
            exact if_neg hpart
        | cons fraction others =>
          simp only at h
          rw [List.cons_append]
          simp only
          split at h
          · next hfraction =>
            cases h
            rw [if_pos hfraction]
          · next hfraction =>
            cases h
            rw [if_neg hfraction]
            rfl
      · cases h

theorem chainSymbols?_eq_some {run : Text} {symbols : List Symbol} : chainSymbols? run = some symbols ↔
    ∃ first properties, chainStart? (splitDots run).1 (splitDots run).2 = some (first, properties) ∧
      properties.all isIdentifier = true ∧ symbols = first ++ properties.map .access := by
  unfold chainSymbols?
  rw [Option.bind_eq_some_iff]
  constructor
  · rintro ⟨⟨first, properties⟩, hstart, h⟩
    simp only at h
    split at h
    · next hall => exact ⟨first, properties, hstart, hall, (Option.some.inj h).symm⟩
    · cases h
  · rintro ⟨first, properties, hstart, hall, rfl⟩
    exact ⟨(first, properties), hstart, if_pos hall⟩

/-- A chain that begins with a dot has members only. -/
theorem chainSymbols?_dot {tail : Text} {symbols : List Symbol} (h : chainSymbols? ('.' :: tail) = some symbols) :
    ((splitDots tail).1 :: (splitDots tail).2).all isIdentifier = true ∧
      symbols = ((splitDots tail).1 :: (splitDots tail).2).map .access := by
  obtain ⟨first, properties, hstart, hall, rfl⟩ := chainSymbols?_eq_some.mp h
  have hsplit : chainStart? [] ((splitDots tail).1 :: (splitDots tail).2) = some (first, properties) := hstart
  unfold chainStart? at hsplit
  rw [if_pos rfl] at hsplit
  cases hsplit
  exact ⟨hall, rfl⟩

/-- Members may be accessed behind a chain. -/
theorem chainSymbols?_append {run tail : Text} {front back : List Symbol} (h : chainSymbols? run = some front)
    (htail : chainSymbols? ('.' :: tail) = some back) : chainSymbols? (run ++ '.' :: tail) = some (front ++ back) := by
  obtain ⟨hall', rfl⟩ := chainSymbols?_dot htail
  obtain ⟨first, properties, hstart, hall, rfl⟩ := chainSymbols?_eq_some.mp h
  have hmore : ∀ part ∈ ((splitDots tail).1 :: (splitDots tail).2).head?, isNumeral part = false := by
    intro part hpart
    obtain rfl := Option.some.inj hpart
    exact isNumeral_of_isIdentifier (List.all_eq_true.mp hall' _ List.mem_cons_self)
  rw [chainSymbols?_eq_some, splitDots_append]
  refine ⟨first, _, chainStart?_append hstart hmore, ?_, ?_⟩
  · rw [List.all_append, hall, hall', Bool.and_true]
  · rw [List.map_append, List.append_assoc]

/-- The chain of a word is read as the word and the members that are accessed. -/
theorem chainSymbols?_chainOf {word : Text} {properties : List Text} (hword : isIdentifier word = true)
    (hproperties : ∀ property ∈ properties, isIdentifier property = true) :
    chainSymbols? (chainOf word properties) = some (wordSymbol word :: properties.map .access) := by
  have hsplit := splitDots_chainOf (not_mem_dot_of_isIdentifier hword)
    fun property hmem => not_mem_dot_of_isIdentifier (hproperties property hmem)
  rw [chainSymbols?_eq_some, hsplit]
  exact ⟨_, properties, chainStart?_of_isIdentifier hword properties, List.all_eq_true.mpr hproperties, rfl⟩

/-- So are members that are accessed, without the word. -/
theorem chainSymbols?_members {property : Text} {properties : List Text}
    (h : ∀ name ∈ property :: properties, isIdentifier name = true) :
    chainSymbols? ('.' :: chainOf property properties) = some ((property :: properties).map .access) := by
  obtain ⟨hproperty, hproperties⟩ := List.forall_mem_cons.mp h
  have hsplit := splitDots_chainOf (not_mem_dot_of_isIdentifier hproperty)
    fun name hmem => not_mem_dot_of_isIdentifier (hproperties name hmem)
  have hdots : splitDots ('.' :: chainOf property properties) = ([], property :: properties) := by
    rw [splitDots, hsplit]
    rfl
  rw [chainSymbols?_eq_some, hdots]
  exact ⟨[], _, rfl, List.all_eq_true.mpr h, rfl⟩

/-! ## Lexemes -/

/-- The operators of two characters. -/
def pair? : (c d : Char) → Option Symbol
  | '|', '|' => some (.operator .or)
  | '&', '&' => some (.operator .and)
  | '=', '=' => some (.operator .equal)
  | '!', '=' => some (.operator .notEqual)
  | '<', '=' => some (.operator .lessEqual)
  | '>', '=' => some (.operator .greaterEqual)
  | _, _ => none

/-- The symbols of one character. -/
def single? : Char → Option Symbol
  | '<' => some (.operator .less)
  | '>' => some (.operator .greater)
  | ',' => some (.operator .comma)
  | '!' => some .not
  | '(' => some .parenOpen
  | ')' => some .parenClose
  | '[' => some .bracketOpen
  | ']' => some .bracketClose
  | _ => none

/-- Whether a lexeme may come directly after another one: two chains or two literals would be one, an operator
of two characters is not read as two symbols, and there are no blanks before a dot. -/
def Lexeme.Apart : Lexeme → Lexeme → Prop
  | .chain _, .chain _ | .literal _ _, .literal _ _ => False
  | .other c, .other d => pair? c d = none
  | .other c, .chain run => isWhiteSpace c = true → run.head? ≠ some '.'
  | _, _ => True

/-- Lexemes are read as symbols. -/
inductive Reads : List Lexeme → List Symbol → Prop where
  | nil : Reads [] []
  | literal {body : Text} {rest : List Lexeme} {symbols : List Symbol} (hrest : Reads rest symbols) :
      Reads (.literal body true :: rest) (.literal ('\'' :: (body ++ ['\''])) :: symbols)
  | chain {run : Text} {front symbols : List Symbol} {rest : List Lexeme}
      (hrun : chainSymbols? run = some front) (hrest : Reads rest symbols) :
      Reads (.chain run :: rest) (front ++ symbols)
  | pair {c d : Char} {symbol : Symbol} {rest : List Lexeme} {symbols : List Symbol}
      (hpair : pair? c d = some symbol) (hrest : Reads rest symbols) :
      Reads (.other c :: .other d :: rest) (symbol :: symbols)
  | single {c : Char} {symbol : Symbol} {rest : List Lexeme} {symbols : List Symbol}
      (hsingle : single? c = some symbol) (hnext : ∀ next ∈ rest.head?, Apart (.other c) next)
      (hrest : Reads rest symbols) : Reads (.other c :: rest) (symbol :: symbols)
  | blank {c : Char} {rest : List Lexeme} {symbols : List Symbol} (hblank : isWhiteSpace c = true)
      (hnext : ∀ next ∈ rest.head?, Apart (.other c) next) (hrest : Reads rest symbols) :
      Reads (.other c :: rest) symbols

theorem mem_of_single? {c : Char} {symbol : Symbol} (h : single? c = some symbol) :
    c ∈ ['<', '>', ',', '!', '(', ')', '[', ']'] := by
  unfold single? at h
  split at h <;> simp_all

theorem mem_of_pair? {c d : Char} {symbol : Symbol} (h : pair? c d = some symbol) :
    c ∈ ['|', '&', '=', '!', '<', '>'] ∧ d ∈ ['|', '&', '='] := by
  unfold pair? at h
  split at h <;> simp_all

theorem single?_of_isWhiteSpace {c : Char} (h : isWhiteSpace c = true) : single? c = none := by
  cases hsingle : single? c with
  | none => rfl
  | some symbol =>
    have hnot : ∀ c ∈ ['<', '>', ',', '!', '(', ')', '[', ']'], isWhiteSpace c = false := by decide
    rw [hnot c (mem_of_single? hsingle)] at h
    cases h

/-- Lexemes are read in one way only. -/
theorem Reads.unique {lexemes : List Lexeme} {symbols symbols' : List Symbol} (h : Reads lexemes symbols)
    (h' : Reads lexemes symbols') : symbols = symbols' := by
  induction h generalizing symbols' with
  | nil =>
    cases h'
    rfl
  | literal _ ih =>
    cases h' with
    | literal hrest' => rw [ih hrest']
  | chain hrun _ ih =>
    cases h' with
    | chain hrun' hrest' =>
      rw [hrun] at hrun'
      rw [Option.some.inj hrun', ih hrest']
  | pair hpair _ ih =>
    cases h' with
    | pair hpair' hrest' =>
      rw [hpair] at hpair'
      rw [Option.some.inj hpair', ih hrest']
    | single _ hnext' _ | blank _ hnext' _ =>
      have hnone := hnext' _ rfl
      rw [Apart, hpair] at hnone
      cases hnone
  | single hsingle hnext _ ih =>
    cases h' with
    | pair hpair' _ =>
      have hnone := hnext _ rfl
      rw [Apart, hpair'] at hnone
      cases hnone
    | single hsingle' _ hrest' =>
      rw [hsingle] at hsingle'
      rw [Option.some.inj hsingle', ih hrest']
    | blank hblank' _ _ =>
      rw [single?_of_isWhiteSpace hblank'] at hsingle
      cases hsingle
  | blank hblank hnext _ ih =>
    cases h' with
    | pair hpair' _ =>
      have hnone := hnext _ rfl
      rw [Apart, hpair'] at hnone
      cases hnone
    | single hsingle' _ _ =>
      rw [single?_of_isWhiteSpace hblank] at hsingle'
      cases hsingle'
    | blank _ _ hrest' => exact ih hrest'

section

variable {front back : List Lexeme} {symbols symbols' : List Symbol}

/-- What the last lexeme of some lexemes must be apart from when more come before them. -/
theorem apart_of_cons {lexeme : Lexeme} (h : ∀ last ∈ (lexeme :: front).getLast?, ∀ next ∈ back.head?,
    last.Apart next) : ∀ last ∈ front.getLast?, ∀ next ∈ back.head?, last.Apart next := by
  intro last hlast
  refine h last ?_
  rw [List.getLast?_cons, Option.mem_def.mp hlast]
  rfl

/-- What comes directly after a lexeme, when more lexemes come after all of them. -/
theorem apart_head_append {lexeme : Lexeme} (hnext : ∀ next ∈ front.head?, lexeme.Apart next)
    (h : ∀ last ∈ (lexeme :: front).getLast?, ∀ next ∈ back.head?, last.Apart next) :
    ∀ next ∈ (front ++ back).head?, lexeme.Apart next := by
  cases front with
  | nil => exact h lexeme rfl
  | cons first front => exact hnext

/-- Lexemes that are apart are read one after the other. -/
theorem Reads.append (h : Reads front symbols) (h' : Reads back symbols')
    (hapart : ∀ last ∈ front.getLast?, ∀ next ∈ back.head?, last.Apart next) :
    Reads (front ++ back) (symbols ++ symbols') := by
  induction h with
  | nil => exact h'
  | literal _ ih => exact .literal (ih (apart_of_cons hapart))
  | chain hrun _ ih =>
    rw [List.append_assoc]
    exact .chain hrun (ih (apart_of_cons hapart))
  | pair hpair _ ih => exact .pair hpair (ih (apart_of_cons (apart_of_cons hapart)))
  | single hsingle hnext _ ih =>
    exact .single hsingle (apart_head_append hnext hapart) (ih (apart_of_cons hapart))
  | blank hblank hnext _ ih =>
    exact .blank hblank (apart_head_append hnext hapart) (ih (apart_of_cons hapart))

/-- A lexeme at the end of a text that others are apart from fits them. -/
theorem Lexeme.Fits.of_apart {lexeme : Lexeme} (h : lexeme.Fits []) (hclosed : ∀ body, lexeme ≠ .literal body false)
    (hchained : Chained back) (hapart : ∀ next ∈ back.head?, lexeme.Apart next) : lexeme.Fits (join back) := by
  have hhead : ∀ c ∈ (join back).head?, ∃ next, lexeme.Apart next ∧ next.Begins c := by
    intro c hc
    cases hchained with
    | nil => cases hc
    | @cons next rest hfits _ =>
      obtain ⟨d, tail, htext, hbegins⟩ := hfits.exists_begins
      rw [join_cons, htext] at hc
      obtain rfl := Option.some.inj hc
      exact ⟨next, hapart next rfl, hbegins⟩
  cases lexeme with
  | literal body closed =>
    cases closed with
    | false => exact absurd rfl (hclosed body)
    | true =>
      refine ⟨h.1, fun hquote => ?_⟩
      obtain ⟨next, hnext, hbegins⟩ := hhead '\'' hquote
      cases next with
      | literal _ _ => exact hnext
      | chain _ => exact ne_quote_of_joinsNext hbegins rfl
      | other _ => exact hbegins.2 rfl
  | chain run =>
    refine ⟨h.1, h.2.1, fun c hc => ?_⟩
    obtain ⟨next, hnext, hbegins⟩ := hhead c hc
    cases next with
    | literal _ _ =>
      obtain rfl : c = '\'' := hbegins
      exact joinsNext_quote
    | chain _ => exact hnext.elim
    | other _ => exact hbegins.1
  | other c => exact h

/-- What a lexeme fits is told by how it begins. -/
theorem Lexeme.Fits.congr_head {lexeme : Lexeme} {rest rest' : Text} (h : lexeme.Fits rest) (hne : rest ≠ [])
    (hhead : rest'.head? = rest.head?) : lexeme.Fits rest' := by
  cases lexeme with
  | literal body closed =>
    cases closed with
    | true => exact ⟨h.1, by rw [hhead]; exact h.2⟩
    | false => exact absurd h.2 hne
  | chain run => exact ⟨h.1, h.2.1, by rw [hhead]; exact h.2.2⟩
  | other c => exact h

theorem Lexeme.Chained.join_ne_nil (h : Chained front) (hne : front ≠ []) : join front ≠ [] := by
  cases h with
  | nil => exact absurd rfl hne
  | cons hfits _ =>
    obtain ⟨c, tail, htext, -⟩ := hfits.exists_begins
    rw [join_cons, htext]
    exact List.cons_ne_nil _ _

theorem Lexeme.Chained.append (h : Chained front) (h' : Chained back)
    (hclosed : ∀ body, .literal body false ∉ front)
    (hapart : ∀ last ∈ front.getLast?, ∀ next ∈ back.head?, last.Apart next) : Chained (front ++ back) := by
  induction h with
  | nil => exact h'
  | @cons lexeme rest hfits hrest ih =>
    refine .cons ?_ (ih (fun body hmem => hclosed body (List.mem_cons_of_mem _ hmem)) (apart_of_cons hapart))
    by_cases hnil : rest = []
    · subst hnil
      exact hfits.of_apart (fun body heq => hclosed body (heq ▸ List.mem_cons_self)) h' (hapart lexeme rfl)
    · have hne := hrest.join_ne_nil hnil
      have hjoin : join (rest ++ back) = join rest ++ join back := join_append rest back
      exact hfits.congr_head hne ((congrArg List.head? hjoin).trans (List.head?_append_of_ne_nil _ hne))

/-- Lexemes that are read have all their literals closed. -/
theorem Reads.literal_not_mem (h : Reads front symbols) : ∀ body, .literal body false ∉ front := by
  induction h with
  | nil => simp
  | literal _ ih | chain _ _ ih | single _ _ _ ih | blank _ _ _ ih =>
    intro body hmem
    rcases List.mem_cons.mp hmem with heq | hmem
    · cases heq
    · exact ih body hmem
  | pair _ _ ih =>
    intro body hmem
    rcases List.mem_cons.mp hmem with heq | hmem
    · cases heq
    · rcases List.mem_cons.mp hmem with heq | hmem
      · cases heq
      · exact ih body hmem

theorem joinsNext_ne_brace {c : Char} (h : joinsNext c = true) : c ≠ '\'' ∧ c ≠ '}' := by
  refine ⟨ne_quote_of_joinsNext h, ?_⟩
  rintro rfl
  exact absurd h (by decide)

/-- A placeholder encloses what is read. -/
theorem Reads.encloses (h : Reads front symbols) (hchained : Chained front) :
    Template.Encloses false (join front) := by
  have hother : ∀ {c : Char} {rest : List Lexeme}, c ≠ '\'' ∧ c ≠ '}' → Template.Encloses false (join rest) →
      Template.Encloses false (join (.other c :: rest)) := by
    intro c rest hc hrest
    exact (Template.encloses_append_iff (List.forall_mem_singleton.mpr hc)).mpr hrest
  have hpairs : ∀ c ∈ ['|', '&', '=', '!', '<', '>'], c ≠ '\'' ∧ c ≠ '}' := by decide
  have hpairs' : ∀ c ∈ ['|', '&', '='], c ≠ '\'' ∧ c ≠ '}' := by decide
  have hsingles : ∀ c ∈ ['<', '>', ',', '!', '(', ')', '[', ']'], c ≠ '\'' ∧ c ≠ '}' := by decide
  induction h with
  | nil => rfl
  | @literal body rest _ _ ih =>
    obtain ⟨hfits, hrest⟩ := chained_cons_iff.mp hchained
    have hbody := (hfits.1.encloses_iff (join rest)).mpr (ih hrest)
    have hjoin : join (.literal body true :: rest) = '\'' :: (body ++ '\'' :: join rest) := by
      rw [join_cons, text, if_pos rfl, List.cons_append, List.append_assoc]
      rfl
    rw [hjoin]
    exact ⟨fun _ hbrace => absurd hbrace (by decide), hbody⟩
  | chain _ _ ih =>
    obtain ⟨hfits, hrest⟩ := chained_cons_iff.mp hchained
    rw [join_cons]
    exact (Template.encloses_append_iff fun c hc => joinsNext_ne_brace (hfits.2.1 c hc)).mpr (ih hrest)
  | pair hpair _ ih =>
    obtain ⟨hc, hd⟩ := mem_of_pair? hpair
    have hrest := (chained_cons_iff.mp (chained_cons_iff.mp hchained).2).2
    exact hother (hpairs _ hc) (hother (hpairs' _ hd) (ih hrest))
  | single hsingle _ _ ih =>
    exact hother (hsingles _ (mem_of_single? hsingle)) (ih (chained_cons_iff.mp hchained).2)
  | @blank c _ _ hblank _ _ ih =>
    refine hother ⟨ne_quote_of_isWhiteSpace hblank, ?_⟩ (ih (chained_cons_iff.mp hchained).2)
    rintro rfl
    exact absurd hblank (by decide)

end

/-! ## Parsing -/

/-- A text is read as symbols by way of lexemes. -/
structure ReadsAs (text : Text) (lexemes : List Lexeme) (symbols : List Symbol) : Prop where
  lexing : IsLexing text lexemes
  reads : Reads lexemes symbols

theorem ReadsAs.append {text text' : Text} {front back : List Lexeme} {symbols symbols' : List Symbol}
    (h : ReadsAs text front symbols) (h' : ReadsAs text' back symbols')
    (hapart : ∀ last ∈ front.getLast?, ∀ next ∈ back.head?, last.Apart next) :
    ReadsAs (text ++ text') (front ++ back) (symbols ++ symbols') := by
  refine ⟨⟨h.lexing.chained.append h'.lexing.chained h.reads.literal_not_mem hapart, ?_⟩,
    h.reads.append h'.reads hapart⟩
  rw [join_append, h.lexing.join_eq, h'.lexing.join_eq]

theorem ReadsAs.unique {text : Text} {lexemes lexemes' : List Lexeme} {symbols symbols' : List Symbol}
    (h : ReadsAs text lexemes symbols) (h' : ReadsAs text lexemes' symbols') : symbols = symbols' := by
  obtain rfl := h.lexing.unique h'.lexing
  exact h.reads.unique h'.reads

/-- The expression that a text is, with its parentheses. -/
structure IsParse (text : Text) (tree : ExprTree) : Prop where
  readsAs : ∃ lexemes, ReadsAs text lexemes tree.symbols
  wellFormed : tree.WellFormed

/-- A text is one expression only. -/
theorem IsParse.unique {text : Text} {tree tree' : ExprTree} (h : IsParse text tree) (h' : IsParse text tree') :
    tree = tree' := by
  obtain ⟨lexemes, hreads⟩ := h.readsAs
  obtain ⟨lexemes', hreads'⟩ := h'.readsAs
  exact ExprTree.eq_of_symbols h.wellFormed h'.wellFormed (hreads.unique hreads')

/-- What a text means: the expression that it is, without parentheses. -/
def Means (text : Text) (meaning : ExprTree) : Prop := ∃ tree, IsParse text tree ∧ tree.ungrouped = meaning

theorem Means.unique {text : Text} {meaning meaning' : ExprTree} (h : Means text meaning)
    (h' : Means text meaning') : meaning = meaning' := by
  obtain ⟨tree, htree, rfl⟩ := h
  obtain ⟨tree', htree', rfl⟩ := h'
  rw [htree.unique htree']

end CachedWorkflow
