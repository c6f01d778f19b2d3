import CachedWorkflow.Proofs.Expression.Composition

/-!
# Proofs: expressions in the place of references

Other expressions are put in the place of some references of an expression (`ExprTree.inline`). As nothing is put
around them, the outcome is well formed exactly if each of them binds tightly enough for its place
(`ExprTree.wellFormed_inline_iff`). Its symbols are those of the expression with the symbols of the other
expressions in the place of references (`ExprTree.inlinesTo_symbols`).
-/

namespace CachedWorkflow

namespace ExprTree

/-! ## References -/

/-- The reference that an expression is: a name with members. -/
def reference? : ExprTree → Option Text
  | .name word => some word
  | .member object property => object.reference?.map (· ++ '.' :: property)
  | _ => none

/-- The reference that an expression is, if it is bound. -/
def bound? (names : List Text) (tree : ExprTree) : Option Text := tree.reference?.filter names.contains

theorem bound?_eq_some {names : List Text} {tree : ExprTree} {reference : Text} :
    bound? names tree = some reference ↔ tree.reference? = some reference ∧ reference ∈ names := by
  rw [bound?, Option.filter_eq_some_iff, List.contains_iff_mem]

theorem bound?_eq_none {names : List Text} {tree : ExprTree} {reference : Text}
    (h : tree.reference? = some reference) (hfree : reference ∉ names) : bound? names tree = none := by
  rw [bound?, h]
  exact Option.filter_some_neg (Bool.eq_false_iff.mpr (List.contains_iff_mem.not.mpr hfree))

section

variable (names : List Text) (trees : Text → Option ExprTree)

/-- Puts other expressions in the place of the bound references, of the longest ones that there are. There is no
outcome if nothing is known for one of these, or if a bound name is called. -/
def inline : ExprTree → Option ExprTree
  | .name word =>
    match bound? names (.name word) with
    | some reference => trees reference
    | none => some (.name word)
  | .literal text => some (.literal text)
  | .member object property =>
    match bound? names (.member object property) with
    | some reference => trees reference
    | none => (inline object).map (.member · property)
  | .index object key => (inline object).bind fun object => (inline key).map (.index object)
  | .nullary function => if names.contains function then none else some (.nullary function)
  | .call function arguments => if names.contains function then none else (inline arguments).map (.call function)
  | .group inner => (inline inner).map .group
  | .not operand => (inline operand).map .not
  | .binary op left right => (inline left).bind fun left => (inline right).map (.binary op left)

/-- The bound references, each with how tightly an operand in its place has to bind, for an expression in a place
where it has to bind with `level`. -/
def places (level : Nat) : ExprTree → List (Text × Nat)
  | .name word =>
    match bound? names (.name word) with
    | some reference => [(reference, level)]
    | none => []
  | .literal _ | .nullary _ => []
  | .member object property =>
    match bound? names (.member object property) with
    | some reference => [(reference, level)]
    | none => places 7 object
  | .index object key => places 7 object ++ places 1 key
  | .call _ arguments => places 0 arguments
  | .group inner => places 1 inner
  | .not operand => places 5 operand
  | .binary op left right => places op.level left ++ places (op.level + 1) right

end

section

variable {names : List Text} {trees : Text → Option ExprTree}

/-- What is put in the place of a bound reference binds tightly enough. -/
def Fits (names : List Text) (trees : Text → Option ExprTree) (level : Nat) (tree : ExprTree) : Prop :=
  ∀ place ∈ tree.places names level, ∀ inlined, trees place.1 = some inlined → place.2 ≤ inlined.level

theorem fits_append {level : Nat} {tree : ExprTree} {front back : List (Text × Nat)}
    (h : tree.places names level = front ++ back) : Fits names trees level tree ↔
      (∀ place ∈ front, ∀ inlined, trees place.1 = some inlined → place.2 ≤ inlined.level) ∧
        ∀ place ∈ back, ∀ inlined, trees place.1 = some inlined → place.2 ≤ inlined.level := by
  rw [Fits, h, List.forall_mem_append]

theorem fits_of_bound {level : Nat} {tree outcome : ExprTree} {reference : Text}
    (h : tree.places names level = [(reference, level)]) (houtcome : trees reference = some outcome) :
    Fits names trees level tree ↔ level ≤ outcome.level := by
  rw [Fits, h, List.forall_mem_singleton, houtcome]
  exact ⟨fun hfits => hfits outcome rfl, fun hle inlined heq => Option.some.inj heq ▸ hle⟩

/-- The outcome is well formed exactly if every expression that is put in binds tightly enough for its place. -/
theorem wellFormed_inline_iff (htrees : ∀ name ∈ names, ∀ tree, trees name = some tree → tree.WellFormed)
    {tree outcome : ExprTree} (houtcome : tree.inline names trees = some outcome) (hwell : tree.WellFormed)
    {level : Nat} (hlevel : level ≤ tree.level) :
    outcome.WellFormed ∧ level ≤ outcome.level ↔ Fits names trees level tree := by
  induction tree generalizing outcome level with
  | name word =>
    rw [inline] at houtcome
    cases hbound : bound? names (.name word) with
    | some reference =>
      rw [hbound] at houtcome
      have hplaces : places names level (.name word) = [(reference, level)] := by
        rw [places, hbound]
      rw [fits_of_bound hplaces houtcome]
      exact and_iff_right (htrees reference (bound?_eq_some.mp hbound).2 outcome houtcome)
    | none =>
      rw [hbound] at houtcome
      obtain rfl := Option.some.inj houtcome
      have hplaces : places names level (.name word) = [] := by
        rw [places, hbound]
      rw [Fits, hplaces]
      exact iff_of_true ⟨trivial, hlevel⟩ (by simp)
  | literal text =>
    obtain rfl := Option.some.inj houtcome
    exact iff_of_true ⟨trivial, hlevel⟩ (by simp [Fits, places])
  | member object property ih =>
    rw [inline] at houtcome
    cases hbound : bound? names (.member object property) with
    | some reference =>
      rw [hbound] at houtcome
      have hplaces : places names level (.member object property) = [(reference, level)] := by
        rw [places, hbound]
      rw [fits_of_bound hplaces houtcome]
      exact and_iff_right (htrees reference (bound?_eq_some.mp hbound).2 outcome houtcome)
    | none =>
      rw [hbound] at houtcome
      obtain ⟨object', hobject, rfl⟩ := Option.map_eq_some_iff.mp houtcome
      have hplaces : places names level (.member object property) = object.places names 7 := by
        rw [places, hbound]
      rw [Fits, hplaces]
      exact (and_iff_left hlevel).trans (ih hobject hwell.1 hwell.2)
  | index object key ih ih' =>
    obtain ⟨object', hobject, hindex⟩ := Option.bind_eq_some_iff.mp houtcome
    obtain ⟨key', hkey, rfl⟩ := Option.map_eq_some_iff.mp hindex
    obtain ⟨hwellObject, hlevelObject, hwellKey, hlevelKey⟩ := hwell
    have hobjectIff := ih hobject hwellObject hlevelObject
    have hkeyIff := ih' hkey hwellKey hlevelKey
    rw [Fits] at hobjectIff hkeyIff
    rw [fits_append rfl, ← hobjectIff, ← hkeyIff, and_assoc]
    exact and_iff_left hlevel
  | nullary function =>
    rw [inline] at houtcome
    split at houtcome
    · cases houtcome
    · obtain rfl := Option.some.inj houtcome
      exact iff_of_true ⟨trivial, hlevel⟩ (by simp [Fits, places])
  | call function arguments ih =>
    rw [inline] at houtcome
    split at houtcome
    · cases houtcome
    · obtain ⟨arguments', harguments, rfl⟩ := Option.map_eq_some_iff.mp houtcome
      have hiff := ih harguments hwell (Nat.zero_le _)
      rw [and_iff_left (Nat.zero_le _)] at hiff
      exact (and_iff_left hlevel).trans hiff
  | group inner ih =>
    obtain ⟨inner', hinner, rfl⟩ := Option.map_eq_some_iff.mp houtcome
    exact (and_iff_left hlevel).trans (ih hinner hwell.1 hwell.2)
  | not operand ih =>
    obtain ⟨operand', hoperand, rfl⟩ := Option.map_eq_some_iff.mp houtcome
    exact (and_iff_left hlevel).trans (ih hoperand hwell.1 hwell.2)
  | binary op left right ih ih' =>
    obtain ⟨left', hleft, hbinary⟩ := Option.bind_eq_some_iff.mp houtcome
    obtain ⟨right', hright, rfl⟩ := Option.map_eq_some_iff.mp hbinary
    obtain ⟨hwellLeft, hlevelLeft, hwellRight, hlevelRight⟩ := hwell
    have hleftIff := ih hleft hwellLeft hlevelLeft
    have hrightIff := ih' hright hwellRight hlevelRight
    rw [Fits] at hleftIff hrightIff
    rw [fits_append rfl, ← hleftIff, ← hrightIff, and_assoc]
    exact and_iff_left hlevel

/-- Names, members, calls and what stands in parentheses fit everywhere. -/
theorem fits_of_forall_level (h : ∀ name ∈ names, ∀ tree, trees name = some tree → 7 ≤ tree.level) {level : Nat}
    (hlevel : level ≤ 7) (tree : ExprTree) : Fits names trees level tree := by
  have happend : ∀ {front back : List (Text × Nat)},
      (∀ place ∈ front, place.1 ∈ names ∧ place.2 ≤ 7) → (∀ place ∈ back, place.1 ∈ names ∧ place.2 ≤ 7) →
      ∀ place ∈ front ++ back, place.1 ∈ names ∧ place.2 ≤ 7 :=
    fun hfront hback => List.forall_mem_append.mpr ⟨hfront, hback⟩
  have hplaces : ∀ place ∈ tree.places names level, place.1 ∈ names ∧ place.2 ≤ 7 := by
    induction tree generalizing level with
    | name word =>
      rw [places]
      cases hbound : bound? names (.name word) with
      | some reference => exact List.forall_mem_singleton.mpr ⟨(bound?_eq_some.mp hbound).2, hlevel⟩
      | none => simp
    | literal _ | nullary _ => simp [places]
    | member object property ih =>
      rw [places]
      cases hbound : bound? names (.member object property) with
      | some reference => exact List.forall_mem_singleton.mpr ⟨(bound?_eq_some.mp hbound).2, hlevel⟩
      | none => exact ih le_rfl
    | index object key ih ih' => exact happend (ih le_rfl) (ih' (by decide))
    | call function arguments ih => exact ih (by decide)
    | group inner ih => exact ih (by decide)
    | not operand ih => exact ih (by decide)
    | binary op left right ih ih' =>
      have hop := op.level_lt
      exact happend (ih (by omega)) (ih' (by omega))
  intro place hplace inlined hinlined
  obtain ⟨hname, hle⟩ := hplaces place hplace
  exact hle.trans (h place.1 hname inlined hinlined)

/-! ## Symbols -/

/-- Symbols with other expressions in the place of the bound references, of the longest ones that there are. -/
inductive InlinesTo (names : List Text) (trees : Text → Option ExprTree) : List Symbol → List Symbol → Prop where
  | nil : InlinesTo names trees [] []
  | other {symbol : Symbol} {rest rest' : List Symbol} (hsymbol : ∀ word, symbol ≠ .name word)
      (hrest : InlinesTo names trees rest rest') : InlinesTo names trees (symbol :: rest) (symbol :: rest')
  | kept {word : Text} {properties : List Text} {rest rest' : List Symbol}
      (hnone : ∀ front, front <+: properties → chainOf word front ∉ names)
      (hend : ∀ next ∈ rest.head?, ∀ property, next ≠ .access property)
      (hrest : InlinesTo names trees rest rest') :
      InlinesTo names trees (.name word :: (properties.map .access ++ rest))
        (.name word :: (properties.map .access ++ rest'))
  | replaced {word : Text} {front back : List Text} {inlined : ExprTree} {rest rest' : List Symbol}
      (hbound : chainOf word front ∈ names)
      (hlongest : ∀ more, more <+: back → more ≠ [] → chainOf word (front ++ more) ∉ names)
      (htree : trees (chainOf word front) = some inlined)
      (hend : ∀ next ∈ rest.head?, ∀ property, next ≠ .access property)
      (hrest : InlinesTo names trees rest rest') :
      InlinesTo names trees (.name word :: ((front ++ back).map .access ++ rest))
        (inlined.symbols ++ (back.map .access ++ rest'))

theorem members_concat (object : ExprTree) (properties : List Text) (property : Text) :
    object.members (properties ++ [property]) = .member (object.members properties) property :=
  List.foldl_concat _ _ _ _

theorem reference?_members (word : Text) (properties : List Text) :
    ((ExprTree.name word).members properties).reference? = some (chainOf word properties) := by
  induction properties using List.reverseRecOn with
  | nil => exact congrArg some (List.append_nil word).symm
  | append_singleton properties property ih =>
    rw [members_concat, reference?, ih, chainOf_append]
    simp

/-- An expression that is a reference is a name with members. -/
theorem exists_members {tree : ExprTree} {reference : Text} (h : tree.reference? = some reference) :
    ∃ word properties, tree = (ExprTree.name word).members properties := by
  induction tree generalizing reference with
  | name word => exact ⟨word, [], rfl⟩
  | member object property ih =>
    obtain ⟨inner, hinner, -⟩ := Option.map_eq_some_iff.mp h
    obtain ⟨word, properties, rfl⟩ := ih hinner
    exact ⟨word, properties ++ [property], (members_concat _ _ _).symm⟩
  | _ => cases h

/-- What becomes of a name with members: nothing in it is bound, or the longest bound part of it is replaced. The
induction takes away the last member. -/
theorem inline_members {word : Text} {properties : List Text} {outcome : ExprTree}
    (h : ((ExprTree.name word).members properties).inline names trees = some outcome) :
    ((∀ front, front <+: properties → chainOf word front ∉ names) ∧
        outcome = (ExprTree.name word).members properties) ∨
      ∃ front back inlined, properties = front ++ back ∧ chainOf word front ∈ names ∧
        (∀ more, more <+: back → more ≠ [] → chainOf word (front ++ more) ∉ names) ∧
        trees (chainOf word front) = some inlined ∧ outcome = inlined.members back := by
  induction properties using List.reverseRecOn generalizing outcome with
  | nil =>
    have hreference : (ExprTree.name word).reference? = some (chainOf word []) := reference?_members word []
    change inline names trees (.name word) = some outcome at h
    rw [inline] at h
    by_cases hbound : chainOf word [] ∈ names
    · rw [bound?_eq_some.mpr ⟨hreference, hbound⟩] at h
      refine .inr ⟨[], [], outcome, rfl, hbound, fun more hmore hne => ?_, h, rfl⟩
      exact absurd (List.prefix_nil.mp hmore) hne
    · rw [bound?_eq_none hreference hbound] at h
      refine .inl ⟨fun front hfront => ?_, (Option.some.inj h).symm⟩
      rw [List.prefix_nil.mp hfront]
      exact hbound
  | append_singleton properties property ih =>
    have hreference := reference?_members word (properties ++ [property])
    rw [members_concat] at h hreference
    rw [inline] at h
    by_cases hbound : chainOf word (properties ++ [property]) ∈ names
    · rw [bound?_eq_some.mpr ⟨hreference, hbound⟩] at h
      refine .inr ⟨properties ++ [property], [], outcome, (List.append_nil _).symm, hbound,
        fun more hmore hne => ?_, h, rfl⟩
      exact absurd (List.prefix_nil.mp hmore) hne
    · rw [bound?_eq_none hreference hbound] at h
      obtain ⟨object, hobject, rfl⟩ := Option.map_eq_some_iff.mp h
      rcases ih hobject with ⟨hall, rfl⟩ | ⟨front, back, inlined, rfl, hfront, hlongest, htree, rfl⟩
      · refine .inl ⟨fun front hfront => ?_, (members_concat _ _ _).symm⟩
        rcases List.prefix_concat_iff.mp hfront with rfl | hfront
        · exact hbound
        · exact hall front hfront
      · refine .inr ⟨front, back ++ [property], inlined, List.append_assoc _ _ _, hfront, fun more hmore hne => ?_,
          htree, (members_concat _ _ _).symm⟩
        rcases List.prefix_concat_iff.mp hmore with rfl | hmore
        · rwa [List.append_assoc] at hbound
        · exact hlongest more hmore hne

section

variable {outcome : ExprTree} {rest rest' : List Symbol}

/-- A name with members that ends before what comes next. -/
theorem inlinesTo_members {word : Text} {properties : List Text}
    (houtcome : ((ExprTree.name word).members properties).inline names trees = some outcome)
    (hend : ∀ next ∈ rest.head?, ∀ property, next ≠ .access property) (hrest : InlinesTo names trees rest rest') :
    InlinesTo names trees (((ExprTree.name word).members properties).symbols ++ rest) (outcome.symbols ++ rest') := by
  have hsymbols : ∀ rest : List Symbol, ((ExprTree.name word).members properties).symbols ++ rest
      = .name word :: (properties.map .access ++ rest) := by
    intro rest
    rw [symbols_members]
    rfl
  rcases inline_members houtcome with ⟨hnone, rfl⟩ | ⟨front, back, inlined, rfl, hbound, hlongest, htree, rfl⟩
  · rw [hsymbols, hsymbols]
    exact .kept hnone hend hrest
  · rw [hsymbols, symbols_members, List.append_assoc]
    exact .replaced hbound hlongest htree hend hrest

/-- The symbols of the outcome are those of the expression with others in the place of the bound references. What
comes behind the expression is no member of it, unless it is no reference. -/
theorem inlinesTo_symbols {tree : ExprTree} (houtcome : tree.inline names trees = some outcome)
    (hwell : tree.WellFormed)
    (hend : (∀ next ∈ rest.head?, ∀ property, next ≠ .access property) ∨ 7 ≤ tree.level ∧ tree.reference? = none)
    (hrest : InlinesTo names trees rest rest') :
    InlinesTo names trees (tree.symbols ++ rest) (outcome.symbols ++ rest') := by
  -- a symbol that is neither a name nor a member ends what comes before it
  have hother : ∀ (symbol : Symbol) {rest : List Symbol}, (∀ property, symbol ≠ .access property) →
      ∀ next ∈ (symbol :: rest).head?, ∀ property, next ≠ .access property := by
    intro symbol rest hsymbol next hnext
    obtain rfl := Option.some.inj hnext
    exact hsymbol
  have hsame : ∀ (symbol : Symbol) {rest rest' : List Symbol}, (∀ word, symbol ≠ .name word) →
      InlinesTo names trees rest rest' → InlinesTo names trees (symbol :: rest) (symbol :: rest') :=
    fun symbol rest rest' hsymbol hrest => .other hsymbol hrest
  -- a function that is called is no bound name
  have hcalled : ∀ {function : Text} {rest rest' : List Symbol}, function ∉ names →
      InlinesTo names trees rest rest' →
      InlinesTo names trees (.name function :: .parenOpen :: rest) (.name function :: .parenOpen :: rest') := by
    intro function rest rest' hfunction hrest
    have hword : chainOf function [] = function := List.append_nil function
    have hnone : ∀ front, front <+: [] → chainOf function front ∉ names := by
      intro front hfront
      rw [List.prefix_nil.mp hfront, hword]
      exact hfunction
    exact .kept hnone (hother .parenOpen (by simp)) (hsame .parenOpen (by simp) hrest)
  induction tree generalizing outcome rest rest' with
  | name word =>
    have hmembers : InlinesTo names trees (((ExprTree.name word).members []).symbols ++ rest)
        (outcome.symbols ++ rest') :=
      inlinesTo_members houtcome (hend.resolve_right fun h => by cases h.2) hrest
    exact hmembers
  | literal text =>
    obtain rfl := Option.some.inj houtcome
    exact .other (by simp) hrest
  | member object property ih =>
    cases hreference : (ExprTree.member object property).reference? with
    | some reference =>
      obtain ⟨word, properties, heq⟩ := exists_members hreference
      rw [heq] at houtcome ⊢
      refine inlinesTo_members houtcome (hend.resolve_right fun h => ?_) hrest
      rw [hreference] at h
      cases h.2
    | none =>
      have hobject : object.reference? = none := Option.map_eq_none_iff.mp hreference
      have hnone : bound? names (.member object property) = none := by
        rw [bound?, hreference]
        rfl
      rw [inline, hnone] at houtcome
      obtain ⟨object', hobject', rfl⟩ := Option.map_eq_some_iff.mp houtcome
      rw [symbols, symbols, List.append_assoc, List.append_assoc]
      exact ih hobject' hwell.1 (.inr ⟨hwell.2, hobject⟩) (.other (by simp) hrest)
  | index object key ih ih' =>
    obtain ⟨object', hobject, hindex⟩ := Option.bind_eq_some_iff.mp houtcome
    obtain ⟨key', hkey, rfl⟩ := Option.map_eq_some_iff.mp hindex
    have hclosed := hsame .bracketClose (by simp) hrest
    have hopened := hsame .bracketOpen (by simp)
      (ih' hkey hwell.2.2.1 (.inl (hother .bracketClose (by simp))) hclosed)
    have hindexed := ih hobject hwell.1 (.inl (hother .bracketOpen (by simp))) hopened
    simpa only [symbols, List.append_assoc, List.cons_append, List.nil_append] using hindexed
  | nullary function =>
    rw [inline] at houtcome
    split at houtcome
    · cases houtcome
    · next hfunction =>
      obtain rfl := Option.some.inj houtcome
      exact hcalled (List.contains_iff_mem.not.mp hfunction) (hsame .parenClose (by simp) hrest)
  | call function arguments ih =>
    rw [inline] at houtcome
    split at houtcome
    · cases houtcome
    · next hfunction =>
      obtain ⟨arguments', harguments, rfl⟩ := Option.map_eq_some_iff.mp houtcome
      have hclosed := hsame .parenClose (by simp) hrest
      have harguments' := ih harguments hwell (.inl (hother .parenClose (by simp))) hclosed
      have hcall := hcalled (List.contains_iff_mem.not.mp hfunction) harguments'
      simpa only [symbols, List.append_assoc, List.cons_append, List.nil_append] using hcall
  | group inner ih =>
    obtain ⟨inner', hinner, rfl⟩ := Option.map_eq_some_iff.mp houtcome
    have hclosed := hsame .parenClose (by simp) hrest
    have hopened := hsame .parenOpen (by simp)
      (ih hinner hwell.1 (.inl (hother .parenClose (by simp))) hclosed)
    simpa only [symbols, List.append_assoc, List.cons_append, List.nil_append] using hopened
  | not operand ih =>
    obtain ⟨operand', hoperand, rfl⟩ := Option.map_eq_some_iff.mp houtcome
    have hfirst := hend.resolve_right fun h => by simp [level] at h
    exact hsame .not (by simp) (ih hoperand hwell.1 (.inl hfirst) hrest)
  | binary op left right ih ih' =>
    obtain ⟨left', hleft, hbinary⟩ := Option.bind_eq_some_iff.mp houtcome
    obtain ⟨right', hright, rfl⟩ := Option.map_eq_some_iff.mp hbinary
    have hlt := op.level_lt
    have hfirst := hend.resolve_right fun h => by
      simp only [level] at h
      omega
    have hbehind := hsame (.operator op) (by simp) (ih' hright hwell.2.2.1 (.inl hfirst) hrest)
    have hboth := ih hleft hwell.1 (.inl (hother (.operator op) (by simp))) hbehind
    simpa only [symbols, List.append_assoc, List.cons_append] using hboth

end

/-! ## Symbols one after the other -/

section

variable {rest rest' outcome : List Symbol}

/-- Members are read as far as there are any. -/
theorem access_append_inj {properties properties' : List Text}
    (hend : ∀ next ∈ rest.head?, ∀ property, next ≠ .access property)
    (hend' : ∀ next ∈ rest'.head?, ∀ property, next ≠ .access property)
    (h : properties.map Symbol.access ++ rest = properties'.map .access ++ rest') :
    properties = properties' ∧ rest = rest' := by
  induction properties generalizing properties' with
  | nil =>
    cases properties' with
    | nil => exact ⟨rfl, h⟩
    | cons property' properties' =>
      rw [List.map_nil, List.nil_append] at h
      rw [h] at hend
      exact absurd rfl (hend _ rfl property')
  | cons property properties ih =>
    cases properties' with
    | nil =>
      rw [List.map_nil, List.nil_append] at h
      rw [← h] at hend'
      exact absurd rfl (hend' _ rfl property)
    | cons property' properties' =>
      obtain ⟨hproperty, htail⟩ := List.cons.inj h
      obtain ⟨rfl, rfl⟩ := ih htail
      exact ⟨by rw [Symbol.access.inj hproperty], rfl⟩

theorem InlinesTo.of_cons {symbol : Symbol} (h : InlinesTo names trees (symbol :: rest) outcome)
    (hsymbol : ∀ word, symbol ≠ .name word) :
    ∃ rest', outcome = symbol :: rest' ∧ InlinesTo names trees rest rest' := by
  cases h with
  | other _ hrest => exact ⟨_, rfl, hrest⟩
  | kept => exact absurd rfl (hsymbol _)
  | replaced => exact absurd rfl (hsymbol _)

/-- Where there is no name, nothing is replaced. -/
theorem InlinesTo.of_append {front : List Symbol} (h : InlinesTo names trees (front ++ rest) outcome)
    (hfront : ∀ word, .name word ∉ front) :
    ∃ rest', outcome = front ++ rest' ∧ InlinesTo names trees rest rest' := by
  induction front generalizing outcome with
  | nil => exact ⟨outcome, rfl, h⟩
  | cons symbol front ih =>
    obtain ⟨between, rfl, hbetween⟩ := h.of_cons fun word heq => hfront word (heq ▸ List.mem_cons_self)
    obtain ⟨rest', rfl, hrest⟩ := ih hbetween fun word hmem => hfront word (List.mem_cons_of_mem _ hmem)
    exact ⟨rest', rfl, hrest⟩

/-- A name is kept with its members, or the longest bound part is replaced. -/
theorem InlinesTo.of_name {word : Text} {properties : List Text}
    (h : InlinesTo names trees (.name word :: (properties.map .access ++ rest)) outcome)
    (hend : ∀ next ∈ rest.head?, ∀ property, next ≠ .access property) :
    ∃ rest', InlinesTo names trees rest rest' ∧
      ((∀ front, front <+: properties → chainOf word front ∉ names) ∧
          outcome = .name word :: (properties.map .access ++ rest') ∨
        ∃ front back inlined, properties = front ++ back ∧ chainOf word front ∈ names ∧
          (∀ more, more <+: back → more ≠ [] → chainOf word (front ++ more) ∉ names) ∧
          trees (chainOf word front) = some inlined ∧
          outcome = inlined.symbols ++ (back.map .access ++ rest')) := by
  generalize hsymbols : Symbol.name word :: (properties.map .access ++ rest) = symbols at h
  cases h with
  | nil => cases hsymbols
  | other hsymbol _ => exact absurd (List.cons.inj hsymbols).1.symm (hsymbol word)
  | kept hnone hend' hrest =>
    obtain ⟨hname, htail⟩ := List.cons.inj hsymbols
    obtain rfl := Symbol.name.inj hname
    obtain ⟨rfl, rfl⟩ := access_append_inj hend hend' htail
    exact ⟨_, hrest, .inl ⟨hnone, rfl⟩⟩
  | replaced hbound hlongest htree hend' hrest =>
    obtain ⟨hname, htail⟩ := List.cons.inj hsymbols
    obtain rfl := Symbol.name.inj hname
    obtain ⟨rfl, rfl⟩ := access_append_inj hend hend' htail
    exact ⟨_, hrest, .inr ⟨_, _, _, rfl, hbound, hlongest, htree, rfl⟩⟩

end

end

end ExprTree

end CachedWorkflow
