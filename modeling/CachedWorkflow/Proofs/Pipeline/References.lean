import CachedWorkflow.Proofs.Pipeline.CallSite
import CachedWorkflow.Proofs.Template.Rewriting

/-!
# Proofs: references to jobs

A reference to a job begins a chain: a context, a dot, and a name that is read as far as it goes
(`Lexeme.RefersTo`). Names for jobs that are distinct before and after (`IsNaming`) rename the references of
an expression and of a template, and nothing else (`RenamedText`). The pass with the names does this
(`RenamedText.applyToTemplate`), and the pass with the names the other way round undoes it
(`RenamedText.symm`).
-/

namespace CachedWorkflow

open Renaming Lexeme

/-! ## Names -/

/-- Names, each with a new one. No two names have one new name, and none has two. -/
structure IsNaming (names : List (Text × Text)) : Prop where
  isName : ∀ pair ∈ names, IsName pair.1 ∧ IsName pair.2
  functional : ∀ pair ∈ names, ∀ pair' ∈ names, pair.1 = pair'.1 → pair = pair'
  injective : ∀ pair ∈ names, ∀ pair' ∈ names, pair.2 = pair'.2 → pair = pair'

/-- Pairs that rename the references to jobs in all contexts. -/
def referenceRenaming (names : List (Text × Text)) : Renaming :=
  names.flatMap fun name => contexts.map fun context =>
    (context ++ "." ++ name.1, context ++ "." ++ name.2)

theorem mem_referenceRenaming {names : List (Text × Text)} {pair : Text × Text} :
    pair ∈ referenceRenaming names ↔ ∃ name ∈ names, ∃ context ∈ contexts,
      pair = (context ++ "." ++ name.1, context ++ "." ++ name.2) := by
  unfold referenceRenaming
  rw [List.mem_flatMap]
  constructor
  · rintro ⟨name, hname, hpair⟩
    obtain ⟨context, hcontext, rfl⟩ := List.mem_map.mp hpair
    exact ⟨name, hname, context, hcontext, rfl⟩
  · rintro ⟨name, hname, context, hcontext, rfl⟩
    exact ⟨name, hname, List.mem_map.mpr ⟨context, hcontext, rfl⟩⟩

theorem IsNaming.swap {names : List (Text × Text)} (h : IsNaming names) :
    IsNaming (names.map Prod.swap) := by
  refine ⟨fun pair hpair => ?_, fun pair hpair pair' hpair' heq => ?_, fun pair hpair pair' hpair' heq => ?_⟩
  · obtain ⟨name, hname, rfl⟩ := List.mem_map.mp hpair
    exact (h.isName name hname).symm
  · obtain ⟨name, hname, rfl⟩ := List.mem_map.mp hpair
    obtain ⟨name', hname', rfl⟩ := List.mem_map.mp hpair'
    rw [h.injective name hname name' hname' heq]
  · obtain ⟨name, hname, rfl⟩ := List.mem_map.mp hpair
    obtain ⟨name', hname', rfl⟩ := List.mem_map.mp hpair'
    rw [h.functional name hname name' hname' heq]

theorem referenceRenaming_swap (names : List (Text × Text)) :
    (referenceRenaming names).map Prod.swap = referenceRenaming (names.map Prod.swap) := by
  unfold referenceRenaming
  rw [List.map_flatMap, List.flatMap_map]
  rfl

/-! ## References -/

/-- A lexeme is a chain that begins with a reference to a job. -/
structure Lexeme.RefersTo (lexeme : Lexeme) (context job tail : Text) : Prop where
  context_mem : context ∈ contexts
  ne_nil : job ≠ []
  chars : ∀ c ∈ job, isIdentifierChar c = true
  head : ∀ c ∈ tail.head?, isIdentifierChar c = false
  eq_chain : lexeme = .chain (context ++ "." ++ job ++ tail)

/-- A reference to a job is renamed, and every other lexeme stays. -/
inductive RenamedLexeme (names : List (Text × Text)) : Lexeme → Lexeme → Prop where
  | reference {lexeme : Lexeme} {context old new tail : Text} (hname : (old, new) ∈ names)
      (hrefers : lexeme.RefersTo context old tail) :
      RenamedLexeme names lexeme (.chain (context ++ "." ++ new ++ tail))
  | other {lexeme : Lexeme} (hother : ∀ context job tail, ¬ lexeme.RefersTo context job tail) :
      RenamedLexeme names lexeme lexeme

/-- Of a template the literals stay, and the lexemes of the expressions are renamed. -/
inductive RenamedToken (names : List (Text × Text)) : Token → Token → Prop where
  | literal (text : Text) : RenamedToken names (.literal text) (.literal text)
  | expression {source source' : Text} {lexemes lexemes' : List Lexeme} (hsource : IsLexing source lexemes)
      (hsource' : IsLexing source' lexemes')
      (hlexemes : List.Forall₂ (RenamedLexeme names) lexemes lexemes') :
      RenamedToken names (.expression source) (.expression source')

/-- A text is a template, and another one is the template with the references to jobs renamed. -/
def RenamedText (names : List (Text × Text)) (text text' : Text) : Prop :=
  ∃ tokens tokens', Template.scan text = .ok tokens ∧ Template.scan text' = .ok tokens' ∧
    List.Forall₂ (RenamedToken names) tokens tokens'

/-- A reference is read in one way only. -/
theorem reference_inj {context context' job job' tail tail' : Text} (hcontext : context ∈ contexts)
    (hcontext' : context' ∈ contexts) (hjob : ∀ c ∈ job, isIdentifierChar c = true)
    (hjob' : ∀ c ∈ job', isIdentifierChar c = true) (htail : ∀ c ∈ tail.head?, isIdentifierChar c = false)
    (htail' : ∀ c ∈ tail'.head?, isIdentifierChar c = false)
    (h : context ++ "." ++ job ++ tail = context' ++ "." ++ job' ++ tail') :
    context = context' ∧ job = job' ∧ tail = tail' := by
  have hchars : ∀ context ∈ contexts, ∀ c ∈ context, isIdentifierChar c = true := fun context hmem c hc =>
    isIdentifierChar_of_isJobIdChar ((isName_context hmem).chars c hc)
  have hdot : ∀ rest : Text, ∀ c ∈ ("." ++ rest : Text).head?, isIdentifierChar c = false := by
    intro rest c hc
    cases hc
    decide
  rw [List.append_assoc, List.append_assoc, List.append_assoc, List.append_assoc] at h
  obtain ⟨rfl, hrest⟩ := run_append_inj (hchars context hcontext) (hchars context' hcontext') (hdot _)
    (hdot _) h
  obtain ⟨rfl, rfl⟩ := run_append_inj hjob hjob' htail htail' (List.append_cancel_left hrest)
  exact ⟨rfl, rfl, rfl⟩

theorem Lexeme.RefersTo.inj {lexeme : Lexeme} {context context' job job' tail tail' : Text}
    (h : lexeme.RefersTo context job tail) (h' : lexeme.RefersTo context' job' tail') :
    context = context' ∧ job = job' ∧ tail = tail' :=
  reference_inj h.context_mem h'.context_mem h.chars h'.chars h.head h'.head
    (Lexeme.chain.inj (h.eq_chain.symm.trans h'.eq_chain))

/-! ## Mentions -/

/-- An expression mentions no other jobs than these. -/
def MentionsOnly (jobs : List Text) (expression : Text) : Prop :=
  ∀ context ∈ contexts, ∀ job, job ≠ [] → (∀ c ∈ job, isIdentifierChar c = true) →
    Mentions expression (context ++ "." ++ job) → job ∈ jobs

/-- A text is a template whose expressions mention no other jobs than these. -/
def RefersOnly (jobs : List Text) (text : Text) : Prop :=
  ∃ tokens, Template.scan text = .ok tokens ∧ ∀ source, .expression source ∈ tokens → MentionsOnly jobs source

/-- The mentions of an expression can be found by reading a name wherever a reference may begin. -/
theorem mentionsOnly_iff {jobs : List Text} {expression : Text} : MentionsOnly jobs expression ↔
    ∀ before ∈ expression.inits, endsQuoted before = false → (∀ c ∈ before.getLast?, joinsNext c = false) →
      ∀ context ∈ contexts, ∀ rest ∈ Text.after? (context ++ ".") (expression.drop before.length),
        rest.takeWhile isIdentifierChar = [] ∨ jobs.contains (rest.takeWhile isIdentifierChar) = true := by
  constructor
  · intro h before hbefore hquoted hjoined context hcontext rest hrest
    by_cases hnil : rest.takeWhile isIdentifierChar = []
    · exact .inl hnil
    · obtain ⟨behind, rfl⟩ := (List.mem_inits _ _).mp hbefore
      rw [List.drop_left] at hrest
      obtain rfl := Text.after?_eq_some.mp hrest
      refine .inr (List.contains_iff_mem.mpr (h context hcontext _ hnil (fun c hc => List.mem_takeWhile_imp hc)
        ⟨before, rest.dropWhile isIdentifierChar, ?_, hquoted, hjoined, fun c hc => ?_⟩))
      · rw [List.append_assoc before, List.append_assoc (context ++ (".": Text)), List.takeWhile_append_dropWhile]
      · have hnot := List.head?_dropWhile_not isIdentifierChar rest
        rw [Option.mem_def.mp hc] at hnot
        simpa using hnot
  · rintro h context hcontext job hne hchars ⟨before, after, rfl, hquoted, hjoined, hafter⟩
    have hinits : before ∈ (before ++ (context ++ "." ++ job) ++ after).inits :=
      (List.mem_inits _ _).mpr ⟨_, (List.append_assoc _ _ _).symm⟩
    have hread := h before hinits hquoted hjoined context hcontext (job ++ after)
    rw [takeWhile_run hchars hafter] at hread
    refine List.contains_iff_mem.mp ((hread (Text.after?_eq_some.mpr ?_)).resolve_left hne)
    rw [List.append_assoc before, List.drop_left, List.append_assoc]

instance (jobs : List Text) (expression : Text) : Decidable (MentionsOnly jobs expression) :=
  decidable_of_iff _ mentionsOnly_iff.symm

theorem refersOnly_iff {jobs : List Text} {text : Text} : RefersOnly jobs text ↔
    ∃ tokens ∈ (Template.scan text).toOption,
      ∀ source ∈ Template.expressions tokens, MentionsOnly jobs source := by
  simp only [Option.mem_def, toOption_eq_some, Template.mem_expressions]
  rfl

instance (jobs : List Text) (text : Text) : Decidable (RefersOnly jobs text) :=
  decidable_of_iff _ refersOnly_iff.symm

/-- A reference that a chain begins with is mentioned. -/
theorem Lexeme.RefersTo.mentions {lexeme : Lexeme} {context job tail expression : Text}
    (h : lexeme.RefersTo context job tail) {front back : List Lexeme}
    (hlexing : IsLexing expression (front ++ lexeme :: back)) : Mentions expression (context ++ "." ++ job) := by
  obtain ⟨hchained, rfl⟩ := hlexing
  obtain rfl := h.eq_chain
  obtain ⟨hafter, hquoted⟩ := frames_before_chain hchained (.inl rfl)
  obtain ⟨hfits, -⟩ := chained_cons_iff.mp hchained.of_append
  refine ⟨join front, tail ++ join back, ?_, hquoted, joinsAfter_false.mp hafter, fun c hc => ?_⟩
  · rw [join_append, join_cons]
    simp [text]
  · cases tail with
    | nil => exact (Bool.or_eq_false_iff.mp (hfits.2.2 c hc)).1
    | cons d tail => exact h.head c hc

/-- Every lexeme of an expression can be renamed if the expression mentions only jobs that have new names. -/
theorem exists_renamedLexemes {names : List (Text × Text)} {expression : Text} {lexemes : List Lexeme}
    (hlexing : IsLexing expression lexemes)
    (hown : MentionsOnly (names.map Prod.fst) expression) :
    ∃ lexemes', List.Forall₂ (RenamedLexeme names) lexemes lexemes' := by
  refine exists_forall₂ fun lexeme hlexeme => ?_
  by_cases hrefers : ∃ context job tail, lexeme.RefersTo context job tail
  · obtain ⟨context, job, tail, hrefers⟩ := hrefers
    obtain ⟨front, back, rfl⟩ := List.append_of_mem hlexeme
    have hmentions := hrefers.mentions hlexing
    have hmem := hown context hrefers.context_mem job hrefers.ne_nil hrefers.chars hmentions
    obtain ⟨⟨old, new⟩, hname, rfl⟩ := List.mem_map.mp hmem
    exact ⟨_, .reference hname hrefers⟩
  · refine ⟨lexeme, .other fun context job tail h => hrefers ⟨context, job, tail, h⟩⟩

/-! ## The pass over lexemes -/

section

variable {names : List (Text × Text)} {lexeme lexeme' : Lexeme} {rest rest' : Text}

theorem IsNaming.isReference (h : IsNaming names) : ∀ pair ∈ referenceRenaming names, IsReference pair.1 := by
  intro pair hpair
  obtain ⟨name, hname, context, hcontext, rfl⟩ := mem_referenceRenaming.mp hpair
  exact isReference_member (isName_context hcontext) fun c hc =>
    isIdentifierChar_of_isJobIdChar ((h.isName name hname).1.chars c hc)

/-- A pair whose identifier begins a chain has the job that the chain refers to. -/
theorem IsNaming.refersTo_of_heads (h : IsNaming names) {pair : Text × Text} {run : Text}
    (hpair : pair ∈ referenceRenaming names) (hheads : Heads pair.1 run) :
    ∃ name ∈ names, ∃ context tail, pair = (context ++ "." ++ name.1, context ++ "." ++ name.2) ∧
      (Lexeme.chain run).RefersTo context name.1 tail := by
  obtain ⟨name, hname, context, hcontext, rfl⟩ := mem_referenceRenaming.mp hpair
  obtain ⟨tail, rfl, htail⟩ := hheads
  obtain ⟨hold, -⟩ := h.isName name hname
  refine ⟨name, hname, context, tail, rfl, hcontext, hold.ne_nil, fun c hc => ?_, htail, rfl⟩
  exact isIdentifierChar_of_isJobIdChar (hold.chars c hc)

/-- The pass takes the pair for the reference that a chain begins with. -/
theorem IsNaming.takes (h : IsNaming names) {context old new tail : Text} (hname : (old, new) ∈ names)
    (hrefers : lexeme.RefersTo context old tail) :
    Takes (referenceRenaming names) (context ++ "." ++ old ++ tail) (context ++ "." ++ old)
      (context ++ "." ++ new) := by
  have hend : ∀ c ∈ ([] : Text).head?, joinsNext c = false := fun c hc => by cases hc
  have honly : ∀ pair ∈ referenceRenaming names, Heads pair.1 (context ++ "." ++ old ++ tail) →
      pair = (context ++ "." ++ old, context ++ "." ++ new) := by
    intro pair hpair hheads
    obtain ⟨name, hname', context', tail', rfl, hrefers'⟩ := h.refersTo_of_heads hpair hheads
    rw [← hrefers.eq_chain] at hrefers'
    obtain ⟨rfl, hold, -⟩ := hrefers.inj hrefers'
    obtain rfl := h.functional _ hname name hname' hold
    rfl
  have hmem : (context ++ "." ++ old, context ++ "." ++ new) ∈ referenceRenaming names :=
    mem_referenceRenaming.mpr ⟨(old, new), hname, context, hrefers.context_mem, rfl⟩
  have hheads : Heads (context ++ "." ++ old) (context ++ "." ++ old ++ tail) := ⟨tail, rfl, hrefers.head⟩
  have hocc := (occursAt_iff_heads (h.isReference _ hmem) hend).mpr hheads
  obtain ⟨new', hmem', hlongest⟩ := longest?_eq_of_mem ⟨_, hmem, rfl⟩ hocc fun pair hpair hocc' => by
    rw [honly pair hpair ((occursAt_iff_heads (h.isReference pair hpair) hend).mp hocc')]
  have htakes := (longest?_eq_some_iff_takes h.isReference hend).mp hlongest
  rwa [(Prod.mk.inj (honly _ hmem' htakes.heads)).2] at htakes

/-- The pass with the names makes the renamed lexeme. -/
theorem RenamedLexeme.rewritesTo (h : RenamedLexeme names lexeme lexeme') (hnames : IsNaming names) :
    RewritesTo (referenceRenaming names) lexeme lexeme'.text := by
  cases h with
  | reference hname hrefers =>
    have htakes := hnames.takes hname hrefers
    obtain rfl := hrefers.eq_chain
    exact .replaced htakes
  | other hother =>
    cases lexeme with
    | literal body closed => exact .literal body closed
    | chain run =>
      refine .kept fun pair hpair hheads => ?_
      obtain ⟨name, -, context, tail, -, hrefers⟩ := hnames.refersTo_of_heads hpair hheads
      exact hother context name.1 tail hrefers
    | other c => exact .other c

/-- A renamed lexeme begins as it did. -/
theorem RenamedLexeme.head?_append (h : RenamedLexeme names lexeme lexeme') (hrest : rest'.head? = rest.head?) :
    (lexeme'.text ++ rest').head? = (lexeme.text ++ rest).head? := by
  cases h with
  | @reference context old new tail hname hrefers =>
    rw [hrefers.eq_chain]
    rcases context_cases hrefers.context_mem with rfl | rfl <;> rfl
  | other hother => rw [List.head?_append, List.head?_append, hrest]

theorem head?_join {lexemes lexemes' : List Lexeme} (h : List.Forall₂ (RenamedLexeme names) lexemes lexemes') :
    (join lexemes').head? = (join lexemes).head? := by
  induction h with
  | nil => rfl
  | cons hlexeme _ ih =>
    rw [join_cons, join_cons]
    exact hlexeme.head?_append ih

/-- So what comes after it, renamed or not, fits. -/
theorem RenamedLexeme.fits (h : RenamedLexeme names lexeme lexeme') (hnames : IsNaming names)
    (hfits : lexeme.Fits rest) (hrest : rest'.head? = rest.head?) : lexeme'.Fits rest' := by
  cases h with
  | @reference context old new tail hname hrefers =>
    obtain rfl := hrefers.eq_chain
    obtain ⟨-, hrun, hnext⟩ := hfits
    have hnew : ∀ c ∈ new, isIdentifierChar c = true := fun c hc =>
      isIdentifierChar_of_isJobIdChar ((hnames.isName _ hname).2.chars c hc)
    refine ⟨by simp, List.forall_mem_append.mpr ⟨?_, fun c hc => ?_⟩, ?_⟩
    · exact (isReference_member (isName_context hrefers.context_mem) hnew).joins
    · exact hrun c (List.mem_append_right _ hc)
    · rwa [hrest]
  | other hother =>
    cases lexeme with
    | literal body closed =>
      cases closed with
      | true => exact ⟨hfits.1, by rw [hrest]; exact hfits.2⟩
      | false =>
        obtain ⟨hbody, rfl⟩ := hfits
        exact ⟨hbody, List.head?_eq_none_iff.mp hrest⟩
    | chain run => exact ⟨hfits.1, hfits.2.1, by rw [hrest]; exact hfits.2.2⟩
    | other c => exact hfits

theorem Lexeme.Chained.renamed {lexemes lexemes' : List Lexeme} (h : Chained lexemes) (hnames : IsNaming names)
    (hlexemes : List.Forall₂ (RenamedLexeme names) lexemes lexemes') : Chained lexemes' := by
  induction hlexemes with
  | nil => exact .nil
  | cons hlexeme hrest ih =>
    obtain ⟨hfits, hchained⟩ := chained_cons_iff.mp h
    exact .cons (hlexeme.fits hnames hfits (head?_join hrest)) (ih hchained)

/-- The pass with the names makes the expression of the renamed lexemes. -/
theorem apply_eq_join (hnames : IsNaming names) {expression : Text} {lexemes lexemes' : List Lexeme}
    (hlexing : IsLexing expression lexemes) (hlexemes : List.Forall₂ (RenamedLexeme names) lexemes lexemes') :
    (referenceRenaming names).apply expression = join lexemes' := by
  have houtcomes : List.Forall₂ (RewritesTo (referenceRenaming names)) lexemes (lexemes'.map Lexeme.text) :=
    List.forall₂_map_right_iff.mpr (hlexemes.imp fun _ _ h => h.rewritesTo hnames)
  rw [apply_eq_flatten hnames.isReference hlexing houtcomes]
  rfl

theorem RenamedLexeme.symm (h : RenamedLexeme names lexeme lexeme') (hnames : IsNaming names) :
    RenamedLexeme (names.map Prod.swap) lexeme' lexeme := by
  cases h with
  | @reference context old new tail hname hrefers =>
    have hnew := (hnames.isName _ hname).2
    have hrefers' : (Lexeme.chain (context ++ "." ++ new ++ tail)).RefersTo context new tail :=
      ⟨hrefers.context_mem, hnew.ne_nil, fun c hc => isIdentifierChar_of_isJobIdChar (hnew.chars c hc),
        hrefers.head, rfl⟩
    rw [hrefers.eq_chain]
    exact .reference (List.mem_map.mpr ⟨(old, new), hname, rfl⟩) hrefers'
  | other hother => exact .other hother

end

/-! ## Templates -/

section

variable {names : List (Text × Text)} {text text' : Text}

theorem RenamedToken.rewritten_eq {token token' : Token} (h : RenamedToken names token token')
    (hnames : IsNaming names) : (referenceRenaming names).rewritten token = token' := by
  cases h with
  | literal text => rfl
  | expression hsource hsource' hlexemes =>
    rw [rewritten, apply_eq_join hnames hsource hlexemes, hsource'.join_eq]

/-- The pass with the names renames the references of a template. -/
theorem RenamedText.applyToTemplate (h : RenamedText names text text') (hnames : IsNaming names) :
    (referenceRenaming names).applyToTemplate text = .ok text' := by
  obtain ⟨tokens, tokens', hscan, hscan', htokens⟩ := h
  have heq : tokens.map (referenceRenaming names).rewritten = tokens' := by
    rw [← List.forall₂_eq_eq_eq, List.forall₂_map_left_iff]
    exact htokens.imp fun _ _ htoken => htoken.rewritten_eq hnames
  rw [applyToTemplate_eq hscan, heq, Template.embed_scan hscan']

/-- The names the other way round lead back. -/
theorem RenamedText.symm (h : RenamedText names text text') (hnames : IsNaming names) :
    RenamedText (names.map Prod.swap) text' text := by
  obtain ⟨tokens, tokens', hscan, hscan', htokens⟩ := h
  refine ⟨tokens', tokens, hscan', hscan, List.Forall₂.flip (htokens.imp fun token token' htoken => ?_)⟩
  cases htoken with
  | literal text => exact .literal text
  | expression hsource hsource' hlexemes =>
    exact .expression hsource' hsource (List.Forall₂.flip (hlexemes.imp fun _ _ h => h.symm hnames))

theorem isPlaceable_of_mem_referenceRenaming (hnames : IsNaming names) :
    ∀ pair ∈ referenceRenaming names, IsPlaceable pair.2 := by
  intro pair hpair
  obtain ⟨name, hname, context, hcontext, rfl⟩ := mem_referenceRenaming.mp hpair
  have hcontextName := isName_context hcontext
  have hplain : ∀ c ∈ context ++ "." ++ name.2, c ≠ '\'' ∧ c ≠ '}' := by
    simp only [List.forall_mem_append]
    exact ⟨⟨hcontextName.plain, by decide⟩, (hnames.isName name hname).2.plain⟩
  obtain ⟨c, rest, rfl⟩ := List.exists_cons_of_ne_nil hcontextName.ne_nil
  exact ⟨Template.encloses_of_plain hplain, c, rfl, (hplain c (by simp)).2⟩

/-- What the pass makes of a fragment is the fragment renamed, if it mentions only jobs that have new
names. -/
theorem renamedToken_rewritten (hnames : IsNaming names) {token : Token}
    (hown : ∀ source, token = .expression source → MentionsOnly (names.map Prod.fst) source) :
    RenamedToken names token ((referenceRenaming names).rewritten token) := by
  cases token with
  | literal text => exact .literal text
  | expression source =>
    obtain ⟨lexemes, hlexing⟩ := exists_isLexing source
    obtain ⟨lexemes', hlexemes⟩ := exists_renamedLexemes hlexing (hown source rfl)
    rw [rewritten, apply_eq_join hnames hlexing hlexemes]
    exact .expression hlexing ⟨hlexing.chained.renamed hnames hlexemes, rfl⟩ hlexemes

/-- A template that mentions only jobs that have new names can be renamed. -/
theorem exists_renamedText (hnames : IsNaming names) (h : RefersOnly (names.map Prod.fst) text) :
    ∃ text', RenamedText names text text' := by
  obtain ⟨tokens, hscan, hown⟩ := h
  have hquotes : ∀ pair ∈ referenceRenaming names, endsQuoted pair.1 = false := fun pair hpair =>
    endsQuoted_eq_false fun hmem =>
      ne_quote_of_joinsNext ((hnames.isReference pair hpair).joins '\'' hmem) rfl
  refine ⟨_, tokens, _, hscan,
    scan_rewritten hscan hquotes (isPlaceable_of_mem_referenceRenaming hnames), ?_⟩
  rw [List.forall₂_map_right_iff]
  exact List.forall₂_same.mpr fun token htoken =>
    renamedToken_rewritten hnames fun source heq => hown source (heq ▸ htoken)

/-- A text without an opening is not renamed. -/
theorem RenamedText.eq_of_hasOpening_eq_false (h : RenamedText names text text')
    (htext : Template.hasOpening text = false) : text' = text := by
  obtain ⟨tokens, tokens', hscan, hscan', htokens⟩ := h
  rw [Template.scan_of_hasOpening_eq_false htext] at hscan
  cases hscan
  obtain ⟨token', rest, htoken, hrest, rfl⟩ := List.forall₂_cons_left_iff.mp htokens
  cases hrest
  cases htoken
  rw [← Template.embed_scan hscan']
  simp [Template.embed, Template.tokenText]

theorem renamedText_self (htext : Template.hasOpening text = false) : RenamedText names text text :=
  ⟨_, _, Template.scan_of_hasOpening_eq_false htext, Template.scan_of_hasOpening_eq_false htext,
    .cons (.literal text) .nil⟩

end

/-! ## Values -/

section

variable {names : List (Text × Text)} {value value' : Json}

/-- A value that mentions only jobs that have new names is renamed by the pass. -/
theorem exists_renamedValue (hnames : IsNaming names)
    (h : ∀ text ∈ value.leaves, RefersOnly (names.map Prod.fst) text) :
    ∃ value', (referenceRenaming names).applyToValue value = .ok value' ∧
      Json.LeafWise (RenamedText names) value value' := by
  have hleaf : ∀ text ∈ value.leaves, ∃ text', RenamedText names text text' ∧
      (referenceRenaming names).applyToTemplate text = .ok text' := by
    intro text htext
    obtain ⟨text', hrenamed⟩ := exists_renamedText hnames (h text htext)
    exact ⟨text', hrenamed, hrenamed.applyToTemplate hnames⟩
  obtain ⟨value', hvalue⟩ : ∃ value', (referenceRenaming names).applyToValue value = .ok value' := by
    refine Json.exists_mapStrings fun text htext => ?_
    obtain ⟨text', -, happly⟩ := hleaf text htext
    exact ⟨_, by rw [happly]; rfl⟩
  refine ⟨value', hvalue, Json.leafWise_of_mapStrings hvalue fun text htext new hnew => ?_⟩
  obtain ⟨text', hrenamed, happly⟩ := hleaf text htext
  rw [Binding.leafResult_renaming.mpr happly] at hnew
  exact ⟨text', (Except.ok.inj hnew).symm, hrenamed⟩

/-- The pass with the names the other way round leads back. -/
theorem applyToValue_swap (hnames : IsNaming names) (h : Json.LeafWise (RenamedText names) value value') :
    (referenceRenaming (names.map Prod.swap)).applyToValue value' = .ok value :=
  Json.mapStrings_of_leafWise (fun _ _ hrenamed =>
    Binding.leafResult_renaming.mpr ((hrenamed.symm hnames).applyToTemplate hnames.swap)) h

end

end CachedWorkflow
