import CachedWorkflow.Proofs.Expression.Composition
import CachedWorkflow.Proofs.Path
import CachedWorkflow.Proofs.Workflow.PipelineJob

/-!
# Proofs: the condition of the author in a gate

The gate of a compiled job is a conjunction of operands in parentheses (`conjunction`, `gateOperands`). The
condition of the author is one more operand exactly if it is an expression by itself, and it brings an opening
into the gate exactly if there is one in it (`assemble_reads_condition`).
-/

namespace CachedWorkflow

/-! ## Operands -/

/-- The conjunction of a call of `always` and operands in parentheses. -/
def conjunction (operands : List ExprTree) : ExprTree :=
  operands.foldl (fun gate operand => .binary .and gate (.group operand)) (.nullary "always")

/-- A needed job has ended with the result. -/
def resultIs (job result : Text) : ExprTree :=
  .binary .equal ((ExprTree.name "needs").members [job, "result"]) (.literal ('\'' :: (result ++ ['\''])))

/-- The operands that the compiler makes: the initialization job succeeded, every need succeeded or was skipped,
and the job needs to be built, unless it is forced. -/
def gateOperands (init job : Text) (needs : List Text) (forced : Bool) : List ExprTree :=
  resultIs init "success" :: needs.map (fun need => .binary .or (resultIs need "success") (resultIs need "skipped"))
    ++ if forced then []
      else [.binary .equal ((ExprTree.name "needs").members [init, "outputs", needsBuildOutput job])
        (.literal "'true'")]

/-- A clause is an operand in parentheses. -/
def Clause.IsOperand (clause : Clause) (operand : ExprTree) : Prop :=
  ∃ inner, clause.toText = '(' :: (inner ++ [')']) ∧ IsParse inner operand ∧ 1 ≤ operand.level

theorem isIdentifier_of_validateJobId {id : Text} (h : validateJobId id = .ok ()) : isIdentifier id = true := by
  cases id with
  | nil => cases h
  | cons c rest =>
    rw [validateJobId] at h
    split at h
    · next hid => exact hid
    · cases h

/-- A member of a needed job is compared with a string. -/
theorem isParse_needs {properties : List Text} (hproperties : ∀ property ∈ properties, isIdentifier property = true)
    {body : Text} (hbody : Template.IsLiteralBody body) :
    IsParse (chainOf "needs" properties ++ [' ', '=', '=', ' '] ++ '\'' :: (body ++ ['\'']))
      (.binary .equal ((ExprTree.name "needs").members properties) (.literal ('\'' :: (body ++ ['\''])))) := by
  have hneeds : isIdentifier "needs" = true := by decide
  have hname : (ExprTree.name "needs").WellFormed := trivial
  have hle : Operator.level .equal ≤ ((ExprTree.name "needs").members properties).level :=
    le_trans (by decide) (ExprTree.wellFormed_members hname (le_refl 7) properties).2
  have hlt : Operator.level .equal < (ExprTree.literal ('\'' :: (body ++ ['\'']))).level :=
    Nat.lt_of_sub_pos (Nat.succ_pos 2)
  have hquote : ('\'' :: (body ++ ['\''])).head? ≠ some '.' := fun hdot => absurd (Option.some.inj hdot) (by decide)
  exact (isParse_members hneeds (by decide) hproperties).binary (isParse_literal hbody) rfl hle hlt hquote

theorem isParse_resultIs {job : Text} (hjob : isIdentifier job = true) {result : Text}
    (hresult : Template.IsLiteralBody result) :
    IsParse (chainOf "needs" [job, "result"] ++ [' ', '=', '=', ' '] ++ '\'' :: (result ++ ['\'']))
      (resultIs job result) := by
  refine isParse_needs (fun property hproperty => ?_) hresult
  rcases List.mem_cons.mp hproperty with rfl | hproperty
  · exact hjob
  · obtain rfl := List.mem_singleton.mp hproperty
    decide

theorem isLiteralBody_of_plain {body : Text} (h : '\'' ∉ body) : Template.IsLiteralBody body := by
  induction body with
  | nil => exact .nil
  | cons c rest ih =>
    obtain ⟨hc, hrest⟩ := not_or.mp (List.mem_cons.not.mp h)
    exact .char (Ne.symm hc) (ih hrest)

section

variable {init job : Text}

theorem isOperand_initialized (hinit : isIdentifier init = true) :
    (Clause.initialized init).IsOperand (resultIs init "success") := by
  have hsplit : ∀ lead tail body : Text, lead = '(' :: ("needs" ++ ['.']) →
      tail = '.' :: ("result" ++ [' ', '=', '=', ' '] ++ '\'' :: (body ++ ['\''])) ++ [')'] →
      lead ++ init ++ tail
        = '(' :: ((chainOf "needs" [init, "result"] ++ [' ', '=', '=', ' '] ++ '\'' :: (body ++ ['\''])) ++ [')']) := by
    rintro lead tail body rfl rfl
    simp [chainOf]
  have hsuccess := isParse_resultIs hinit (isLiteralBody_of_plain (by decide : '\'' ∉ ("success" : Text)))
  exact ⟨_, hsplit "(needs." ".result == 'success')" "success" rfl rfl, hsuccess, Nat.le_of_ble_eq_true rfl⟩

theorem isOperand_finished (hjob : isIdentifier job = true) :
    (Clause.finished job).IsOperand (.binary .or (resultIs job "success") (resultIs job "skipped")) := by
  have hsplit : ∀ lead middle tail body body' : Text, lead = '(' :: ("needs" ++ ['.']) →
      middle = '.' :: ("result" ++ [' ', '=', '=', ' '] ++ '\'' :: (body ++ ['\''])) ++ [' ', '|', '|', ' ']
        ++ ("needs" ++ ['.']) →
      tail = '.' :: ("result" ++ [' ', '=', '=', ' '] ++ '\'' :: (body' ++ ['\''])) ++ [')'] →
      lead ++ job ++ middle ++ job ++ tail
        = '(' :: ((chainOf "needs" [job, "result"] ++ [' ', '=', '=', ' '] ++ '\'' :: (body ++ ['\'']))
          ++ [' ', '|', '|', ' ']
          ++ (chainOf "needs" [job, "result"] ++ [' ', '=', '=', ' '] ++ '\'' :: (body' ++ ['\''])) ++ [')']) := by
    rintro lead middle tail body body' rfl rfl rfl
    simp [chainOf]
  have hsuccess := isParse_resultIs hjob (isLiteralBody_of_plain (by decide : '\'' ∉ ("success" : Text)))
  have hskipped := isParse_resultIs hjob (isLiteralBody_of_plain (by decide : '\'' ∉ ("skipped" : Text)))
  have hor : pair? '|' '|' = some (.operator .or) := rfl
  have hleft : Operator.level .or ≤ (resultIs job "success").level := Nat.le_of_ble_eq_true rfl
  have hright : Operator.level .or < (resultIs job "skipped").level := Nat.le_of_ble_eq_true rfl
  exact ⟨_, hsplit "(needs." ".result == 'success' || needs." ".result == 'skipped')" "success" "skipped" rfl rfl rfl,
    hsuccess.binary hskipped hor hleft hright (by simp [chainOf]), Nat.le_of_ble_eq_true rfl⟩

theorem isOperand_needsBuild (hinit : isIdentifier init = true) (hjob : IsName job) :
    (Clause.needsBuild init job).IsOperand
      (.binary .equal ((ExprTree.name "needs").members [init, "outputs", needsBuildOutput job])
        (.literal "'true'")) := by
  have hoption : isIdentifier (needsBuildOutput job) = true := by
    have hstart : isJobIdStart 'n' = true := by decide
    have hrest : ("eeds-build-" : Text).all isJobIdChar = true := by decide
    have hchars : job.all isJobIdChar = true := List.all_eq_true.mpr hjob.chars
    have hsplit : needsBuildOutput job = 'n' :: ("eeds-build-" ++ job) := rfl
    rw [hsplit, isIdentifier, List.all_append, hstart, hrest, hchars]
    rfl
  have hproperties : ∀ property ∈ [init, "outputs", needsBuildOutput job], isIdentifier property = true := by
    have houtputs : isIdentifier "outputs" = true := by decide
    exact List.forall_mem_cons.mpr ⟨hinit, List.forall_mem_cons.mpr ⟨houtputs, List.forall_mem_singleton.mpr hoption⟩⟩
  have hsplit : ∀ tail : Text, tail = [' ', '=', '=', ' '] ++ '\'' :: ("true" ++ ['\'']) ++ [')'] →
      '(' :: initOutput init (needsBuildOutput job) ++ tail
        = '(' :: ((chainOf "needs" [init, "outputs", needsBuildOutput job] ++ [' ', '=', '=', ' ']
          ++ '\'' :: ("true" ++ ['\''])) ++ [')']) := by
    rintro tail rfl
    rw [initOutput_eq]
    simp [chainOf]
  have htrue := isParse_needs hproperties (isLiteralBody_of_plain (by decide : '\'' ∉ ("true" : Text)))
  exact ⟨_, hsplit " == 'true')" rfl, htrue, Nat.le_of_ble_eq_true rfl⟩

end

/-! ## Gates -/

theorem gateText_cons (clause : Clause) (clauses : List Clause) :
    gateText (clause :: clauses)
      = clause.toText ++ clauses.flatMap fun other => [' ', '&', '&', ' '] ++ other.toText := by
  induction clauses generalizing clause with
  | nil =>
    rw [List.flatMap_nil, List.append_nil]
    exact List.append_nil _
  | cons other clauses ih =>
    have hcons : gateText (clause :: other :: clauses)
        = clause.toText ++ ([' ', '&', '&', ' '] ++ gateText (other :: clauses)) := rfl
    rw [hcons, ih, List.flatMap_cons, List.append_assoc [' ', '&', '&', ' ']]

theorem conjunction_concat (operands : List ExprTree) (operand : ExprTree) :
    conjunction (operands ++ [operand]) = .binary .and (conjunction operands) (.group operand) :=
  List.foldl_concat _ _ _ _

theorem level_conjunction (operands : List ExprTree) : 2 ≤ (conjunction operands).level := by
  cases operands using List.reverseRecOn with
  | nil => exact Nat.le_of_ble_eq_true rfl
  | append_singleton operands operand =>
    rw [conjunction_concat]
    exact Nat.le_of_ble_eq_true rfl

/-- Clauses that are operands in parentheses are read as the conjunction of these. -/
theorem isParse_gateText {clauses : List Clause} {operands : List ExprTree}
    (h : List.Forall₂ Clause.IsOperand clauses operands) :
    IsParse (gateText (.always :: clauses)) (conjunction operands) := by
  -- an operand more on both sides, whatever has been read before
  have hfold : ∀ {text : Text} {tree : ExprTree}, IsParse text tree → 2 ≤ tree.level →
      IsParse (text ++ clauses.flatMap fun clause => [' ', '&', '&', ' '] ++ clause.toText)
        (operands.foldl (fun gate operand => .binary .and gate (.group operand)) tree) := by
    induction h with
    | nil =>
      intro text tree htext _
      rw [List.flatMap_nil, List.append_nil]
      exact htext
    | @cons clause operand clauses operands hoperand _ ih =>
      intro text tree htext hlevel
      obtain ⟨inner, hclause, hinner⟩ := hoperand
      have hand : pair? '&' '&' = some (.operator .and) := rfl
      have hnext := (htext.binary_group_iff hand hlevel).mpr hinner
      rw [List.flatMap_cons, hclause, ← List.append_assoc, ← List.append_assoc]
      exact ih hnext (Nat.le_of_ble_eq_true rfl)
  rw [gateText_cons]
  have hword : isIdentifier "always" = true ∧ ("always" : Text) ∉ keywords := by decide
  have halways : IsParse Clause.always.toText (.nullary "always") := isParse_nullary hword.1 hword.2
  exact hfold halways (Nat.le_of_ble_eq_true rfl)

section

variable {config : Configuration} {job : Text} {needs : List Text} {forced : Bool}

theorem gateClauses_none : gateClauses config job needs forced none
    = .always :: (.initialized config.initJobId :: needs.map .finished
      ++ if forced then [] else [.needsBuild config.initJobId job]) := by
  simp only [gateClauses, Option.map_none, Option.toList_none, List.append_nil, List.cons_append, List.nil_append]

theorem forall₂_gateOperands (hinit : isIdentifier config.initJobId = true) (hjob : IsName job)
    (hneeds : ∀ need ∈ needs, isIdentifier need = true) :
    List.Forall₂ Clause.IsOperand
      (.initialized config.initJobId :: needs.map .finished
        ++ if forced then [] else [.needsBuild config.initJobId job])
      (gateOperands config.initJobId job needs forced) := by
  have hfinished : List.Forall₂ Clause.IsOperand (needs.map .finished)
      (needs.map fun need => .binary .or (resultIs need "success") (resultIs need "skipped")) := by
    rw [List.forall₂_map_left_iff, List.forall₂_map_right_iff, List.forall₂_same]
    exact fun need hneed => isOperand_finished (hneeds need hneed)
  refine List.rel_append (.cons (isOperand_initialized hinit) hfinished) ?_
  cases forced with
  | true => exact .nil
  | false => exact .cons (isOperand_needsBuild hinit hjob) .nil

/-- The clauses that the compiler makes have no opening. -/
theorem dollar_not_mem_gateText (hinit : IsName config.initJobId) (hjob : IsName job)
    (hneeds : ∀ need ∈ needs, IsName need) : '$' ∉ gateText (gateClauses config job needs forced none) := by
  have hclause : ∀ clause : Clause, clause.IsGenerated config.initJobId → '$' ∉ clause.toText := by
    intro clause hclause
    cases clause with
    | always => decide
    | initialized id =>
      exact List.not_mem_append (List.not_mem_append (by decide) (hclause.not_mem rfl)) (by decide)
    | finished id =>
      have hfirst : '$' ∉ "(needs." ++ id ++ ".result == 'success' || needs." :=
        List.not_mem_append (List.not_mem_append (by decide) (hclause.not_mem rfl)) (by decide)
      exact List.not_mem_append (List.not_mem_append hfirst (hclause.not_mem rfl)) (by decide)
    | needsBuild id other =>
      obtain ⟨rfl, hother⟩ := hclause
      have hinitOutput : '$' ∉ initOutput config.initJobId (needsBuildOutput other) := by
        have hlead : '$' ∉ "needs." ++ config.initJobId ++ ".outputs." :=
          List.not_mem_append (List.not_mem_append (by decide) (hinit.not_mem rfl)) (by decide)
        exact List.not_mem_append hlead (List.not_mem_append (by decide) (hother.not_mem rfl))
      exact List.not_mem_append (List.not_mem_append (by decide) hinitOutput) (by decide)
    | authored condition => exact hclause.elim
  have hgenerated : ∀ clause ∈ gateClauses config job needs forced none, clause.IsGenerated config.initJobId :=
    isGenerated_of_mem_gateClauses hinit hjob hneeds
  rw [gateClauses_none] at hgenerated ⊢
  rw [gateText_cons]
  refine List.not_mem_append (by decide) fun hmem => ?_
  obtain ⟨clause, hmember, hmem⟩ := List.mem_flatMap.mp hmem
  refine List.not_mem_append (by decide) ?_ hmem
  exact hclause clause (hgenerated clause (List.mem_cons_of_mem _ hmember))

/-- The condition of the author comes last. -/
theorem gateText_some (condition : Text) : gateText (gateClauses config job needs forced (some condition))
    = gateText (gateClauses config job needs forced none) ++ [' ', '&', '&', ' ']
      ++ '(' :: (condition ++ [')']) := by
  rw [gateClauses_eq, gateClauses_none, Option.map_some, Option.toList_some, List.cons_append, gateText_cons,
    gateText_cons, List.flatMap_append, List.flatMap_singleton]
  simp only [List.append_assoc]
  rfl

end

/-! ## Openings -/

/-- An opening comes before or behind a character that is not in it. -/
theorem hasOpening_append_cons {a b : Text} {c : Char} (hc : c ∉ Template.opening) :
    Template.hasOpening (a ++ c :: b) = (Template.hasOpening a || Template.hasOpening b) := by
  rw [Bool.eq_iff_iff, Bool.or_eq_true, Template.hasOpening_iff, Template.hasOpening_iff, Template.hasOpening_iff]
  constructor
  · exact fun h => infix_of_infix_append_cons h hc
  · rintro (h | h)
    · exact h.trans (List.prefix_append a (c :: b)).isInfix
    · exact h.trans ((List.suffix_cons c b).trans (List.suffix_append a (c :: b))).isInfix

theorem hasOpening_eq_false_of_dollar {text : Text} (h : '$' ∉ text) : Template.hasOpening text = false := by
  rw [Bool.eq_false_iff, ne_eq, Template.hasOpening_iff]
  exact fun hopening => h (hopening.subset (by decide))

/-- Blanks around a text neither have an opening nor are they part of one. -/
theorem hasOpening_trimmed (text : Text) :
    Template.hasOpening (text.trimmed isWhiteSpace) = Template.hasOpening text := by
  have hblank : ∀ c, isWhiteSpace c = true → c ∉ Template.opening := by
    intro c hc hmem
    have hopening : ∀ c ∈ Template.opening, isWhiteSpace c = false := by decide
    rw [hopening c hmem] at hc
    cases hc
  have hblanks : ∀ blanks : Text, (∀ c ∈ blanks, isWhiteSpace c = true) → Template.hasOpening blanks = false :=
    fun blanks hall => hasOpening_eq_false_of_dollar fun hmem => absurd (hall '$' hmem) (by decide)
  have hbehind : ∀ text blanks : Text, (∀ c ∈ blanks, isWhiteSpace c = true) →
      Template.hasOpening (text ++ blanks) = Template.hasOpening text := by
    intro text blanks hall
    cases blanks with
    | nil => rw [List.append_nil]
    | cons c blanks =>
      obtain ⟨hc, hrest⟩ := List.forall_mem_cons.mp hall
      rw [hasOpening_append_cons (hblank c hc), hblanks blanks hrest, Bool.or_false]
  have hbefore : ∀ text blanks : Text, (∀ c ∈ blanks, isWhiteSpace c = true) →
      Template.hasOpening (blanks ++ text) = Template.hasOpening text := by
    intro text blanks hall
    induction blanks with
    | nil => rfl
    | cons c blanks ih =>
      obtain ⟨hc, hrest⟩ := List.forall_mem_cons.mp hall
      have hsplit := hasOpening_append_cons (a := []) (b := blanks ++ text) (hblank c hc)
      exact hsplit.trans (ih hrest)
  obtain ⟨before, after, hall, hall', htext⟩ := Text.exists_eq_trimmed isWhiteSpace text
  have hwhole := hbehind (before ++ text.trimmed isWhiteSpace) after hall'
  rw [← htext, hbefore _ before hall] at hwhole
  exact hwhole.symm

/-- Where the condition of the author has an opening: in the expression if the text is one placeholder and
nothing else, and anywhere if it is not. -/
theorem hasOpening_authoredCondition {job condition : Text} {value : Json}
    (h : authoredCondition job value = .ok condition) :
    Template.hasOpening condition = true ↔ ∃ given expression?, value = .string given ∧
      Template.fullExpression? given = .ok expression? ∧
        Template.hasOpening (expression?.getD given) = true := by
  cases value with
  | bool flag =>
    have hnone : Template.hasOpening condition = false := by
      cases h
      cases flag
      · rfl
      · rfl
    rw [hnone]
    exact iff_of_false Bool.false_ne_true (by simp)
  | string given =>
    obtain ⟨expression?, hfull, h⟩ := bind_eq_ok.mp h
    have hopening : Template.hasOpening condition = Template.hasOpening (expression?.getD given) := by
      cases expression? with
      | some expression =>
        cases h
        rfl
      | none =>
        cases h
        exact hasOpening_trimmed given
    rw [hopening]
    constructor
    · exact fun hleft => ⟨given, expression?, rfl, hfull, hleft⟩
    · rintro ⟨given', expression?', hgiven, hfull', hleft⟩
      cases hgiven
      rw [hfull] at hfull'
      cases hfull'
      exact hleft
  | null | number _ | array _ | object _ => cases h

/-! ## Compiled jobs -/

variable {name : Text} {job compiled : Object} {graph : JobGraph} {config : Configuration} {settings : JobSettings}

/-- The gate of a compiled job is the conjunction of the operands that the compiler makes, without an opening,
if the author gave no condition. With a condition one more operand in parentheses stands behind these, and only
if the condition is an expression by itself; and the gate has an opening exactly if one is left in it. -/
theorem assemble_reads_condition (hsettings : graph.get? name = some settings)
    (hinit : validateJobId config.initJobId = .ok ()) (hname : validateJobId name = .ok ())
    (hneeds : ∀ need ∈ settings.needs, validateJobId need = .ok ())
    (h : assemble name job graph config = .ok compiled) :
    ∃ gate, compiled.get? "if" = some (.string gate) ∧
      (job.get? "if" = none → Template.hasOpening gate = false ∧
        IsParse gate (conjunction (gateOperands config.initJobId name settings.needs (graph.isForced name)))) ∧
      ∀ value, job.get? "if" = some value → ∃ condition, authoredCondition name value = .ok condition ∧
        (Template.hasOpening gate = true ↔ ∃ given expression?, value = .string given ∧
          Template.fullExpression? given = .ok expression? ∧
            Template.hasOpening (expression?.getD given) = true) ∧
        ∀ tree, IsParse gate (conjunction
            (gateOperands config.initJobId name settings.needs (graph.isForced name) ++ [tree])) ↔
          IsParse condition tree ∧ 1 ≤ tree.level := by
  obtain ⟨own, authored, saving, condition?, -, -, hcondition, -, -, hgate⟩ := assemble_eq_ok hsettings h
  have hgenerated : IsParse
      (gateText (gateClauses config name settings.needs (graph.isForced name) none))
      (conjunction (gateOperands config.initJobId name settings.needs (graph.isForced name))) := by
    rw [gateClauses_none]
    exact isParse_gateText (forall₂_gateOperands (isIdentifier_of_validateJobId hinit) (validateJobId_eq_ok hname)
      fun need hneed => isIdentifier_of_validateJobId (hneeds need hneed))
  have hplain : Template.hasOpening (gateText (gateClauses config name settings.needs (graph.isForced name) none))
      = false :=
    hasOpening_eq_false_of_dollar (dollar_not_mem_gateText (validateJobId_eq_ok hinit) (validateJobId_eq_ok hname)
      fun need hneed => validateJobId_eq_ok (hneeds need hneed))
  refine ⟨_, hgate, fun hnone => ?_, fun value hvalue => ?_⟩
  · rw [authoredCondition?, hnone] at hcondition
    cases hcondition
    exact ⟨hplain, hgenerated⟩
  · rw [authoredCondition?, hvalue] at hcondition
    obtain ⟨condition, hauthored, rfl⟩ := map_eq_ok.mp hcondition
    refine ⟨condition, hauthored, ?_, fun tree => ?_⟩
    · have hparen : '(' ∉ Template.opening ∧ ')' ∉ Template.opening ∧ ' ' ∉ Template.opening := by decide
      rw [← hasOpening_authoredCondition hauthored, gateText_some, hasOpening_append_cons hparen.1,
        hasOpening_append_cons hparen.2.1, hasOpening_append_cons hparen.2.2, hplain]
      simp [Template.hasOpening]
    · have hand : pair? '&' '&' = some (.operator .and) := rfl
      rw [gateText_some, conjunction_concat]
      exact hgenerated.binary_group_iff hand (level_conjunction _)

/-- A job that another one needs. -/
def conditionedGraph : JobGraph where
  jobs := [⟨"build", { outputPaths := [outputsFile "build"] }⟩,
    ⟨"test", { outputPaths := [outputsFile "test"], needs := ["build"] }⟩]
  dependencies := [[], [0]]
  order := [0, 1]
  forced := []

theorem get?_conditionedGraph : conditionedGraph.get? "test"
    = some { outputPaths := [outputsFile "test"], needs := ["build"] } := by decide +kernel

/-- The other one, under a condition. -/
def conditionedJob (condition : Text) : Object := [
  ("if", .string condition),
  ("needs", .string "build"),
  ("runs-on", .string "linux"),
  ("steps", .array [.object [("run", .string "make test")]])]

theorem assemble_reads_condition_placeholder : ∃ compiled gate,
    assemble "test" (conditionedJob (Template.placeholder "github.ref")) conditionedGraph {} = .ok compiled ∧
      compiled.get? "if" = some (.string gate) ∧ Template.hasOpening gate = false ∧
        IsParse gate (conjunction (gateOperands (Configuration.initJobId {}) "test" ["build"] false
          ++ [(ExprTree.name "github").members ["ref"]])) := by
  have hok : (assemble "test" (conditionedJob (Template.placeholder "github.ref")) conditionedGraph {}).toBool
      = true := by decide +kernel
  cases h : assemble "test" (conditionedJob (Template.placeholder "github.ref")) conditionedGraph {} with
  | error error =>
    rw [h] at hok
    cases hok
  | ok compiled =>
    obtain ⟨gate, hgate, -, hreads⟩ := assemble_reads_condition get?_conditionedGraph (by decide +kernel) (by decide +kernel)
      (by decide +kernel) h
    obtain ⟨condition, hcondition, hopening, hparse⟩ := hreads _ rfl
    have hfull : Template.fullExpression? (Template.placeholder "github.ref") = .ok (some "github.ref") := by
      decide +kernel
    have hgiven : authoredCondition "test" (.string (Template.placeholder "github.ref")) = .ok "github.ref" := by
      decide +kernel
    rw [hgiven] at hcondition
    obtain rfl := Except.ok.inj hcondition
    have hwords : isIdentifier "github" = true ∧ ("github" : Text) ∉ keywords ∧
        ∀ property ∈ ([['r', 'e', 'f']] : List Text), isIdentifier property = true := by decide
    have hmembers : IsParse "github.ref" ((ExprTree.name "github").members ["ref"]) :=
      isParse_members hwords.1 hwords.2.1 hwords.2.2
    refine ⟨compiled, gate, rfl, hgate, ?_, (hparse _).mpr ⟨hmembers, Nat.le_of_ble_eq_true rfl⟩⟩
    rw [Bool.eq_false_iff, ne_eq, hopening]
    rintro ⟨given, expression?, hvalue, hexpression, hleft⟩
    obtain rfl := Json.string.inj hvalue
    rw [hfull] at hexpression
    obtain rfl := Except.ok.inj hexpression
    exact absurd hleft (by decide)

/-- A condition that is a placeholder with a line break behind it is left as it is, so that the gate is no
expression. -/
theorem not_forall_gate_is_expression :
    ¬ ∀ (name gate : Text) (job compiled : Object) (graph : JobGraph) (config : Configuration)
      (settings : JobSettings), graph.get? name = some settings → validateJobId config.initJobId = .ok () →
      validateJobId name = .ok () → (∀ need ∈ settings.needs, validateJobId need = .ok ()) →
      assemble name job graph config = .ok compiled → compiled.get? "if" = some (.string gate) →
      Template.hasOpening gate = false ∧ ∃ operand : Option ExprTree,
        (operand.isSome ↔ (job.get? "if").isSome) ∧
        IsParse gate (conjunction (gateOperands config.initJobId name settings.needs (graph.isForced name)
          ++ operand.toList)) := by
  intro h
  have hok : (assemble "test" (conditionedJob (Template.placeholder "github.ref" ++ ['\n'])) conditionedGraph
      {}).toBool = true := by decide +kernel
  cases hassemble : assemble "test" (conditionedJob (Template.placeholder "github.ref" ++ ['\n']))
      conditionedGraph {} with
  | error error =>
    rw [hassemble] at hok
    cases hok
  | ok compiled =>
    obtain ⟨own, authored, saving, condition?, -, -, hcondition, -, -, hgate⟩ :=
      assemble_eq_ok get?_conditionedGraph hassemble
    -- the blanks are gone, but not what makes the text a template
    have hgiven : authoredCondition? "test" (conditionedJob (Template.placeholder "github.ref" ++ ['\n']))
        = .ok (some (Template.placeholder "github.ref")) := by decide +kernel
    rw [hgiven] at hcondition
    obtain rfl := Except.ok.inj hcondition
    obtain ⟨hplain, -⟩ := h _ _ _ _ _ _ _ get?_conditionedGraph (by decide +kernel) (by decide +kernel)
      (by decide +kernel) hassemble hgate
    exact absurd hplain (by decide +kernel)

end CachedWorkflow
