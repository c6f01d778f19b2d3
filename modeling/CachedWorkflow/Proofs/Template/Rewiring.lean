import CachedWorkflow.Proofs.Json.Leaves
import CachedWorkflow.Proofs.Template.Pass

/-!
# Proofs: what a renaming leaves of a reference

Renaming deals with all mentions of a reference in an expression (`Rewires`). If what is put in is final
for the reference (`Settles`), no expression of a value mentions it afterwards
(`not_mentions_of_settles`). If it can be put in anywhere (`IsInsertable`), a template keeps its fragments
(`applyToTemplate_keeps_structure`).
-/

namespace CachedWorkflow.Renaming

/-- How renaming deals with the mentions of a reference in an expression, given the parts that it cuts
the expression into. -/
structure Rewires (pairs : Renaming) (identifier expression : Text) (parts : List Part) : Prop where
  pass : Pass pairs false false parts
  source_eq : source parts = expression
  target_eq : target parts = pairs.apply expression
  /-- Every mention begins within an identifier that is replaced, as long as each identifier to replace
  ends the literals that it begins. -/
  replaced : (∀ pair ∈ pairs, endsQuoted pair.1 = false) → ∀ before after,
    expression = before ++ identifier ++ after → Frames before after →
    ∃ front old new back inside, parts = front ++ .replaced old new :: back ∧
      before = source front ++ inside ∧ inside.length < old.length
  /-- What is mentioned afterwards has been introduced. -/
  mentions_iff : Mentions (pairs.apply expression) identifier ↔
    ∃ front old new back, parts = front ++ .replaced old new :: back ∧
      Introduces new (target back) identifier

theorem exists_rewires {pairs : Renaming} {identifier : Text} (hid : IsReference identifier)
    (hmem : ∃ pair ∈ pairs, pair.1 = identifier)
    (hheads : ∀ pair ∈ pairs, ∀ c ∈ pair.1.head?, isIdentifierChar c = true)
    (hbalanced : ∀ pair ∈ pairs, endsQuoted pair.2 = false) (expression : Text) :
    ∃ parts, Rewires pairs identifier expression parts := by
  obtain ⟨parts, hpass, hsource, htarget⟩ := exists_pass pairs false false expression
  refine ⟨parts, hpass, hsource, htarget, fun hquotes before after hsplit hframes => ?_, ?_⟩
  · obtain ⟨hquoted, hjoined, hafter⟩ := hframes
    exact hpass.exists_replaced hquotes hid hmem (hsource.trans hsplit)
      (by rw [hquoted]; rfl) (joinsAfter_false.mpr hjoined) hafter
  · rw [CachedWorkflow.Renaming.mentions_iff hid.ne_nil, apply, ← htarget]
    exact hpass.mentionsFrom_target hid hmem hheads hbalanced

/-- A beginning that ends where an identifier may begin has nothing of a run of joining characters. -/
theorem eq_nil_of_joins {run front back : Text} (hrun : ∀ c ∈ run, joinsNext c = true)
    (hsplit : run = front ++ back) (hfront : ∀ c ∈ front.getLast?, joinsNext c = false) :
    front = [] := by
  rw [← List.getLast?_eq_none_iff, Option.eq_none_iff_forall_ne_some]
  intro c hc
  have hjoins := hrun c (by rw [hsplit]; exact List.mem_append_left back (List.mem_of_mem_getLast? hc))
  rw [hfront c hc] at hjoins
  cases hjoins

/-- Renaming puts a text in the place of each mention of a reference in an expression. -/
def Replaces (pairs : Renaming) (identifier new expression : Text) : Prop :=
  ∃ parts, Rewires pairs identifier expression parts ∧ ∀ before after,
    expression = before ++ identifier ++ after → Frames before after →
    ∃ front back, parts = front ++ .replaced identifier new :: back ∧ source front = before ∧
      source back = after

/-- This is so if the identifiers to replace are references as well, and none of the others begins it. -/
theorem Rewires.replaces {pairs : Renaming} {identifier new expression : Text} {parts : List Part}
    (h : Rewires pairs identifier expression parts)
    (hjoins : ∀ pair ∈ pairs, ∀ c ∈ pair.1, joinsNext c = true)
    (honly : ∀ pair ∈ pairs, ∀ rest, occursAt pair.1 (identifier ++ rest) = true →
      pair = (identifier, new)) : Replaces pairs identifier new expression := by
  refine ⟨parts, h, fun before after hsplit hframes => ?_⟩
  have hquotes : ∀ pair ∈ pairs, endsQuoted pair.1 = false := fun pair hpair =>
    endsQuoted_eq_false fun hmem => ne_quote_of_joinsNext (hjoins pair hpair '\'' hmem) rfl
  obtain ⟨front, old, new', back, inside, rfl, rfl, hlt⟩ := h.replaced hquotes before after hsplit hframes
  have hlongest := h.pass.longest?_of_replaced
  obtain ⟨hpair, hoccurs⟩ := longest?_eq_some hlongest
  have hrest : old ++ source back = inside ++ (identifier ++ after) := by
    have hsource := h.source_eq.trans hsplit
    rw [source, List.flatMap_append, List.flatMap_cons, List.append_assoc, List.append_assoc] at hsource
    exact List.append_cancel_left hsource
  have hinside : inside <+: old :=
    List.prefix_of_prefix_length_le ⟨_, hrest.symm⟩ ⟨source back, rfl⟩ hlt.le
  obtain ⟨tail, rfl⟩ := hinside
  -- the reference begins where an identifier may, so not behind the beginning of the replaced one
  obtain rfl : inside = [] := by
    refine eq_nil_of_joins (hjoins _ hpair) rfl fun c hc => ?_
    refine hframes.2.1 c ?_
    rw [List.getLast?_append, hc]
    rfl
  rw [List.nil_append] at hoccurs hrest
  rw [hrest, List.nil_append] at hoccurs
  obtain ⟨rfl, rfl⟩ := Prod.mk.inj (honly _ hpair after hoccurs)
  exact ⟨front, back, rfl, (List.append_nil _).symm, List.append_cancel_left hrest⟩

/-- Renaming leaves no mention of a renamed reference, unless what is put in introduces one. -/
theorem not_mentions_apply {pairs : Renaming} {identifier : Text} (hid : IsReference identifier)
    (hmem : ∃ pair ∈ pairs, pair.1 = identifier)
    (hheads : ∀ pair ∈ pairs, ∀ c ∈ pair.1.head?, isIdentifierChar c = true)
    (hbalanced : ∀ pair ∈ pairs, endsQuoted pair.2 = false)
    (hnone : ∀ pair ∈ pairs, ∀ rest, ¬ Introduces pair.2 rest identifier) (expression : Text) :
    ¬ Mentions (pairs.apply expression) identifier := by
  obtain ⟨parts, hrewires⟩ := exists_rewires hid hmem hheads hbalanced expression
  rw [hrewires.mentions_iff]
  rintro ⟨front, old, new, back, rfl, hnew⟩
  exact hnone (old, new) hrewires.pass.mem_of_replaced (target back) hnew

/-! ## The outcome as a template -/

/-- Text that may be put into an expression: an expression that does not begin with a brace. -/
structure IsPlaceable (new : Text) : Prop where
  encloses : Template.Encloses false new
  head : ∃ c ∈ new.head?, c ≠ '}'

/-- What does not begin with a brace does not afterwards. -/
theorem Pass.exists_head {pairs : Renaming} {joined quoted : Bool} {parts : List Part}
    (h : Pass pairs joined quoted parts) (hnews : ∀ pair ∈ pairs, IsPlaceable pair.2)
    (hsource : ∃ c ∈ (source parts).head?, c ≠ '}') : ∃ c ∈ (target parts).head?, c ≠ '}' := by
  cases h with
  | nil => exact hsource
  | kept => exact hsource
  | @replaced old new rest hlongest =>
    obtain ⟨c, hc, hne⟩ := (hnews _ (longest?_eq_some hlongest).1).head
    refine ⟨c, ?_, hne⟩
    rw [target_cons, List.head?_append, show (Part.replaced old new).after = new from rfl, hc]
    rfl

/-- The outcome of a pass is enclosed like the expression. -/
theorem Pass.encloses_target {pairs : Renaming} {joined quoted : Bool} {parts : List Part}
    (h : Pass pairs joined quoted parts) (hquotes : ∀ pair ∈ pairs, endsQuoted pair.1 = false)
    (hnews : ∀ pair ∈ pairs, IsPlaceable pair.2) (hsource : Template.Encloses quoted (source parts)) :
    Template.Encloses quoted (target parts) := by
  induction h with
  | nil => exact hsource
  | @kept joined quoted c rest _ hrest ih =>
    rw [source_cons] at hsource
    rw [target_cons]
    exact ⟨fun hquoted hbrace => hrest.exists_head hnews (hsource.1 hquoted hbrace), ih hsource.2⟩
  | @replaced old new rest hlongest _ ih =>
    have hpair := (longest?_eq_some hlongest).1
    rw [source_cons] at hsource
    rw [target_cons]
    have hrest := hsource.of_append
    rw [show (Part.replaced old new).before = old from rfl, hquotes _ hpair, Bool.false_xor] at hrest
    exact (hnews _ hpair).encloses.append (ih hrest)

/-- A template whose expressions are enclosed when they have been renamed stays a template, with these
expressions. -/
theorem scan_rewritten_of_encloses {pairs : Renaming} {template : Text} {tokens : List Token}
    (h : Template.scan template = .ok tokens)
    (hsources : ∀ source, .expression source ∈ tokens → Template.Encloses false (pairs.apply source)) :
    Template.scan (Template.embed (tokens.map pairs.rewritten)) = .ok (tokens.map pairs.rewritten) := by
  refine Template.scan_eq_ok_iff.mpr ⟨?_, rfl⟩
  obtain ⟨htokens, -⟩ := Template.scan_eq_ok_iff.mp h
  clear h
  induction htokens with
  | last htext => exact .last htext
  | @cons text source rest htext _ _ ih =>
    have hrest := ih fun source' hmem => hsources source' (List.mem_cons_of_mem _ (List.mem_cons_of_mem _ hmem))
    exact .cons htext (hsources source (List.mem_cons_of_mem _ List.mem_cons_self)) hrest

/-- What becomes of a template is a template: its expressions are those that have been renamed. -/
theorem scan_rewritten {pairs : Renaming} {template : Text} {tokens : List Token}
    (h : Template.scan template = .ok tokens) (hquotes : ∀ pair ∈ pairs, endsQuoted pair.1 = false)
    (hnews : ∀ pair ∈ pairs, IsPlaceable pair.2) :
    Template.scan (Template.embed (tokens.map pairs.rewritten)) = .ok (tokens.map pairs.rewritten) := by
  refine scan_rewritten_of_encloses h fun source hsource => ?_
  have henclosed := (Template.scan_eq_ok_iff.mp h).1.encloses hsource
  obtain ⟨parts, hpass, rfl, htarget⟩ := exists_pass pairs false false source
  have htargetEnclosed := hpass.encloses_target hquotes hnews henclosed
  rwa [htarget] at htargetEnclosed

/-- Text that can be put anywhere into an expression, told by its characters: it ends the literals that it
begins, closes no placeholder outside of them, and has no brace at its ends that one beside it could
complete. -/
structure IsInsertable (new : Text) : Prop where
  ne_nil : new ≠ []
  even : Even (new.count '\'')
  closings : ∀ before after, new = before ++ Template.closing ++ after → ¬ Even (before.count '\'')
  head : new.head? ≠ some '}'
  last : new.getLast? ≠ some '}'

theorem IsInsertable.isPlaceable {new : Text} (h : IsInsertable new) : IsPlaceable new := by
  have hends : endsQuoted new = false := by
    rw [Bool.eq_false_iff, ne_eq, Template.endsQuoted_iff, not_not]
    exact h.even
  refine ⟨Template.encloses_iff.mpr ⟨hends, fun before after hsplit => ?_⟩, ?_⟩
  · rw [Bool.xor_false, Template.endsQuoted_iff]
    rcases List.eq_nil_or_concat after with rfl | ⟨inside, c, rfl⟩
    · -- the closing would be completed by the brace behind the text
      have hlast : new = before ++ ['}'] := by
        have hbrace : new ++ ['}'] = (before ++ ['}']) ++ ['}'] := by
          rw [hsplit]
          simp [Template.closing]
        exact List.append_cancel_right hbrace
      exact absurd (by rw [hlast, List.getLast?_concat]) h.last
    · rw [List.concat_eq_append, ← List.append_assoc] at hsplit
      exact h.closings before inside (List.append_inj_left' hsplit rfl)
  · obtain ⟨c, rest, rfl⟩ := List.exists_cons_of_ne_nil h.ne_nil
    refine ⟨c, rfl, ?_⟩
    rintro rfl
    exact h.head rfl

/-- Renaming keeps the fragments of a template: the literals stay, and the expressions are renamed. -/
theorem applyToTemplate_keeps_structure {pairs : Renaming} {template : Text} {tokens : List Token}
    (hscan : Template.scan template = .ok tokens) (holds : ∀ pair ∈ pairs, '\'' ∉ pair.1)
    (hnews : ∀ pair ∈ pairs, IsInsertable pair.2) :
    ∃ new, pairs.applyToTemplate template = .ok new ∧
      Template.scan new = .ok (tokens.map pairs.rewritten) := by
  have hquotes : ∀ pair ∈ pairs, endsQuoted pair.1 = false := fun pair hpair =>
    endsQuoted_eq_false (holds pair hpair)
  have hplaceable : ∀ pair ∈ pairs, IsPlaceable pair.2 := fun pair hpair => (hnews pair hpair).isPlaceable
  refine ⟨Template.embed (tokens.map pairs.rewritten), applyToTemplate_eq hscan, ?_⟩
  exact scan_rewritten hscan hquotes hplaceable

/-- What is put in has quotes and braces, and braces and quotes stand beside it. -/
def bracedTemplate : Text :=
  "a\x7d\x7d$\x7b\x7b\x7bjobs.a\x7d'jobs.a\x7d\x7d' \x7d\x7d-$\x7b\x7bjobs.a\x7d\x7d\x7d"

def bracedText : Text := "\x7bf('\x7d\x7d''')"

theorem applyToTemplate_keeps_structure_braced :
    ∃ new, Renaming.applyToTemplate [("jobs.a", bracedText)] bracedTemplate = .ok new ∧
      Template.scan new = .ok [.literal "a\x7d\x7d",
        .expression "\x7b\x7bf('\x7d\x7d''')\x7d'jobs.a\x7d\x7d' ", .literal "-",
        .expression "\x7bf('\x7d\x7d''')", .literal "\x7d"] := by
  have hscan : Template.scan bracedTemplate = .ok [.literal "a\x7d\x7d",
      .expression "\x7bjobs.a\x7d'jobs.a\x7d\x7d' ", .literal "-", .expression "jobs.a",
      .literal "\x7d"] := by decide
  have hclosings : ∀ before ∈ bracedText.inits,
      Template.closing <+: bracedText.drop before.length → ¬ Even (before.count '\'') := by decide
  have hinsertable : IsInsertable bracedText := by
    refine ⟨by decide, by decide, fun before after hsplit => ?_, by decide, by decide⟩
    rw [List.append_assoc] at hsplit
    refine hclosings before ((List.mem_inits _ _).mpr ⟨_, hsplit.symm⟩) ?_
    rw [hsplit, List.drop_left]
    exact List.prefix_append _ _
  obtain ⟨new, hnew, htokens⟩ :=
    @applyToTemplate_keeps_structure [("jobs.a", bracedText)] bracedTemplate _ hscan (by decide)
      (List.forall_mem_singleton.mpr hinsertable)
  exact ⟨new, hnew, htokens.trans (by decide)⟩

/-- What renaming makes of a template, if there is something to rename. -/
theorem applyToTemplate_eq_ok {pairs : Renaming} (hpairs : pairs ≠ []) {template new : Text} :
    pairs.applyToTemplate template = .ok new ↔ ∃ tokens, Template.scan template = .ok tokens ∧
      new = Template.embed (tokens.map pairs.rewritten) := by
  constructor
  · intro h
    cases hscan : Template.scan template with
    | ok tokens =>
      rw [applyToTemplate_eq hscan] at h
      exact ⟨tokens, rfl, (Except.ok.inj h).symm⟩
    | error error =>
      have hopening : Template.hasOpening template = true := by
        by_contra hno
        rw [Template.scan_of_hasOpening_eq_false (Bool.eq_false_iff.mpr hno)] at hscan
        cases hscan
      have hempty : pairs.isEmpty = false := List.isEmpty_eq_false_iff.mpr hpairs
      rw [applyToTemplate, hopening, hempty, hscan] at h
      cases h
  · rintro ⟨tokens, hscan, rfl⟩
    exact applyToTemplate_eq hscan

/-- A pair that is final for an identifier: it puts in what can stand in an expression and does not
introduce the identifier. -/
structure Settles (identifier : Text) (pair : Text × Text) : Prop where
  balanced : endsQuoted pair.1 = false
  head : ∀ c ∈ pair.1.head?, isIdentifierChar c = true
  placeable : IsPlaceable pair.2
  not_introduces : ∀ rest, ¬ Introduces pair.2 rest identifier

/-- If all pairs are final, nothing in a value mentions a renamed reference afterwards. -/
theorem not_mentions_of_settles {pairs : Renaming} {identifier : Text} (hid : IsReference identifier)
    (hmem : ∃ pair ∈ pairs, pair.1 = identifier) (hsettles : ∀ pair ∈ pairs, Settles identifier pair)
    {value value' : Json} (h : pairs.applyToValue value = .ok value') {leaf : Text}
    (hleaf : leaf ∈ value'.leaves) {tokens : List Token} (hscan : Template.scan leaf = .ok tokens)
    {source : Text} (hsource : .expression source ∈ tokens) : ¬ Mentions source identifier := by
  have hpairs : pairs ≠ [] := by
    obtain ⟨pair, hpair, -⟩ := hmem
    exact List.ne_nil_of_mem hpair
  obtain ⟨template, -, new, hnew, hleaf⟩ := Json.exists_mem_leaves_of_mapStrings h hleaf
  obtain ⟨text, htext, hnew⟩ := map_eq_ok.mp hnew
  obtain ⟨text, htemplate, rfl⟩ := map_eq_ok.mp htext
  obtain rfl : Json.string text = new := hnew
  obtain rfl := List.mem_singleton.mp hleaf
  obtain ⟨tokens', hscan', rfl⟩ := (applyToTemplate_eq_ok hpairs).mp htemplate
  rw [scan_rewritten hscan' (fun pair hpair => (hsettles pair hpair).balanced)
    (fun pair hpair => (hsettles pair hpair).placeable)] at hscan
  cases hscan
  obtain ⟨token, -, htoken⟩ := List.mem_map.mp hsource
  cases token with
  | literal => cases htoken
  | expression before =>
    cases htoken
    exact not_mentions_apply hid hmem (fun pair hpair => (hsettles pair hpair).head)
      (fun pair hpair => (hsettles pair hpair).placeable.encloses.endsQuoted_eq)
      (fun pair hpair => (hsettles pair hpair).not_introduces) before

end CachedWorkflow.Renaming
