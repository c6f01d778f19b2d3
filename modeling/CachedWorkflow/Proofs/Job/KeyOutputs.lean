import CachedWorkflow.Proofs.Job.KeyRun
import CachedWorkflow.Proofs.Template.Evaluation

/-!
# Proofs: every key becomes an output

The paths in a key script may have placeholders. Before the shell gets the script, the runner puts values in
their places (`Template.filledWith`). The placeholders stand in double quotes, so values whose characters have
no meaning there are part of the words that they stand in (`reads_pieces`). Whatever the values are, the script
runs to its end and makes the key of every job an output of its step (`exists_run_scriptTokens`). Which objects
are hashed does not matter for that, and neither does the order of the assignments.
-/

namespace CachedWorkflow

open Shell Template

/-! ## The script in fragments -/

/-- What a fragment becomes when placeholders get their values. -/
def Template.valueText (value : Text → Text) : Token → Text
  | .literal text => text
  | .expression source => value source

/-- The fragments with the values of the expressions in the places of the placeholders. -/
def Template.filledWith (value : Text → Text) (tokens : List Token) : Text :=
  fill tokens ((expressions tokens).map value)

theorem Template.filledWith_eq (value : Text → Text) (tokens : List Token) :
    filledWith value tokens = tokens.flatMap (valueText value) := by
  induction tokens with
  | nil => rfl
  | cons token tokens ih =>
    rw [List.flatMap_cons, ← ih]
    cases token <;> rfl

/-- The piece of a path in fragments. -/
def PathPiece.tokens : PathPiece → List Token
  | .fixed text => [.literal (ShellWord.quote text)]
  | .evaluated expression => [.literal "\"", .expression (" " ++ expression ++ " "), .literal "\""]

/-- The words of the hash function behind the paths. -/
def otherWords (needs : List Text) (extraKey : Text) : List Text :=
  needs.map (fun need => "\"" ++ keyReference need ++ "\"")
    ++ (if extraKey.isEmpty then [] else [ShellWord.quote extraKey])

/-- The suffix of a key in fragments. -/
def KeySuffix.tokens : KeySuffix → List Token
  | .nonce => [.literal "$RANDOM$RANDOM"]
  | .hash paths needs extraKey =>
    .literal "$(git_hash_files " :: (paths.flatMap (·.flatMap PathPiece.tokens ++ [.literal " "])
      ++ [.literal (List.intercalate " " ("--".toList :: otherWords needs extraKey)), .literal ")"])

/-- The assignment of a key in fragments. -/
def KeyAssignment.tokens (a : KeyAssignment) : List Token :=
  .literal (keyVariable a.job ++ "=\"" ++ a.job ++ "-") :: (a.suffix.tokens ++ [.literal ("\"\n"
    ++ "echo \"::set-output name=" ++ keyStepOutput a.job ++ "::" ++ keyReference a.job ++ "\"\n")])

/-- The key script in fragments. -/
def scriptTokens (graph : JobGraph) : List Token :=
  .literal (hashFunction ++ "declare -A keys\n") :: (keyAssignments graph).flatMap KeyAssignment.tokens

theorem intercalate_append_cons (separator : Text) (front : List Text) (word : Text) (back : List Text) :
    List.intercalate separator (front ++ word :: back)
      = front.flatMap (· ++ separator) ++ List.intercalate separator (word :: back) := by
  induction front with
  | nil => rfl
  | cons first front ih =>
    rw [List.flatMap_cons, List.append_assoc, ← ih]
    cases front <;> simp [List.intercalate]

section

variable {f : Token → Text} (hf : ∀ text, f (.literal text) = text)

include hf

/-- Whatever becomes of the placeholders, the words are separated by blanks. -/
theorem flatMap_tokens_hash (paths : List (List PathPiece)) (needs : List Text) (extraKey : Text) :
    (KeySuffix.hash paths needs extraKey).tokens.flatMap f = "$(git_hash_files "
      ++ List.intercalate " " (paths.map (fun pieces => (pieces.flatMap PathPiece.tokens).flatMap f)
        ++ "--".toList :: otherWords needs extraKey) ++ ")" := by
  have hpaths : (paths.flatMap (·.flatMap PathPiece.tokens ++ [.literal " "])).flatMap f
      = (paths.map fun pieces => (pieces.flatMap PathPiece.tokens).flatMap f).flatMap (· ++ (" " : Text)) := by
    rw [List.flatMap_assoc, List.flatMap_map]
    refine List.flatMap_congr fun pieces _ => ?_
    rw [List.flatMap_append, List.flatMap_singleton, hf]
  rw [intercalate_append_cons, ← hpaths, KeySuffix.tokens, List.flatMap_cons, List.flatMap_append,
    List.flatMap_cons, List.flatMap_singleton, hf, hf, hf]
  simp only [List.append_assoc]

theorem flatMap_tokens_assignment (a : KeyAssignment) : a.tokens.flatMap f
    = keyVariable a.job ++ "=\"" ++ a.job ++ "-" ++ a.suffix.tokens.flatMap f ++ "\"\n"
      ++ "echo \"::set-output name=" ++ keyStepOutput a.job ++ "::" ++ keyReference a.job ++ "\"\n" := by
  rw [KeyAssignment.tokens, List.flatMap_cons, List.flatMap_append, List.flatMap_singleton, hf, hf]
  simp only [List.append_assoc]

theorem flatMap_scriptTokens (graph : JobGraph) : (scriptTokens graph).flatMap f = hashFunction
    ++ ("declare -A keys\n" ++ (keyAssignments graph).flatMap fun a => a.tokens.flatMap f) := by
  rw [scriptTokens, List.flatMap_cons, hf, List.flatMap_assoc, List.append_assoc]

end

theorem embed_tokens_piece (piece : PathPiece) : embed piece.tokens = piece.toText := by
  cases piece <;> simp [PathPiece.tokens, PathPiece.toText, embed, tokenText, placeholder]

/-- The fragments are those of the key script. -/
theorem embed_scriptTokens (graph : JobGraph) : embed (scriptTokens graph) = keyScript graph := by
  have hf : ∀ text, tokenText (.literal text) = text := fun _ => rfl
  have hsuffix : ∀ suffix : KeySuffix, suffix.tokens.flatMap tokenText = suffix.toText := by
    intro suffix
    cases suffix with
    | nonce => rfl
    | hash paths needs extraKey =>
      have hpath : ∀ pieces : List PathPiece, (pieces.flatMap PathPiece.tokens).flatMap tokenText
          = pieces.flatMap PathPiece.toText := by
        intro pieces
        rw [List.flatMap_assoc]
        exact List.flatMap_congr fun piece _ => embed_tokens_piece piece
      rw [flatMap_tokens_hash hf, List.map_congr_left fun pieces _ => hpath pieces]
      unfold KeySuffix.toText KeySuffix.hashWords otherWords
      simp
  rw [embed, flatMap_scriptTokens hf, keyScript, List.append_assoc]
  refine congrArg (fun text => hashFunction ++ ("declare -A keys\n" ++ text)) ?_
  refine List.flatMap_congr fun a _ => ?_
  rw [flatMap_tokens_assignment hf, hsuffix]
  rfl

/-! ## Reading it with values -/

section

variable {value : Text → Text} (hvalue : ∀ source, ∀ c ∈ value source, IsInert c)

include hvalue

/-- A piece of a path is read as its text, a value like the rest. -/
theorem reads_piece (piece : PathPiece) :
    Shell.Reads .bare (filledWith value piece.tokens) ((piece.textWith value).map .quoted) .bare := by
  cases piece with
  | fixed text =>
    have hquote := reads_quote text
    simpa [filledWith_eq, PathPiece.tokens, valueText, PathPiece.textWith] using hquote
  | evaluated expression =>
    have hinside : Shell.Reads .bare ('"' :: value (" " ++ expression ++ " ") ++ ['"'])
        ((value (" " ++ expression ++ " ")).map .quoted) .bare := by
      by_cases hempty : value (" " ++ expression ++ " ") = []
      · rw [hempty]
        exact reads_openDouble.append reads_closeDouble
      · have hread := (reads_openDouble.append (reads_double hempty (hvalue _))).append reads_closeDouble
        rwa [List.nil_append, List.append_nil] at hread
    simpa [filledWith_eq, PathPiece.tokens, valueText, PathPiece.textWith] using hinside

/-- So is a path. -/
theorem reads_pieces {pieces : List PathPiece} (hne : pieces ≠ []) :
    Shell.Reads .bare (filledWith value (pieces.flatMap PathPiece.tokens))
      ((pieces.flatMap (PathPiece.textWith value)).map .quoted) .bare := by
  induction pieces with
  | nil => exact absurd rfl hne
  | cons piece rest ih =>
    have hpiece := reads_piece hvalue piece
    rw [List.flatMap_cons, List.flatMap_cons, List.map_append, filledWith_eq, List.flatMap_append,
      ← filledWith_eq, ← filledWith_eq]
    cases rest with
    | nil => simpa [filledWith_eq] using hpiece
    | cons next rest => exact hpiece.append (ih (List.cons_ne_nil next rest))

/-- The suffix refers to jobs with names, and no path of it is empty. -/
def KeySuffix.IsReadable : KeySuffix → Prop
  | .nonce => True
  | .hash paths needs _ => (∀ pieces ∈ paths, pieces ≠ []) ∧ ∀ need ∈ needs, IsName need

theorem reads_suffixTokens {suffix : KeySuffix} (h : suffix.IsReadable) :
    Shell.Reads .double (filledWith value suffix.tokens ++ ['"']) (suffix.wordWith value) .bare := by
  cases suffix with
  | nonce => exact reads_nonce
  | hash paths needs extraKey =>
    obtain ⟨hpaths, hneeds⟩ := h
    have hwords : List.Forall₂ (fun text path => Shell.Reads .bare text (path.map .quoted) .bare)
        (paths.map fun pieces => filledWith value (pieces.flatMap PathPiece.tokens))
        (paths.map (·.flatMap (PathPiece.textWith value))) := by
      rw [List.forall₂_map_left_iff, List.forall₂_map_right_iff, List.forall₂_same]
      exact fun pieces hpieces => reads_pieces hvalue (hpaths pieces hpieces)
    have harguments := readsWords_arguments extraKey hwords hneeds
    rw [List.append_assoc, List.append_assoc, List.singleton_append] at harguments
    have hread := (reads_hash harguments).append reads_closeDouble
    rw [List.append_nil] at hread
    rw [filledWith_eq, flatMap_tokens_hash fun _ => rfl]
    simp only [← filledWith_eq]
    exact hread

theorem readsCommands_assignmentTokens {a : KeyAssignment} (hjob : IsName a.job) (h : a.suffix.IsReadable) :
    ReadsCommands (filledWith value a.tokens) (keyCommandsOf a.job (a.suffix.wordWith value)) := by
  rw [filledWith_eq, flatMap_tokens_assignment fun _ => rfl, ← filledWith_eq]
  exact readsCommands_keyCommandsOf hjob (reads_suffixTokens hvalue h)

/-- The shell reads the script with values as the declaration and two commands for every job. -/
theorem readKeyScript_scriptTokens {graph : JobGraph}
    (h : ∀ a ∈ keyAssignments graph, IsName a.job ∧ a.suffix.IsReadable) :
    readKeyScript (filledWith value (scriptTokens graph)) = some (declareCommand ::
      (keyAssignments graph).flatMap fun a => keyCommandsOf a.job (a.suffix.wordWith value)) := by
  have hassignments := ReadsCommands.flatMap fun a ha =>
    readsCommands_assignmentTokens hvalue (h a ha).1 (h a ha).2
  have hscript : Text.after? hashFunction (filledWith value (scriptTokens graph)) = some ("declare -A keys\n"
      ++ (keyAssignments graph).flatMap fun a => filledWith value a.tokens) := by
    simp only [Text.after?_eq_some, filledWith_eq]
    exact flatMap_scriptTokens (fun _ => rfl) graph
  rw [readKeyScript, hscript]
  exact (readsCommands_declare.append hassignments).readCommands

end

/-! ## The run -/

variable {m : Machine} {s : State} {value : Text → Text}

theorem exists_evalWord_wordWith (value : Text → Text) {keys : List (Text × Text)} (hkeys : s.keys = some keys)
    {suffix : KeySuffix} (h : suffix.IsReadable) : ∃ text hashed drawn,
      evalWord m s (suffix.wordWith value) = some (text, { s with hashed, drawn }) := by
  cases suffix with
  | nonce => exact ⟨_, _, _, evalWord_nonce⟩
  | hash paths needs extraKey => exact ⟨_, _, _, evalWord_hashCommand hkeys h.2 rfl⟩

/-- Each assignment prints one line, and keeps those that have been printed. -/
theorem exists_run_assignments (value : Text → Text) {assignments : List KeyAssignment}
    (h : ∀ a ∈ assignments, IsName a.job ∧ a.suffix.IsReadable) (hdeclared : s.keys.isSome) :
    ∃ s', (assignments.flatMap fun a => keyCommandsOf a.job (a.suffix.wordWith value)).foldlM (runCommand m) s
        = some s' ∧
      (∀ line ∈ s.printed, line ∈ s'.printed) ∧
      ∀ a ∈ assignments, ∃ key, outputLine a.job key ∈ s'.printed := by
  induction assignments generalizing s with
  | nil => exact ⟨s, rfl, fun _ hline => hline, fun _ ha => absurd ha List.not_mem_nil⟩
  | cons a rest ih =>
    obtain ⟨⟨hjob, hreadable⟩, hrest⟩ := List.forall_mem_cons.mp h
    obtain ⟨keys, hkeys⟩ := Option.isSome_iff_exists.mp hdeclared
    obtain ⟨text, hashed, drawn, hsuffix⟩ := exists_evalWord_wordWith (m := m) value hkeys hreadable
    have hfirst := foldlM_keyCommandsOf hjob hkeys hsuffix
    -- the state after the two commands of the first assignment
    set next : State := { s with
      hashed, drawn, keys := some ((a.job, a.job ++ "-" ++ text) :: keys)
      printed := s.printed ++ [outputLine a.job (a.job ++ "-" ++ text)] }
    obtain ⟨s', hrun, hkept, hprinted⟩ := ih (s := next) hrest rfl
    refine ⟨s', ?_, fun line hline => hkept line (List.mem_append_left _ hline), ?_⟩
    · rw [List.flatMap_cons, List.foldlM_append, hfirst]
      exact hrun
    · intro b hb
      rcases List.mem_cons.mp hb with rfl | hb
      · exact ⟨_, hkept _ (List.mem_append_right _ (List.mem_singleton_self _))⟩
      · exact hprinted b hb

/-- The pieces of a path are some text or value. -/
theorem PathPiece.ofPath_ne_nil (path : Text) : PathPiece.ofPath path ≠ [] := by
  unfold PathPiece.ofPath
  cases hscan : scan (Path.normalize path) with
  | error error =>
    simp only [hscan]
    exact List.cons_ne_nil _ _
  | ok tokens =>
    have hembed := embed_scan hscan
    simp only [hscan]
    intro hnone
    refine Path.normalize_ne_nil path (hembed ▸ List.flatMap_eq_nil_iff.mpr fun token htoken => ?_)
    have htokenNone := List.filterMap_eq_nil_iff.mp hnone token htoken
    cases token with
    | literal text =>
      cases text with
      | nil => rfl
      | cons c text => cases htokenNone
    | expression source => cases htokenNone

variable {graph : JobGraph} {passthrough : List Text}

theorem isReadable_ofJob (hbuilt : graph.Built passthrough) (hnames : (graph.jobs.map Job.name).Nodup)
    (hjobs : ∀ job ∈ graph.jobs, IsName job.name) {job : Job} (hjob : job ∈ graph.jobs) :
    (KeySuffix.ofJob graph job.name).IsReadable := by
  unfold KeySuffix.ofJob
  by_cases hforced : graph.isForced job.name = true
  · rw [if_pos hforced]
    trivial
  · rw [if_neg hforced, JobGraph.Built.get?_eq hnames hjob]
    refine ⟨fun pieces hpieces => ?_, fun need hneed => ?_⟩
    · obtain ⟨path, -, rfl⟩ := List.mem_map.mp hpieces
      exact PathPiece.ofPath_ne_nil path
    · obtain ⟨other, hother, rfl⟩ := List.mem_map.mp hneed
      exact hjobs other ((hbuilt.mem_pipelineNeeds hnames hjob).mp hother).1

/-- With any values in the places of the placeholders, the key script runs to its end and makes the key of
every job an output of its step. -/
theorem exists_run_scriptTokens (hbuilt : graph.Built passthrough) (hnames : (graph.jobs.map Job.name).Nodup)
    (hjobs : ∀ job ∈ graph.jobs, IsName job.name) (hvalue : ∀ source, ∀ c ∈ value source, IsInert c)
    (m : Machine) : ∃ s, runKeyScript m (filledWith value (scriptTokens graph)) = some s ∧
      ∀ job ∈ graph.jobs, ∃ key, outputLine job.name key ∈ s.printed := by
  have hreadable : ∀ a ∈ keyAssignments graph, IsName a.job ∧ a.suffix.IsReadable := by
    intro a ha
    obtain ⟨job, hjob, rfl⟩ := List.mem_map.mp ha
    have hmem := hbuilt.mem_topological.mp hjob
    exact ⟨hjobs job hmem, isReadable_ofJob hbuilt hnames hjobs hmem⟩
  obtain ⟨s, hrun, -, hprinted⟩ :=
    exists_run_assignments (m := m) (s := { keys := some [] }) value hreadable rfl
  refine ⟨s, ?_, fun job hjob => ?_⟩
  · rw [runKeyScript, readKeyScript_scriptTokens hvalue hreadable]
    simp only [Option.bind_eq_bind, Option.bind_some]
    rw [List.foldlM_cons, runCommand_declare]
    exact hrun
  · exact hprinted ⟨job.name, KeySuffix.ofJob graph job.name⟩
      (List.mem_map.mpr ⟨job, hbuilt.mem_topological.mpr hjob, rfl⟩)

end CachedWorkflow
