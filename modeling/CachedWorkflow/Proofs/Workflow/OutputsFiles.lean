import CachedWorkflow.Proofs.Shell.Files
import CachedWorkflow.Proofs.Template.JsonText
import CachedWorkflow.Proofs.Workflow.Compile

/-!
# Proofs: outputs files

The scripts around an outputs file. The one that saves the outputs of a job writes the file to the workspace,
from whichever directory it starts in (`writesFile_saveOutputsStep`). The one that reads the files of the
dependencies prints the line that sets an output for each of them, and fails if one is not there
(`readsFiles_readOutputsStep`). It does not go to the workspace first: so it finds the files that have been
restored exactly if it starts there (`passesOn_iff`).
-/

namespace CachedWorkflow

open Shell Template

/-! ## Files -/

/-- The step writes a text to a file of the workspace, from whichever directory it starts in. The text is what
the runner has put in the place of a part of the script. -/
def WritesFile (step : Json) (file : Text) (tokens : List Token) : Prop :=
  ∃ before after, HasScript step (before ++ Template.embed tokens ++ after) ∧
    ∀ content, outputsEnd ∉ content.splitOn '\n' → ∀ r directory files, ∃ s,
      runScript r directory files (before ++ content ++ after) = some s ∧
        s.files = Function.update files (follow r.root file) (some (content ++ ['\n']))

/-- A text as the runner takes it for an output: percent signs and line breaks are encoded. -/
def encoded (text : Text) : Text :=
  Text.replacing '\n' "%0A" (Text.replacing '\r' "%0D" (Text.replacing '%' "%25" text))

/-- The line that makes the contents of a file an output, encoded and without the line breaks at the end. -/
def outputLineOf (output contents : Text) : Text :=
  setOutputText output (encoded (contents.rdropWhile (· = '\n')))

/-- The step reads files of the directory that it starts in, and all that it prints is a line for each of them
that makes its contents an output. If one of them is not there, it fails. -/
def ReadsFiles (step : Json) (read : List (Text × Text)) : Prop :=
  ∃ script, HasScript step script ∧ ∀ r directory files,
    (runScript r directory files script).map Session.printed
      = read.mapM fun pair => (files (follow directory pair.1)).map (outputLineOf pair.2)

/-- The step, in a directory, makes the contents of files outputs, whatever they are, if they have been put into
the workspace. -/
def PassesOn (r : Runner) (step : Json) (read : List (Text × Text)) (directory : Place) : Prop :=
  ∃ script, HasScript step script ∧ ∀ (contents : Text → Text) (files : Place → Option Text),
    (∀ pair ∈ read, files (follow r.root pair.1) = some (contents pair.1)) →
    ∃ s, runScript r directory files script = some s ∧
      s.printed = read.map fun pair => outputLineOf pair.2 (contents pair.1)

/-- The outputs files of jobs, each with the name of the output that it is read for. -/
def outputsFiles (jobs : List Job) : List (Text × Text) :=
  (jobs.filter (·.settings.outputs.isSome)).map fun job => (outputsFile job.name, job.name)

/-! ## Directories -/

/-- The directory that a job or a workflow sets for the scripts in it. -/
def defaultDirectory? (object : Object) : Option Json :=
  (object.get? "defaults").bind (·.at? [.member "run", .member "working-directory"])

/-- The directory of the scripts of a job: the one that it sets, or the one that its workflow sets, or the
workspace. -/
def jobDirectory (r : Runner) (workflow job : Object) : Place :=
  match (defaultDirectory? job).or (defaultDirectory? workflow) with
  | some (.string path) => follow r.root (r.evaluate path)
  | _ => r.root

/-- The directory that the script of a step of a job starts in. -/
def stepDirectory (r : Runner) (workflow job : Object) (step : Json) : Place :=
  match step.member? "working-directory" with
  | some (.string path) => follow r.root (r.evaluate path)
  | _ => jobDirectory r workflow job

/-- Without a directory of its own a step starts in that of the job, which depends on the defaults only. -/
theorem stepDirectory_eq {r : Runner} {workflow workflow' job job' : Object} {step : Json}
    (hworkflow : workflow'.get? "defaults" = workflow.get? "defaults")
    (hjob : job'.get? "defaults" = job.get? "defaults") (hstep : step.member? "working-directory" = none) :
    stepDirectory r workflow' job' step = jobDirectory r workflow job := by
  rw [stepDirectory, hstep, jobDirectory, jobDirectory, defaultDirectory?, defaultDirectory?, hworkflow, hjob,
    ← defaultDirectory?, ← defaultDirectory?]

theorem HasScript.inj {step : Json} {script script' : Text} (h : HasScript step script)
    (h' : HasScript step script') : script = script' :=
  Json.string.inj (Option.some.inj (h.run.symm.trans h'.run))

theorem mapM_eq_map_of_forall {α β : Type} {f : α → Option β} {g : α → β} {l : List α}
    (h : ∀ a ∈ l, f a = some (g a)) : l.mapM f = some (l.map g) := by
  induction l with
  | nil => rfl
  | cons a l ih =>
    obtain ⟨ha, hl⟩ := List.forall_mem_cons.mp h
    rw [List.mapM_cons, ha, ih hl]
    rfl

/-- Files of the workspace are made outputs in the workspace only. -/
theorem passesOn_iff {r : Runner} {step : Json} {read : List (Text × Text)} {directory : Place}
    (h : ReadsFiles step read) (hnames : ∀ pair ∈ read, IsFileName pair.1) (hne : read ≠ []) :
    PassesOn r step read directory ↔ directory = r.root := by
  obtain ⟨script, hscript, hprinted⟩ := h
  constructor
  · rintro ⟨script', hscript', hpasses⟩
    obtain rfl := hscript.inj hscript'
    -- nothing but the files themselves is in the workspace
    let files : Place → Option Text := fun place =>
      if ∃ pair ∈ read, follow r.root pair.1 = place then some [] else none
    obtain ⟨s, hrun, -⟩ := hpasses (fun _ => []) files fun pair hpair => if_pos ⟨pair, hpair, rfl⟩
    obtain ⟨first, rest, rfl⟩ := List.exists_cons_of_ne_nil hne
    have hread := hprinted r directory files
    rw [hrun, Option.map_some, List.mapM_cons] at hread
    obtain ⟨line, hline, -⟩ := Option.bind_eq_some_iff.mp hread.symm
    obtain ⟨contents, hcontents, -⟩ := Option.map_eq_some_iff.mp hline
    have hthere : ∃ pair ∈ first :: rest, follow r.root pair.1 = follow directory first.1 := by
      by_contra hnot
      rw [show files (follow directory first.1) = none from if_neg hnot] at hcontents
      cases hcontents
    obtain ⟨pair, hpair, hsame⟩ := hthere
    exact ((follow_inj (hnames pair hpair) (hnames first List.mem_cons_self)).mp hsame).1.symm
  · rintro rfl
    refine ⟨script, hscript, fun contents files hfiles => ?_⟩
    have hread := hprinted r r.root files
    rw [mapM_eq_map_of_forall (g := fun pair => outputLineOf pair.2 (contents pair.1)) fun pair hpair => by
      rw [hfiles pair hpair, Option.map_some]] at hread
    exact Option.map_eq_some_iff.mp hread

/-! ## Contents -/

namespace Json

theorem newline_not_mem_escapedChar (c : Char) : '\n' ∉ escapedChar c := by
  by_cases hshort : c ∈ shortEscapes
  · have hall : ∀ c ∈ shortEscapes, '\n' ∉ escapedChar c := by decide
    exact hall c hshort
  rw [escapedChar_of_not_mem hshort]
  by_cases hcontrol : c.toNat < 0x20
  · have hhex : ∀ n, n < 0x20 → '\n' ∉ ("\\u" : Text) ++ hexDigits false 4 n := by decide
    rw [if_pos hcontrol]
    exact hhex _ hcontrol
  · rw [if_neg hcontrol, List.mem_singleton]
    rintro rfl
    exact hcontrol (by decide)

theorem newline_not_mem_stringLiteral (text : Text) : '\n' ∉ stringLiteral text := by
  have hescaped : '\n' ∉ text.flatMap escapedChar := by
    rw [List.mem_flatMap]
    rintro ⟨c, -, hc⟩
    exact newline_not_mem_escapedChar c hc
  unfold stringLiteral
  simp only [List.mem_append, not_or]
  exact ⟨⟨by decide, hescaped⟩, by decide⟩

/-- Parts on one line are put together on one line. -/
theorem newline_not_mem_enclosed {first last : Text} (hfirst : '\n' ∉ first) (hlast : '\n' ∉ last)
    {parts : List Text} (h : ∀ part ∈ parts, '\n' ∉ part) :
    '\n' ∉ first ++ List.intercalate "," parts ++ last := by
  have hcomma : ∀ c ∈ ("," : Text), c ≠ '\n' := by decide
  have hparts := forall_mem_intercalate (p := fun c => c ≠ '\n') hcomma fun part hpart c hc heq =>
    h part hpart (heq ▸ hc)
  simp only [List.mem_append, not_or]
  exact ⟨⟨hfirst, fun hmem => hparts _ hmem rfl⟩, hlast⟩

mutual

/-- JSON text is one line. -/
theorem newline_not_mem_toText : ∀ value : Json, '\n' ∉ value.toText
  | .null => by decide
  | .bool true => by decide
  | .bool false => by decide
  | .number value => by
    rw [toText]
    exact fun hmem => ne_of_isConstantChar (isConstantChar_of_mem_number _ hmem) (by decide) rfl
  | .string text => by
    rw [toText]
    exact newline_not_mem_stringLiteral text
  | .array items => by
    rw [toText]
    exact newline_not_mem_enclosed (by decide) (by decide) (newline_not_mem_itemTexts items)
  | .object fields => by
    rw [toText]
    exact newline_not_mem_enclosed (by decide) (by decide) (newline_not_mem_fieldTexts fields)

theorem newline_not_mem_itemTexts : ∀ items : List Json, ∀ part ∈ itemTexts items, '\n' ∉ part
  | [] => List.forall_mem_nil _
  | item :: rest => by
    rw [itemTexts, List.forall_mem_cons]
    exact ⟨newline_not_mem_toText item, newline_not_mem_itemTexts rest⟩

theorem newline_not_mem_fieldTexts : ∀ fields : List (Text × Json), ∀ part ∈ fieldTexts fields, '\n' ∉ part
  | [] => List.forall_mem_nil _
  | (key, value) :: rest => by
    rw [fieldTexts, List.forall_mem_cons]
    refine ⟨?_, newline_not_mem_fieldTexts rest⟩
    simp only [List.mem_append, not_or]
    exact ⟨⟨newline_not_mem_stringLiteral key, by decide⟩, newline_not_mem_toText value⟩

end

/-- No JSON text is the line that ends the contents of an outputs file. -/
theorem toText_ne_outputsEnd (value : Json) : value.toText ≠ outputsEnd := by
  intro heq
  cases value with
  | null => cases heq
  | bool value => cases value <;> cases heq
  | number value =>
    have hmem : '_' ∈ value.toText := by
      rw [toText] at heq
      rw [heq]
      decide
    exact ne_of_isConstantChar (isConstantChar_of_mem_number _ hmem) (by decide) rfl
  | string text => cases heq
  | array items => cases heq
  | object fields => cases heq

/-- JSON text can be written to an outputs file. -/
theorem outputsEnd_not_mem_splitOn_toText (value : Json) : outputsEnd ∉ value.toText.splitOn '\n' := by
  rw [List.splitOn_eq_singleton (newline_not_mem_toText value), List.mem_singleton]
  exact (toText_ne_outputsEnd value).symm

end Json

/-- What is read of an outputs file with JSON text is this text. -/
theorem outputLineOf_toText (output : Text) (value : Json) :
    outputLineOf output (value.toText ++ ['\n']) = setOutputText output (encoded value.toText) := by
  have hend : ∀ h : value.toText ≠ [], ¬ decide (value.toText.getLast h = '\n') = true := by
    intro h heq
    exact value.newline_not_mem_toText (of_decide_eq_true heq ▸ List.getLast_mem h)
  rw [outputLineOf, List.rdropWhile_concat_pos _ _ _ (by decide), List.rdropWhile_eq_self_iff.mpr hend]

/-! ## Outputs files -/

variable {job : Text}

theorem outputsFile_ne {text : Text} (h : text.head? ≠ some '_') : outputsFile job ≠ text := by
  rintro rfl
  exact h rfl

theorem not_mem_outputsFile (h : IsName job) {c : Char} (hc : isJobIdChar c = false) (hdot : c ≠ '.') :
    c ∉ outputsFile job := by
  have hjob : c ∉ job := fun hmem => by
    rw [h.chars c hmem] at hc
    cases hc
  have hlead : ∀ d ∈ ("__cixx_outputs_" : Text), isJobIdChar d = true := by decide
  have hend : ∀ d ∈ (".json" : Text), isJobIdChar d = true ∨ d = '.' := by decide
  unfold outputsFile
  simp only [List.mem_append, not_or]
  refine ⟨⟨fun hmem => ?_, hjob⟩, fun hmem => ?_⟩
  · rw [hlead c hmem] at hc
    cases hc
  · rw [(hend c hmem).resolve_right hdot] at hc
    cases hc

theorem isFileName_outputsFile (h : IsName job) : IsFileName (outputsFile job) where
  ne_nil := outputsFile_ne (by decide)
  ne_dot := outputsFile_ne (by decide)
  ne_up := outputsFile_ne (by decide)
  not_mem := not_mem_outputsFile h (by decide) (by decide)

theorem newline_not_mem_quote (h : IsName job) : '\n' ∉ ShellWord.quote (outputsFile job) := by
  have hfile : '\n' ∉ outputsFile job := not_mem_outputsFile h (by decide) (by decide)
  have hescaped : '\n' ∉ ("'\\''" : Text) := by decide
  unfold ShellWord.quote
  simp only [List.mem_append, not_or]
  refine ⟨⟨by decide, fun hmem => ?_⟩, by decide⟩
  obtain ⟨c, hc, hreplaced⟩ := List.mem_flatMap.mp hmem
  split at hreplaced
  · exact hescaped hreplaced
  · exact hfile (List.mem_singleton.mp hreplaced ▸ hc)

/-! ## The script that saves outputs -/

theorem flatMap_splitOn {lines : List Text} (h : ∀ line ∈ lines, '\n' ∉ line) :
    lines.flatMap (·.splitOn '\n') = lines := by
  induction lines with
  | nil => rfl
  | cons line lines ih =>
    obtain ⟨hline, hlines⟩ := List.forall_mem_cons.mp h
    rw [List.flatMap_cons, List.splitOn_eq_singleton hline, ih hlines, List.singleton_append]

/-- The script goes to the workspace and writes the contents there. -/
theorem exists_runScript_save (hjob : IsName job) {content : Text} (hcontent : outputsEnd ∉ content.splitOn '\n')
    (r : Runner) (directory : Place) (files : Place → Option Text) : ∃ s,
    runScript r directory files (scriptOf ["cd \"$GITHUB_WORKSPACE\"",
      "cat <<'" ++ outputsEnd ++ "' > " ++ ShellWord.quote (outputsFile job), content, outputsEnd]) = some s ∧
    s.files = Function.update files (follow r.root (outputsFile job)) (some (content ++ ['\n'])) := by
  have hfirst : ("cd \"$GITHUB_WORKSPACE\"" : Text).splitOn '\n' = [("cd \"$GITHUB_WORKSPACE\"" : Text)] :=
    List.splitOn_eq_singleton (by decide)
  have hlast : outputsEnd.splitOn '\n' = [outputsEnd] := List.splitOn_eq_singleton (by decide)
  have hwrite : '\n' ∉ "cat <<'" ++ outputsEnd ++ "' > " ++ ShellWord.quote (outputsFile job) := by
    simp only [List.mem_append, not_or]
    exact ⟨⟨⟨by decide, by decide⟩, by decide⟩, newline_not_mem_quote hjob⟩
  have hlines : ∀ write : Text, '\n' ∉ write →
      (scriptOf ["cd \"$GITHUB_WORKSPACE\"", write, content, outputsEnd]).splitOn '\n'
        = ("cd \"$GITHUB_WORKSPACE\"" : Text) :: (write :: content.splitOn '\n' ++ [outputsEnd] ++ [([] : Text)]) := by
    intro write hwrite
    rw [splitOn_scriptOf]
    simp only [List.flatMap_cons, List.flatMap_nil, hfirst, hlast, List.splitOn_eq_singleton hwrite,
      List.append_assoc, List.cons_append, List.nil_append]
  rw [runScript, hlines _ hwrite, List.foldlM_cons, runLine_workspace rfl]
  simp only [Option.bind_eq_bind, Option.bind_some]
  rw [List.foldlM_append, foldlM_write (by decide) hcontent _ rfl]
  simp only [Option.bind_eq_bind, Option.bind_some, List.foldlM_cons, runLine_nil]
  exact ⟨_, rfl, rfl⟩

/-- The outputs of a job are written to its outputs file. -/
theorem writesFile_saveOutputsStep (hjob : IsName job) {outputs step : Json} {tokens : List Token}
    (htokens : outputs.toJsonTemplate = .ok (Template.embed tokens))
    (h : saveOutputsStep job outputs = .ok step) : WritesFile step (outputsFile job) tokens := by
  let write : Text := "cat <<'" ++ outputsEnd ++ "' > " ++ ShellWord.quote (outputsFile job)
  have hscript : ∀ content : Text, scriptOf ["cd \"$GITHUB_WORKSPACE\"", write] ++ content
      ++ ('\n' :: scriptOf [outputsEnd]) = scriptOf ["cd \"$GITHUB_WORKSPACE\"", write, content, outputsEnd] := by
    intro content
    simp [scriptOf]
  obtain ⟨template, htemplate, h⟩ := bind_eq_ok.mp h
  obtain rfl := Except.ok.inj (htokens.symm.trans htemplate)
  cases h
  refine ⟨scriptOf ["cd \"$GITHUB_WORKSPACE\"", write], '\n' :: scriptOf [outputsEnd], ⟨rfl, ?_, rfl⟩,
    fun content hcontent r directory files => ?_⟩
  · rw [hscript]
    rfl
  · rw [hscript]
    exact exists_runScript_save hjob hcontent r directory files

/-! ## The script that reads outputs -/

variable {r : Runner} {s : Session}

theorem foldlM_readOutputsLines (hjob : IsName job) (hs : s.document = none) :
    (readOutputsLines job).foldlM (runLine r) s
      = (s.files (follow s.directory (outputsFile job))).map fun contents =>
        { s with
          output := encoded (contents.rdropWhile (· = '\n'))
          printed := s.printed ++ [outputLineOf job contents] } := by
  have hinert : ∀ c ∈ job, IsInert c := fun c hc => isInert_of_isJobIdChar (hjob.chars c hc)
  have hdash : (outputsFile job).head? ≠ some '-' := by
    intro h
    cases h
  have hpercent : ∀ output, runLine r { s with output } "output=\"$\x7boutput//'%'/'%25'\x7d\""
      = some { s with output := Text.replacing '%' "%25" output } := fun _ => runLine_replacement hs rfl rfl
  have hreturn : ∀ output, runLine r { s with output } "output=\"$\x7boutput//$'\\r'/'%0D'\x7d\""
      = some { s with output := Text.replacing '\r' "%0D" output } := fun _ => runLine_replacement hs rfl rfl
  have hnewline : ∀ output, runLine r { s with output } "output=\"$\x7boutput//$'\\n'/'%0A'\x7d\""
      = some { s with output := Text.replacing '\n' "%0A" output } := fun _ => runLine_replacement hs rfl rfl
  have hset : ∀ output, runLine r { s with output } ("echo \"::set-output name=" ++ job ++ "::$output\"")
      = some { s with output, printed := s.printed ++ [setOutputText job output] } := fun _ =>
    runLine_setOutput hinert hs
  rw [readOutputsLines, List.foldlM_cons, runLine_read hdash hs]
  cases s.files (follow s.directory (outputsFile job)) with
  | none => rfl
  | some contents =>
    simp only [Option.map_some, Option.bind_eq_bind, Option.bind_some, List.foldlM_cons, List.foldlM_nil]
    rw [hpercent, Option.bind_some, hreturn, Option.bind_some, hnewline, Option.bind_some, hset]
    rfl

theorem newline_not_mem_readOutputsLines (hjob : IsName job) : ∀ line ∈ readOutputsLines job, '\n' ∉ line := by
  have hname : '\n' ∉ job := fun hmem => by
    have hchar := hjob.chars '\n' hmem
    cases hchar
  have hread : '\n' ∉ "output=\"$(cat " ++ ShellWord.quote (outputsFile job) ++ ")\"" := by
    simp only [List.mem_append, not_or]
    exact ⟨⟨by decide, newline_not_mem_quote hjob⟩, by decide⟩
  have hset : '\n' ∉ "echo \"::set-output name=" ++ job ++ "::$output\"" := by
    simp only [List.mem_append, not_or]
    exact ⟨⟨by decide, hname⟩, by decide⟩
  simp only [readOutputsLines, List.forall_mem_cons]
  exact ⟨hread, by decide, by decide, by decide, hset, List.forall_mem_nil _⟩

/-- The lines for several jobs print a line for each of them, if all files are there. -/
theorem exists_foldlM_readOutputsLines {jobs : List Text} (hjobs : ∀ job ∈ jobs, IsName job)
    (hs : s.document = none) : ∃ output : List Text → Text,
    (jobs.flatMap readOutputsLines).foldlM (runLine r) s
      = (jobs.mapM fun job => (s.files (follow s.directory (outputsFile job))).map (outputLineOf job)).map
        fun lines => { s with output := output lines, printed := s.printed ++ lines } := by
  induction jobs generalizing s with
  | nil =>
    refine ⟨fun _ => s.output, ?_⟩
    simp
  | cons job jobs ih =>
    obtain ⟨hjob, hrest⟩ := List.forall_mem_cons.mp hjobs
    rw [List.flatMap_cons, List.foldlM_append, foldlM_readOutputsLines hjob hs, List.mapM_cons]
    cases s.files (follow s.directory (outputsFile job)) with
    | none => exact ⟨fun _ => [], rfl⟩
    | some contents =>
      obtain ⟨output, houtput⟩ := @ih { s with
        output := encoded (contents.rdropWhile (· = '\n'))
        printed := s.printed ++ [outputLineOf job contents] } hrest hs
      refine ⟨fun lines => output lines.tail, ?_⟩
      simp only [Option.map_some, Option.bind_eq_bind, Option.bind_some]
      rw [houtput]
      cases jobs.mapM fun job => (s.files (follow s.directory (outputsFile job))).map (outputLineOf job) with
      | none => rfl
      | some lines => simp

/-- The outputs of each dependency that has some are read. -/
theorem readsFiles_readOutputsStep {config : Configuration} {dependencies : List Job} {step : Json}
    (hnames : ∀ dependency ∈ dependencies, IsName dependency.name)
    (h : readOutputsStep config dependencies = some step) :
    ReadsFiles step (outputsFiles dependencies) := by
  let jobs := (dependencies.filter (·.settings.outputs.isSome)).map Job.name
  have hjobs : ∀ job ∈ jobs, IsName job := by
    intro job hjob
    obtain ⟨dependency, hdependency, rfl⟩ := List.mem_map.mp hjob
    exact hnames dependency (List.mem_filter.mp hdependency).1
  have hlines : ∀ line ∈ jobs.flatMap readOutputsLines, '\n' ∉ line := by
    intro line hline
    obtain ⟨job, hjob, hline⟩ := List.mem_flatMap.mp hline
    exact newline_not_mem_readOutputsLines (hjobs job hjob) line hline
  unfold readOutputsStep at h
  dsimp only at h
  split at h
  · cases h
  obtain rfl := Option.some.inj h
  refine ⟨scriptOf (jobs.flatMap readOutputsLines), ⟨rfl, ?_, rfl⟩, fun r directory files => ?_⟩
  · rw [List.flatMap_map]
    rfl
  · have hread : (outputsFiles dependencies).mapM
        (fun pair => (files (follow directory pair.1)).map (outputLineOf pair.2))
        = jobs.mapM fun job => (files (follow directory (outputsFile job))).map (outputLineOf job) := by
      rw [outputsFiles, List.mapM_map, List.mapM_map]
      rfl
    obtain ⟨output, hrun⟩ := @exists_foldlM_readOutputsLines r { directory, files } jobs hjobs rfl
    rw [runScript, splitOn_scriptOf, flatMap_splitOn hlines, List.foldlM_append, hread, hrun]
    cases jobs.mapM fun job => (files (follow directory (outputsFile job))).map (outputLineOf job) with
    | none => rfl
    | some lines => rfl

end CachedWorkflow
