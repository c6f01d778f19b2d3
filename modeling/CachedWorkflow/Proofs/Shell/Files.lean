import CachedWorkflow.Proofs.Path.Action
import CachedWorkflow.Proofs.Shell.Running
import Mathlib.Data.List.DropRight
import Mathlib.Logic.Function.Basic

/-!
# Shell scripts that work with files

What the scripts do that write and read the outputs files. A script runs line by line in a directory: it goes to
another one, writes the lines of a here-document to a file, reads a file, replaces characters of what has been
read, and prints lines. The name of a file leads from the directory to a place (`follow`). As with key scripts,
where a script uses anything else it has no meaning here, and neither has one that reads a file that is not
there.
-/

namespace CachedWorkflow.Shell

/-! ## Places -/

/-- A place in the file system: the names on the way from the root. -/
abbrev Place := List Text

/-- Where a path leads from a place. -/
def follow (place : Place) (path : Text) : Place :=
  (path.splitOn '/').foldl Path.enter (if path.head? = some '/' then [] else place)

/-- The machine that runs the steps of a job. -/
structure Runner where
  /-- The path of the workspace. -/
  workspace : Text
  absolute : workspace.head? = some '/'
  /-- What a text of the workflow is once its placeholders have their values. -/
  evaluate : Text → Text

/-- The place of the workspace. -/
def Runner.root (r : Runner) : Place := follow [] r.workspace

/-! ## Lines -/

/-- A file that is being written. -/
structure HereDocument where
  /-- The line that ends it. -/
  mark : Text
  place : Place
  lines : List Text := []

/-- A script on its way. -/
structure Session where
  directory : Place
  files : Place → Option Text
  /-- The value of the variable that holds what has been read. -/
  output : Text := []
  printed : List Text := []
  document : Option HereDocument := none

/-- The character that a piece stands for by itself. -/
def plainChar? : Piece → Option Char
  | .bare c => if isJobIdChar c then some c else none
  | .quoted c => some c
  | .parameter _ | .substitution _ => none

/-- The text of a word that stands for itself. -/
def plainText? (word : Word) : Option Text := word.mapM plainChar?

/-- The output of a command: the contents of a file, without the line breaks at the end. -/
def readFile (s : Session) : List Word → Option Text
  | [name, file] => do
    let name ← plainText? name
    let path ← plainText? file
    -- a path that begins with a dash would be an option
    guard (name = "cat" ∧ path.head? ≠ some '-')
    let contents ← s.files (follow s.directory path)
    some (contents.rdropWhile (· = '\n'))
  | _ => none

/-- The text that a piece stands for. -/
def expandPiece (r : Runner) (s : Session) : Piece → Option Text
  | .parameter name =>
    if name = "GITHUB_WORKSPACE" then some r.workspace
    else if name = "output" then some s.output
    else none
  | .substitution words => readFile s words
  | piece => (plainChar? piece).map fun c => [c]

/-- The text that a word stands for. -/
def expand (r : Runner) (s : Session) (word : Word) : Option Text :=
  (word.mapM (expandPiece r s)).map List.flatten

/-- Runs a command: it sets the variable, goes to a directory, or prints a line. -/
def runWords (r : Runner) (s : Session) : List Word → Option Session
  | [word] => do
    let value ← Text.after? "output=" (bareLead word).1
    let text ← expand r s (value.map .bare ++ (bareLead word).2)
    some { s with output := text }
  | [name, argument] => do
    let name ← plainText? name
    let text ← expand r s argument
    -- a text that begins with a dash would be an option
    guard (text.head? ≠ some '-')
    if name = "cd" then some { s with directory := follow s.directory text }
    else if name = "echo" then some { s with printed := s.printed ++ [text] }
    else none
  | _ => none

/-- The end mark and the file of a here-document that a line begins. The mark is in quotes, so the lines of the
document are taken as they are. -/
def hereDocument? (line : Text) : Option (Text × Text) := do
  let rest ← Text.after? "cat <<'" line
  let word ← Text.after? "' > " (rest.dropWhile (· ≠ '\''))
  let commands ← readCommands (word ++ ['\n'])
  match commands with
  | [[word]] => (plainText? word).map fun path => (rest.takeWhile (· ≠ '\''), path)
  | _ => none

/-- A character in single quotes, or one that an escape stands for, and what comes after it. -/
def quotedChar? : Text → Option (Char × Text)
  | '\'' :: c :: '\'' :: rest => if c = '\'' then none else some (c, rest)
  | '$' :: '\'' :: '\\' :: c :: '\'' :: rest =>
    if c = 'r' then some ('\r', rest) else if c = 'n' then some ('\n', rest) else none
  | _ => none

/-- The character and the text of a line that puts the text in the place of all these characters of what has
been read. -/
def replacement? (line : Text) : Option (Char × Text) := do
  let rest ← Text.after? "output=\"$\x7boutput//" line
  let (c, rest) ← quotedChar? rest
  let rest ← Text.after? "/'" rest
  guard (rest.dropWhile (· ≠ '\'') = "'\x7d\"")
  some (c, rest.takeWhile (· ≠ '\''))

/-- Runs a line outside of here-documents. -/
def runCommandLine (r : Runner) (s : Session) (line : Text) : Option Session :=
  match hereDocument? line, replacement? line with
  | some (mark, path), _ => some { s with document := some { mark, place := follow s.directory path } }
  | none, some (c, text) => some { s with output := Text.replacing c text s.output }
  | none, none => do
    let commands ← readCommands (line ++ ['\n'])
    commands.foldlM (runWords r) s

/-- Runs a line: one of a here-document is kept until its end mark, when all are written to the file. -/
def runLine (r : Runner) (s : Session) (line : Text) : Option Session :=
  match s.document with
  | none => runCommandLine r s line
  | some document =>
    if line = document.mark then
      some { s with
        files := Function.update s.files document.place (some (scriptOf document.lines))
        document := none }
    else some { s with document := some { document with lines := document.lines ++ [line] } }

/-- Runs a script in a directory. -/
def runScript (r : Runner) (directory : Place) (files : Place → Option Text) (script : Text) :
    Option Session := do
  let s ← (script.splitOn '\n').foldlM (runLine r) { directory, files }
  if s.document.isSome then none else some s

/-! ## Lines of a text -/

/-- The lines of a script are those of each of its parts, and there is nothing behind the last line break. -/
theorem splitOn_scriptOf (parts : List Text) :
    (scriptOf parts).splitOn '\n' = parts.flatMap (·.splitOn '\n') ++ [[]] := by
  induction parts with
  | nil => rfl
  | cons part parts ih =>
    rw [scriptOf, List.flatMap_cons, ← scriptOf, List.append_assoc, List.singleton_append,
      List.splitOn_append_cons_self, ih, List.flatMap_cons, List.append_assoc]

theorem scriptOf_eq_intercalate {lines : List Text} (h : lines ≠ []) :
    scriptOf lines = List.intercalate ['\n'] lines ++ ['\n'] := by
  induction lines with
  | nil => exact absurd rfl h
  | cons line lines ih =>
    rw [scriptOf, List.flatMap_cons, ← scriptOf]
    cases lines with
    | nil => simp [scriptOf]
    | cons next rest =>
      rw [ih (List.cons_ne_nil _ _), List.intercalate_cons_cons]
      simp

/-- The lines of a text, each with its line break. -/
theorem scriptOf_splitOn (text : Text) : scriptOf (text.splitOn '\n') = text ++ ['\n'] := by
  rw [scriptOf_eq_intercalate (List.splitOn_ne_nil '\n' text), List.intercalate_splitOn]

/-! ## Places of files -/

variable {r : Runner} {s s' : Session}

theorem follow_name (place : Place) {name : Text} (h : IsFileName name) : follow place name = place ++ [name] := by
  have hhead : name.head? ≠ some '/' := fun hhead => h.not_mem (List.mem_of_head? hhead)
  rw [follow, List.splitOn_eq_singleton h.not_mem, if_neg hhead, List.foldl_cons, List.foldl_nil,
    Path.enter_name h.ne_nil h.ne_dot h.ne_up]

/-- The files of two names in two directories are the same only if these are. -/
theorem follow_inj {place place' : Place} {name name' : Text} (h : IsFileName name) (h' : IsFileName name') :
    follow place name = follow place' name' ↔ place = place' ∧ name = name' := by
  rw [follow_name place h, follow_name place' h', List.append_singleton_inj]

/-- The workspace is found from everywhere. -/
theorem follow_workspace (place : Place) : follow place r.workspace = r.root := by
  rw [Runner.root, follow, follow, if_pos r.absolute, if_pos r.absolute]

/-! ## Words -/

theorem plainText?_quoted (text : Text) : plainText? (text.map .quoted) = some text := by
  induction text with
  | nil => rfl
  | cons c text ih =>
    rw [plainText?] at ih ⊢
    rw [List.map_cons, List.mapM_cons, ih]
    rfl

theorem expand_append {v w : Word} {a b : Text} (hv : expand r s v = some a) (hw : expand r s w = some b) :
    expand r s (v ++ w) = some (a ++ b) := by
  obtain ⟨texts, htexts, rfl⟩ := Option.map_eq_some_iff.mp hv
  obtain ⟨texts', htexts', rfl⟩ := Option.map_eq_some_iff.mp hw
  rw [expand, List.mapM_append, htexts, htexts']
  simp

theorem expand_quoted (text : Text) : expand r s (text.map .quoted) = some text := by
  induction text with
  | nil => rfl
  | cons c text ih =>
    have hc : expand r s [.quoted c] = some [c] := rfl
    exact expand_append hc ih

/-- A word that is one piece is what the piece stands for. -/
theorem expand_singleton (piece : Piece) : expand r s [piece] = expandPiece r s piece := by
  rw [expand, List.mapM_cons, List.mapM_nil]
  cases expandPiece r s piece with
  | none => rfl
  | some text => exact congrArg some (List.append_nil text)

/-! ## Lines -/

theorem runLine_of_none {line : Text} (hs : s.document = none) : runLine r s line = runCommandLine r s line := by
  rw [runLine, hs]

/-- A line that is one command is run as this command. -/
theorem runLine_words {line : Text} {words : List Word} (hs : s.document = none)
    (hdocument : hereDocument? line = none) (hreplacement : replacement? line = none) (hne : words ≠ [])
    (h : ReadsWords line words) : runLine r s line = runWords r s words := by
  rw [runLine_of_none hs, runCommandLine, hdocument, hreplacement, (h.line hne).readCommands]
  exact bind_pure (runWords r s words)

/-- Nothing happens on an empty line. -/
theorem runLine_nil (hs : s.document = none) : runLine r s [] = some s := by
  rw [runLine_of_none hs]
  rfl

theorem runWords_cd {argument : Word} {path : Text} (hpath : expand r s argument = some path)
    (hdash : path.head? ≠ some '-') :
    runWords r s [("cd" : Text).map .bare, argument] = some { s with directory := follow s.directory path } := by
  have hname : plainText? (("cd" : Text).map .bare) = some ("cd" : Text) := rfl
  rw [runWords, hname, hpath]
  simp only [Option.bind_eq_bind, Option.bind_some, guard, if_pos hdash]
  rfl

theorem runWords_echo {argument : Word} {text : Text} (htext : expand r s argument = some text)
    (hdash : text.head? ≠ some '-') :
    runWords r s [("echo" : Text).map .bare, argument] = some { s with printed := s.printed ++ [text] } := by
  have hname : plainText? (("echo" : Text).map .bare) = some ("echo" : Text) := rfl
  rw [runWords, hname, htext]
  simp only [Option.bind_eq_bind, Option.bind_some, guard, if_pos hdash]
  rfl

/-- The script goes to the workspace. -/
theorem runLine_workspace (hs : s.document = none) :
    runLine r s "cd \"$GITHUB_WORKSPACE\"" = some { s with directory := r.root } := by
  have hname : Reads .bare "cd" (("cd" : Text).map .bare) .bare := reads_bare (by decide) (by decide)
  have hvalue : Reads .double ("$GITHUB_WORKSPACE" ++ "\"") [.parameter "GITHUB_WORKSPACE"] .bare :=
    reads_variable rfl (by decide)
  have hwords : ReadsWords "cd \"$GITHUB_WORKSPACE\"" [("cd" : Text).map .bare, [.parameter "GITHUB_WORKSPACE"]] :=
    hname.words.append (reads_openDouble.append hvalue).words
  have hworkspace : expand r s [.parameter "GITHUB_WORKSPACE"] = some r.workspace := expand_singleton _
  have hdash : r.workspace.head? ≠ some '-' := by
    rw [r.absolute]
    decide
  rw [runLine_words hs rfl rfl (List.cons_ne_nil _ _) hwords, runWords_cd hworkspace hdash, follow_workspace]

/-! ## Here-documents -/

theorem takeWhile_quote {text : Text} (h : '\'' ∉ text) (rest : Text) :
    (text ++ '\'' :: rest).takeWhile (· ≠ '\'') = text := by
  rw [List.takeWhile_append_of_pos (p := fun c => c ≠ '\'') fun c hc => decide_eq_true fun heq => h (heq ▸ hc)]
  simp

theorem dropWhile_quote {text : Text} (h : '\'' ∉ text) (rest : Text) :
    (text ++ '\'' :: rest).dropWhile (· ≠ '\'') = '\'' :: rest := by
  rw [List.dropWhile_append_of_pos (p := fun c => c ≠ '\'') fun c hc => decide_eq_true fun heq => h (heq ▸ hc)]
  simp

/-- The line begins a here-document. -/
theorem hereDocument?_quote {mark : Text} (hmark : '\'' ∉ mark) (file : Text) :
    hereDocument? ("cat <<'" ++ mark ++ "' > " ++ ShellWord.quote file) = some (mark, file) := by
  have hline : ("cat <<'" ++ mark ++ "' > " ++ ShellWord.quote file : Text)
      = ("cat <<'" : Text) ++ (mark ++ '\'' :: (" > " ++ ShellWord.quote file)) := by simp
  have hword : readCommands (ShellWord.quote file ++ ['\n']) = some [[file.map .quoted]] :=
    ((reads_quote file).words.line (List.cons_ne_nil _ _)).readCommands
  have hlead : ∀ rest : Text, Text.after? "cat <<'" (("cat <<'" : Text) ++ rest) = some rest := fun rest => rfl
  have hmiddle : ∀ rest : Text, Text.after? "' > " ('\'' :: (" > " ++ rest)) = some rest := fun rest => rfl
  rw [hereDocument?, hline, hlead]
  simp only [Option.bind_eq_bind, Option.bind_some]
  rw [dropWhile_quote hmark, takeWhile_quote hmark, hmiddle]
  simp only [Option.bind_some, hword, plainText?_quoted]
  rfl

/-- The lines of a here-document are kept until its end mark. -/
theorem foldlM_document {document : HereDocument} {lines : List Text} (hmark : document.mark ∉ lines)
    (hs : s.document = some document) : lines.foldlM (runLine r) s
      = some { s with document := some { document with lines := document.lines ++ lines } } := by
  induction lines generalizing s document with
  | nil =>
    rw [List.append_nil]
    exact congrArg some (by rw [← hs])
  | cons line lines ih =>
    obtain ⟨hline, hlines⟩ := not_or.mp fun h => hmark (List.mem_cons.mpr h)
    have hkept : runLine r s line
        = some { s with document := some { document with lines := document.lines ++ [line] } } := by
      rw [runLine, hs]
      exact if_neg (Ne.symm hline)
    rw [List.foldlM_cons, hkept]
    simp only [Option.bind_eq_bind, Option.bind_some]
    rw [@ih _ { document with lines := document.lines ++ [line] } hlines rfl]
    simp

/-- A here-document writes a text to a file, if the text has no line that would end it. -/
theorem foldlM_write {mark content : Text} (hmark : '\'' ∉ mark) (hcontent : mark ∉ content.splitOn '\n')
    (file : Text) (hs : s.document = none) :
    (("cat <<'" ++ mark ++ "' > " ++ ShellWord.quote file) :: content.splitOn '\n' ++ [mark]).foldlM (runLine r) s
      = some { s with
        files := Function.update s.files (follow s.directory file) (some (content ++ ['\n'])) } := by
  have hbegin : runLine r s ("cat <<'" ++ mark ++ "' > " ++ ShellWord.quote file)
      = some { s with document := some { mark, place := follow s.directory file } } := by
    rw [runLine_of_none hs, runCommandLine, hereDocument?_quote hmark]
  rw [List.cons_append, List.foldlM_cons, hbegin]
  simp only [Option.bind_eq_bind, Option.bind_some]
  rw [List.foldlM_append, @foldlM_document _ _ { mark, place := follow s.directory file } _ hcontent rfl]
  simp only [Option.bind_eq_bind, Option.bind_some, List.foldlM_cons, List.foldlM_nil, runLine, List.nil_append,
    if_pos, scriptOf_splitOn, pure]
  exact congrArg some (by rw [← hs])

/-! ## Reading a file -/

theorem readFile_cat {file : Text} (hfile : file.head? ≠ some '-') :
    readFile s [("cat" : Text).map .bare, file.map .quoted]
      = (s.files (follow s.directory file)).map fun contents => contents.rdropWhile (· = '\n') := by
  have hname : plainText? (("cat" : Text).map .bare) = some ("cat" : Text) := rfl
  rw [readFile, hname, plainText?_quoted, Option.map_eq_bind]
  simp only [guard, ne_eq, hfile, not_false_eq_true, and_true, if_true, Option.pure_def, Option.bind_eq_bind,
    Option.bind_some]
  rfl

/-- A file is read, if it is there. -/
theorem runLine_read {file : Text} (hfile : file.head? ≠ some '-') (hs : s.document = none) :
    runLine r s ("output=\"$(cat " ++ ShellWord.quote file ++ ")\"")
      = (s.files (follow s.directory file)).map fun contents =>
        { s with output := contents.rdropWhile (· = '\n') } := by
  have hname : Reads .bare "cat" (("cat" : Text).map .bare) .bare := reads_bare (by decide) (by decide)
  have hvariable : Reads .bare "output=" (("output=" : Text).map .bare) .bare := reads_bare (by decide) (by decide)
  have hcommand := hname.words.append (reads_quote file).words
  have hword := hvariable.append
    (reads_openDouble.append ((reads_substitution hcommand).append reads_closeDouble))
  have hline : ("output=\"$(cat " ++ ShellWord.quote file ++ ")\"" : Text) = "output=" ++ (['"']
      ++ ("$(" ++ ("cat" ++ ' ' :: ShellWord.quote file) ++ ")" ++ ['"'])) := by simp
  rw [hline, runLine_words hs rfl rfl (List.cons_ne_nil _ _) hword.words]
  have hrun : runWords r s [("output=" : Text).map .bare ++ [.substitution [("cat" : Text).map .bare,
        file.map .quoted]]]
      = (expand r s [.substitution [("cat" : Text).map .bare, file.map .quoted]]).map fun text =>
        { s with output := text } := by
    rw [Option.map_eq_bind]
    rfl
  rw [expand_singleton, expandPiece, readFile_cat hfile, Option.map_map] at hrun
  exact hrun

theorem runLine_replacement {line text : Text} {c : Char} (hs : s.document = none)
    (hdocument : hereDocument? line = none) (h : replacement? line = some (c, text)) :
    runLine r s line = some { s with output := Text.replacing c text s.output } := by
  rw [runLine_of_none hs, runCommandLine, hdocument, h]

/-- What has been read becomes an output of the step. -/
theorem runLine_setOutput {output : Text} (houtput : ∀ c ∈ output, IsInert c) (hs : s.document = none) :
    runLine r s ("echo \"::set-output name=" ++ output ++ "::$output\"")
      = some { s with printed := s.printed ++ [setOutputText output s.output] } := by
  have hname : Reads .bare "echo" (("echo" : Text).map .bare) .bare := reads_bare (by decide) (by decide)
  have hvalue : Reads .double ("$output" ++ "\"") [.parameter "output"] .bare := reads_variable rfl (by decide)
  have hinert : ∀ c ∈ "::set-output name=" ++ output ++ "::", IsInert c := by
    simp only [List.forall_mem_append]
    exact ⟨⟨by decide, houtput⟩, by decide⟩
  have hwords := hname.words.append (reads_openDouble.append ((reads_double (by simp) hinert).append hvalue)).words
  have hline : ("echo \"::set-output name=" ++ output ++ "::$output\"" : Text) = "echo" ++ ' ' :: (['"']
      ++ ("::set-output name=" ++ output ++ "::" ++ ("$output" ++ "\""))) := by simp
  have htext : expand r s (("::set-output name=" ++ output ++ "::").map .quoted ++ [.parameter "output"])
      = some (setOutputText output s.output) := expand_append (expand_quoted _) (expand_singleton _)
  rw [hline, runLine_words hs rfl rfl (List.cons_ne_nil _ _) hwords]
  exact runWords_echo htext (by intro h; cases h)

end CachedWorkflow.Shell
