import CachedWorkflow.Job.KeyScript
import CachedWorkflow.Workflow.Compile
import Mathlib.Data.List.Forall2

/-!
# Reading a shell script

How the shell reads the commands of a script, as far as the key script needs it: words with single
quotes, double quotes and escapes, and in double quotes the values of parameters and the output of
other commands. Where the script uses anything else there is no reading. The reading goes character
by character, so that a text and what follows it are read one after the other (`Reads.append`).
-/

namespace CachedWorkflow.Shell

/-- A piece of a word. -/
inductive Piece where
  /-- A character outside of quotes. -/
  | bare (c : Char)
  /-- A character that quotes or a backslash have taken any meaning from. -/
  | quoted (c : Char)
  | parameter (name : Text)
  | substitution (words : List (List Piece))
  deriving Repr, Inhabited

/-- A word, before its expansion. -/
abbrev Word := List Piece

/-- A command that is being read: its words so far, and the word at the end if one has begun. -/
structure Command where
  words : List Word := []
  word : Option Word := none

/-- Adds pieces to the word at the end, which begins here unless it has begun. -/
def Command.push (command : Command) (pieces : Word) : Command :=
  { command with word := some (command.word.getD [] ++ pieces) }

/-- All words, with the one at the end. -/
def Command.all (command : Command) : List Word := command.words ++ command.word.toList

/-- What comes next. -/
inductive Mode where
  | bare
  /-- The character after a backslash outside of quotes. -/
  | escaped
  | single
  | double
  /-- The character after a dollar sign in double quotes. -/
  | dollar
  /-- The rest of a parameter in braces. -/
  | braced (name : Text)
  /-- The rest of a parameter without braces. -/
  | variable (name : Text)
  deriving DecidableEq, Repr

/-- A script that is being read. -/
structure Reading where
  commands : List (List Word) := []
  /-- The commands that wait in double quotes for the output of the next one, the inmost first. -/
  outer : List Command := []
  current : Command := {}
  mode : Mode := .bare

/-- The characters that stand for themselves outside of quotes. Brackets do in the target of an
assignment. -/
def isBare (c : Char) : Bool := isJobIdChar c || c == '[' || c == ']' || c == '='

/-- The characters of the name of a parameter in braces. -/
def isBraced (c : Char) : Bool := isJobIdChar c || c == '[' || c == ']'

/-- The characters that the name of a variable begins with. -/
def isVariableStart (c : Char) : Bool := c.isAlpha || c == '_'

/-- The characters of the name of a variable. -/
def isVariable (c : Char) : Bool := c.isAlphanum || c == '_'

/-- Reads a character outside of quotes. -/
def stepBare (r : Reading) (c : Char) : Option Reading :=
  if c = ' ' then some { r with current := ⟨r.current.all, none⟩ }
  else if c = '\n' then
    if r.outer.isEmpty then
      some { r with
        commands := if r.current.all.isEmpty then r.commands else r.commands ++ [r.current.all]
        current := {} }
    else none
  else if c = '\'' then some { r with current := r.current.push [], mode := .single }
  else if c = '"' then some { r with current := r.current.push [], mode := .double }
  else if c = '\\' then some { r with mode := .escaped }
  else if c = ')' then
    match r.outer with
    | [] => none
    | command :: outer => some { r with
        outer, current := command.push [.substitution r.current.all], mode := .double }
  else if isBare c then some { r with current := r.current.push [.bare c] }
  else none

/-- Reads a character in double quotes. -/
def stepDouble (r : Reading) (c : Char) : Option Reading :=
  if c = '"' then some { r with current := r.current.push [], mode := .bare }
  else if c = '$' then some { r with mode := .dollar }
  else if c = '\\' ∨ c = '\x60' then none
  else some { r with current := r.current.push [.quoted c], mode := .double }

/-- Reads a character. -/
def step (r : Reading) (c : Char) : Option Reading :=
  match r.mode with
  | .bare => stepBare r c
  | .escaped =>
    if c = '\n' then none
    else some { r with current := r.current.push [.quoted c], mode := .bare }
  | .single =>
    if c = '\'' then some { r with current := r.current.push [], mode := .bare }
    else some { r with current := r.current.push [.quoted c] }
  | .double => stepDouble r c
  | .dollar =>
    if c = '(' then some { r with outer := r.current :: r.outer, current := {}, mode := .bare }
    else if c = '{' then some { r with mode := .braced [] }
    else if isVariableStart c then some { r with mode := .variable [c] }
    else none
  | .braced name =>
    if c = '}' then some { r with current := r.current.push [.parameter name], mode := .double }
    else if isBraced c then some { r with mode := .braced (name ++ [c]) }
    else none
  | .variable name =>
    if isVariable c then some { r with mode := .variable (name ++ [c]) }
    else stepDouble { r with current := r.current.push [.parameter name] } c

/-- The commands of a script whose last line is complete. -/
def readCommands (text : Text) : Option (List (List Word)) := do
  let r ← text.foldlM step {}
  if r.mode = .bare ∧ r.outer.isEmpty ∧ r.current.all.isEmpty then some r.commands else none

/-- The commands of a key script, after the definition of its function. -/
def readKeyScript (text : Text) : Option (List (List Word)) := do
  readCommands (← Text.after? hashFunction text)

/-- Reads what is left of a command in a substitution up to the parenthesis that ends it: its words, and the
text behind the parenthesis. Outside of quotes, line breaks separate words as blanks do. -/
def readArguments (r : Reading) : Text → Option (List Word × Text)
  | [] => none
  | c :: rest =>
    if r.mode = .bare ∧ r.outer.isEmpty ∧ c = ')' then some (r.commands.flatten ++ r.current.all, rest)
    else (step r c).bind fun r => readArguments r rest

/-! ## Reading parts of words -/

@[simp] theorem Command.push_push (command : Command) (a b : Word) :
    (command.push a).push b = command.push (a ++ b) := by
  simp [Command.push]

/-- The text adds the pieces to the current word, whatever comes before and after it. -/
def Reads (before : Mode) (text : Text) (pieces : Word) (after : Mode) : Prop :=
  ∀ commands outer current, text.foldlM step ⟨commands, outer, current, before⟩
    = some ⟨commands, outer, current.push pieces, after⟩

theorem Reads.append {m m' m'' : Mode} {a b : Text} {p q : Word} (ha : Reads m a p m')
    (hb : Reads m' b q m'') : Reads m (a ++ b) (p ++ q) m'' := by
  intro commands outer current
  rw [List.foldlM_append, ha commands outer current]
  simp only [Option.bind_eq_bind, Option.bind_some]
  rw [hb commands outer _, Command.push_push]

theorem Reads.char {m m' : Mode} {c : Char} {pieces : Word}
    (h : ∀ commands outer current, step ⟨commands, outer, current, m⟩ c
      = some ⟨commands, outer, current.push pieces, m'⟩) : Reads m [c] pieces m' := by
  intro commands outer current
  rw [List.foldlM_cons, h commands outer current]
  rfl

/-- A text that is not empty is read character by character. -/
theorem Reads.of_chars {m : Mode} {f : Char → Piece} {text : Text} (hne : text ≠ [])
    (h : ∀ c ∈ text, Reads m [c] [f c] m) : Reads m text (text.map f) m := by
  induction text with
  | nil => exact absurd rfl hne
  | cons c rest ih =>
    have hc := h c List.mem_cons_self
    cases rest with
    | nil => exact hc
    | cons d rest =>
      exact hc.append (ih (List.cons_ne_nil d rest) fun e he => h e (List.mem_cons_of_mem _ he))

/-- Text outside of quotes. -/
theorem reads_bare {text : Text} (hne : text ≠ []) (h : ∀ c ∈ text, isBare c = true) :
    Reads .bare text (text.map .bare) .bare := by
  refine .of_chars hne fun c hc => .char fun commands outer current => ?_
  have hbare := h c hc
  have hspecial : ∀ d, isBare d = false → c ≠ d := by
    rintro d hd rfl
    rw [hbare] at hd
    cases hd
  show stepBare _ c = _
  unfold stepBare
  rw [if_neg (hspecial _ rfl), if_neg (hspecial _ rfl), if_neg (hspecial _ rfl),
    if_neg (hspecial _ rfl), if_neg (hspecial _ rfl), if_neg (hspecial _ rfl), if_pos hbare]

/-! ## Quotes -/

theorem reads_openSingle : Reads .bare ['\''] [] .single := .char fun _ _ _ => rfl

theorem reads_closeSingle : Reads .single ['\''] [] .bare := .char fun _ _ _ => rfl

theorem reads_escapedQuote : Reads .bare ['\\', '\''] [.quoted '\''] .bare := fun _ _ _ => rfl

theorem reads_openDouble : Reads .bare ['"'] [] .double := .char fun _ _ _ => rfl

theorem reads_closeDouble : Reads .double ['"'] [] .bare := .char fun _ _ _ => rfl

/-- In single quotes every character stands for itself; the quotes that a text holds are put outside. -/
theorem reads_replacingQuotes {text : Text} (hne : text ≠ []) :
    Reads .single (Text.replacing '\'' "'\\''" text) (text.map .quoted) .single := by
  induction text with
  | nil => exact absurd rfl hne
  | cons c rest ih =>
    have hc : Reads .single (if c = '\'' then ("'\\''" : Text) else [c]) [.quoted c] .single := by
      by_cases hquote : c = '\''
      · rw [if_pos hquote, hquote]
        exact (reads_closeSingle.append reads_escapedQuote).append reads_openSingle
      · rw [if_neg hquote]
        refine .char fun commands outer current => ?_
        show (if c = '\'' then _ else _) = _
        rw [if_neg hquote]
    rw [Text.replacing, List.flatMap_cons]
    cases rest with
    | nil => simpa using hc
    | cons d rest => exact hc.append (ih (List.cons_ne_nil d rest))

/-- A quoted word is read as its text. -/
theorem reads_quote (text : Text) : Reads .bare (ShellWord.quote text) (text.map .quoted) .bare := by
  by_cases hne : text = []
  · rw [hne]
    exact reads_openSingle.append reads_closeSingle
  · have hall := (reads_openSingle.append (reads_replacingQuotes hne)).append reads_closeSingle
    rw [List.nil_append, List.append_nil] at hall
    exact hall

/-- The characters that stand for themselves in double quotes. -/
def IsInert (c : Char) : Prop := c ≠ '"' ∧ c ≠ '$' ∧ c ≠ '\\' ∧ c ≠ '\x60'

instance (c : Char) : Decidable (IsInert c) := inferInstanceAs (Decidable (_ ∧ _))

theorem isInert_of_isJobIdChar {c : Char} (h : isJobIdChar c = true) : IsInert c := by
  refine ⟨?_, ?_, ?_, ?_⟩ <;> rintro rfl <;> cases h

/-- Text in double quotes. -/
theorem reads_double {text : Text} (hne : text ≠ []) (h : ∀ c ∈ text, IsInert c) :
    Reads .double text (text.map .quoted) .double := by
  refine .of_chars hne fun c hc => .char fun commands outer current => ?_
  obtain ⟨h1, h2, h3, h4⟩ := h c hc
  show stepDouble _ c = _
  unfold stepDouble
  rw [if_neg h1, if_neg h2, if_neg (not_or.mpr ⟨h3, h4⟩)]

/-! ## Parameters -/

/-- The characters of a name are read one after the other. -/
theorem foldlM_name {mode : Text → Mode} {isPart : Char → Bool}
    (hstep : ∀ commands outer current done c, isPart c = true →
      step ⟨commands, outer, current, mode done⟩ c = some ⟨commands, outer, current, mode (done ++ [c])⟩)
    {name : Text} (h : ∀ c ∈ name, isPart c = true) (commands : List (List Word)) (outer : List Command)
    (current : Command) : ∀ done : Text,
    name.foldlM step ⟨commands, outer, current, mode done⟩
      = some ⟨commands, outer, current, mode (done ++ name)⟩ := by
  induction name with
  | nil => intro done; rw [List.append_nil]; rfl
  | cons c rest ih =>
    intro done
    rw [List.foldlM_cons, hstep _ _ _ _ c (h c List.mem_cons_self)]
    simp only [Option.bind_eq_bind, Option.bind_some]
    rw [ih (fun d hd => h d (List.mem_cons_of_mem _ hd)), List.append_assoc, List.singleton_append]

theorem step_braced {c : Char} (hc : isBraced c = true) (commands : List (List Word)) (outer : List Command)
    (current : Command) (done : Text) : step ⟨commands, outer, current, .braced done⟩ c
      = some ⟨commands, outer, current, .braced (done ++ [c])⟩ := by
  have hbrace : c ≠ '}' := by
    rintro rfl
    cases hc
  show (if c = '}' then _ else if isBraced c then _ else _) = _
  rw [if_neg hbrace, if_pos hc]

theorem step_variable {c : Char} (hc : isVariable c = true) (commands : List (List Word)) (outer : List Command)
    (current : Command) (done : Text) : step ⟨commands, outer, current, .variable done⟩ c
      = some ⟨commands, outer, current, .variable (done ++ [c])⟩ := if_pos hc

/-- The value of a parameter in double quotes. -/
theorem reads_parameter {name : Text} (h : ∀ c ∈ name, isBraced c = true) :
    Reads .double ("$\x7b" ++ name ++ "\x7d") [.parameter name] .double := by
  intro commands outer current
  have hopen : ("$\x7b" : Text).foldlM step ⟨commands, outer, current, .double⟩
      = some ⟨commands, outer, current, .braced []⟩ := rfl
  rw [List.foldlM_append, List.foldlM_append, hopen]
  simp only [Option.bind_eq_bind, Option.bind_some]
  rw [foldlM_name (fun _ _ _ _ _ hc => step_braced hc _ _ _ _) h]
  rfl

/-- The value of a parameter at the end of a word in double quotes. -/
theorem reads_variable {c : Char} {name : Text} (hc : isVariableStart c = true)
    (h : ∀ d ∈ name, isVariable d = true) :
    Reads .double ('$' :: c :: name ++ ['"']) [.parameter (c :: name)] .bare := by
  intro commands outer current
  have hopen : step ⟨commands, outer, current, .double⟩ '$' = some ⟨commands, outer, current, .dollar⟩ := rfl
  have hfirst : step ⟨commands, outer, current, .dollar⟩ c = some ⟨commands, outer, current, .variable [c]⟩ := by
    have hplain : c ≠ '(' ∧ c ≠ '{' := by
      constructor <;> rintro rfl <;> cases hc
    show (if c = '(' then _ else if c = '{' then _ else if isVariableStart c then _ else _) = _
    rw [if_neg hplain.1, if_neg hplain.2, if_pos hc]
  have hclose : step ⟨commands, outer, current, .variable ([c] ++ name)⟩ '"'
      = some ⟨commands, outer, (current.push [.parameter ([c] ++ name)]).push [], .bare⟩ := rfl
  rw [List.foldlM_append, List.foldlM_cons, hopen]
  simp only [Option.bind_eq_bind, Option.bind_some, List.foldlM_cons, hfirst, List.foldlM_nil]
  rw [foldlM_name (fun _ _ _ _ _ hd => step_variable hd _ _ _ _) h]
  simp only [Option.bind_some, hclose, Command.push_push]
  rfl

/-- A number that is new on every run, at the end of a word in double quotes. -/
theorem reads_nonce : Reads .double ("$RANDOM$RANDOM" ++ "\"")
    [.parameter "RANDOM", .parameter "RANDOM"] .bare := by
  intro commands outer current
  have hread : ("$RANDOM$RANDOM" ++ "\"" : Text).foldlM step ⟨commands, outer, current, .double⟩
      = some ⟨commands, outer, ((current.push [.parameter "RANDOM"]).push [.parameter "RANDOM"]).push [],
        .bare⟩ := rfl
  rw [hread, Command.push_push, Command.push_push]
  rfl

/-! ## Words and commands -/

/-- The text is a command with the words, whatever comes before it. -/
def ReadsWords (text : Text) (words : List Word) : Prop :=
  ∀ commands outer front, ∃ current,
    text.foldlM step ⟨commands, outer, ⟨front, none⟩, .bare⟩
      = some ⟨commands, outer, current, .bare⟩ ∧ current.all = front ++ words

theorem Reads.words {text : Text} {pieces : Word} (h : Reads .bare text pieces .bare) :
    ReadsWords text [pieces] := by
  intro commands outer front
  refine ⟨_, h commands outer _, ?_⟩
  simp [Command.all, Command.push]

/-- A blank stands between words. -/
theorem ReadsWords.append {a b : Text} {words words' : List Word} (ha : ReadsWords a words)
    (hb : ReadsWords b words') : ReadsWords (a ++ ' ' :: b) (words ++ words') := by
  intro commands outer front
  obtain ⟨current, hcurrent, hall⟩ := ha commands outer front
  obtain ⟨current', hcurrent', hall'⟩ := hb commands outer current.all
  refine ⟨current', ?_, by rw [hall', hall, List.append_assoc]⟩
  have hblank : step ⟨commands, outer, current, .bare⟩ ' '
      = some ⟨commands, outer, ⟨current.all, none⟩, .bare⟩ := rfl
  rw [List.foldlM_append, hcurrent]
  simp only [Option.bind_eq_bind, Option.bind_some, List.foldlM_cons, hblank]
  exact hcurrent'

theorem readsWords_intercalate {texts : List Text} {words : List Word} (hne : texts ≠ [])
    (h : List.Forall₂ (fun text pieces => Reads .bare text pieces .bare) texts words) :
    ReadsWords (List.intercalate " " texts) words := by
  induction h with
  | nil => exact absurd rfl hne
  | @cons text pieces texts words hword hrest ih =>
    cases hrest with
    | nil => simpa [List.intercalate] using hword.words
    | cons hnext hrest =>
      have htail := ih (List.cons_ne_nil _ _)
      have hall := hword.words.append htail
      simpa [List.intercalate] using hall

/-- The output of a command in double quotes. -/
theorem reads_substitution {text : Text} {words : List Word} (h : ReadsWords text words) :
    Reads .double ("$(" ++ text ++ ")") [.substitution words] .double := by
  intro commands outer current
  obtain ⟨inner, hinner, hall⟩ := h commands (current :: outer) []
  have hopen : ("$(" : Text).foldlM step ⟨commands, outer, current, .double⟩
      = some ⟨commands, current :: outer, ⟨[], none⟩, .bare⟩ := rfl
  have hclose : (")" : Text).foldlM step ⟨commands, current :: outer, inner, .bare⟩
      = some ⟨commands, outer, current.push [.substitution inner.all], .double⟩ := rfl
  rw [List.foldlM_append, List.foldlM_append, hopen]
  simp only [Option.bind_eq_bind, Option.bind_some, hinner]
  rw [hclose, hall, List.nil_append]

/-- What can be read as commands does not end the command that it stands in. -/
theorem readArguments_append {r r' : Reading} {text : Text} (h : text.foldlM step r = some r')
    (rest : Text) : readArguments r (text ++ rest) = readArguments r' rest := by
  induction text generalizing r with
  | nil =>
    cases h
    rfl
  | cons c text ih =>
    rw [List.foldlM_cons] at h
    obtain ⟨r₁, hstep, htext⟩ := Option.bind_eq_some_iff.mp h
    have hinside : ¬ (r.mode = .bare ∧ r.outer.isEmpty ∧ c = ')') := by
      rintro ⟨hmode, houter, rfl⟩
      -- outside of a substitution the parenthesis is not read
      rw [step, hmode] at hstep
      simp only [stepBare, List.isEmpty_iff.mp houter] at hstep
      exact nomatch hstep
    rw [List.cons_append, readArguments, if_neg hinside, hstep, Option.bind_some, ih htext]

/-- The words of a command are read up to the parenthesis behind them. -/
theorem ReadsWords.readArguments {text : Text} {words : List Word} (h : ReadsWords text words)
    (rest : Text) : readArguments {} (' ' :: text ++ ')' :: rest) = some (words, rest) := by
  obtain ⟨current, htext, hall⟩ := h [] [] []
  have hblank : step {} ' ' = some ⟨[], [], ⟨[], none⟩, .bare⟩ := rfl
  have hread : (' ' :: text).foldlM step {} = some ⟨[], [], current, .bare⟩ := by
    rw [List.foldlM_cons, hblank]
    exact htext
  rw [readArguments_append hread, Shell.readArguments, if_pos ⟨rfl, rfl, rfl⟩, hall]
  rfl

/-- The text is a line that is the given list of commands. -/
def ReadsCommands (text : Text) (list : List (List Word)) : Prop :=
  ∀ commands, text.foldlM step ⟨commands, [], {}, .bare⟩ = some ⟨commands ++ list, [], {}, .bare⟩

theorem ReadsCommands.nil : ReadsCommands [] [] := fun commands => by rw [List.append_nil]; rfl

theorem ReadsCommands.append {a b : Text} {list list' : List (List Word)}
    (ha : ReadsCommands a list) (hb : ReadsCommands b list') :
    ReadsCommands (a ++ b) (list ++ list') := by
  intro commands
  rw [List.foldlM_append, ha commands]
  simp only [Option.bind_eq_bind, Option.bind_some]
  rw [hb (commands ++ list), List.append_assoc]

/-- A line is a command. -/
theorem ReadsWords.line {text : Text} {words : List Word} (hne : words ≠ [])
    (h : ReadsWords text words) : ReadsCommands (text ++ ['\n']) [words] := by
  intro commands
  obtain ⟨current, hcurrent, hall⟩ := h commands [] []
  rw [List.nil_append] at hall
  have hend : step ⟨commands, [], current, .bare⟩ '\n'
      = some ⟨if current.all.isEmpty then commands else commands ++ [current.all], [], {}, .bare⟩ :=
    rfl
  have hnonempty : ¬ words.isEmpty = true := by simpa using hne
  rw [List.foldlM_append, show ({} : Command) = ⟨[], none⟩ from rfl, hcurrent]
  simp only [Option.bind_eq_bind, Option.bind_some, List.foldlM_cons, hend, hall, hnonempty]
  rfl

theorem ReadsCommands.flatMap {α : Type} {f : α → Text} {g : α → List (List Word)} {l : List α}
    (h : ∀ a ∈ l, ReadsCommands (f a) (g a)) : ReadsCommands (l.flatMap f) (l.flatMap g) := by
  induction l with
  | nil => exact .nil
  | cons a rest ih =>
    rw [List.flatMap_cons, List.flatMap_cons]
    exact (h a List.mem_cons_self).append (ih fun b hb => h b (List.mem_cons_of_mem _ hb))

theorem ReadsCommands.readCommands {text : Text} {list : List (List Word)}
    (h : ReadsCommands text list) : readCommands text = some list := by
  rw [Shell.readCommands, h []]
  simp [Command.all]

end CachedWorkflow.Shell
