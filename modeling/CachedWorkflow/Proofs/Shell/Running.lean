import CachedWorkflow.Proofs.Shell.Reading
import CachedWorkflow.Proofs.Template.Scan
import CachedWorkflow.Proofs.Text.Names

/-!
# Running a shell script

What the commands of a key script do when they run one after the other: they declare the variable for
the keys, set its elements and print lines. A word is expanded piece by piece; the only command whose
output is used is the hash function. As with the reading, where a script uses anything else it has no
meaning here.
-/

namespace CachedWorkflow.Shell

/-- What a script finds on the machine that it runs on. -/
structure Machine where
  /-- The identifier of the object at a path of the revision. -/
  objectId : Text → Text
  hash : Text → Text
  /-- The numbers that are drawn at random, one after the other. -/
  random : Nat → Text

/-- What a script has done. -/
structure State where
  /-- The elements of the variable for the keys, the latest first, once it is declared. -/
  keys : Option (List (Text × Text)) := none
  printed : List Text := []
  hashed : List Text := []
  /-- How many random numbers have been drawn. -/
  drawn : Nat := 0

/-- The key of a job. An element that is not set has the empty text as its value. -/
def State.keyOf (s : State) (job : Text) : Text := ((s.keys.getD []).lookup job).getD []

/-- The name of an element of the variable for the keys at the beginning of a text, and what comes
after it. -/
def element? (text : Text) : Option (Text × Text) := do
  let inside ← Text.after? "keys[" text
  match inside.takeWhile isJobIdChar, inside.dropWhile isJobIdChar with
  | c :: name, ']' :: rest => some (c :: name, rest)
  | _, _ => none

/-- The value of a parameter. -/
def parameterValue (m : Machine) (s : State) (name : Text) : Option (Text × State) :=
  if name = "RANDOM" then some (m.random s.drawn, { s with drawn := s.drawn + 1 })
  else
    match s.keys, element? name with
    | some _, some (job, []) => some (s.keyOf job, s)
    | _, _ => none

/-- Two dashes end the paths among the words that the hash function gets. -/
def isPath (word : Text) : Bool := decide (word ≠ "--")

/-- The text that the hash function hashes: the identifiers of the objects at the words before two
dashes, and then the words after them, with nothing in between. -/
def hashInput (m : Machine) (words : List Text) : Text :=
  ((words.takeWhile isPath).filter (· ≠ [])).flatMap m.objectId
    ++ ((words.dropWhile isPath).drop 1).flatten

/-- The output of a command: the words are its name and its arguments. -/
def commandOutput (m : Machine) (s : State) : List Text → Option (Text × State)
  | [] => none
  | name :: arguments =>
    if name = "git_hash_files" then
      let input := hashInput m arguments
      some (m.hash input, { s with hashed := s.hashed ++ [input] })
    else none

mutual

/-- The text that a piece stands for. -/
def evalPiece (m : Machine) (s : State) : Piece → Option (Text × State)
  | .bare c => if isJobIdChar c then some ([c], s) else none
  | .quoted c => some ([c], s)
  | .parameter name => parameterValue m s name
  | .substitution words => do
    let (texts, s) ← evalWords m s words
    commandOutput m s texts

/-- The text that a word stands for. -/
def evalWord (m : Machine) (s : State) : List Piece → Option (Text × State)
  | [] => some ([], s)
  | piece :: rest => do
    let (text, s) ← evalPiece m s piece
    let (texts, s) ← evalWord m s rest
    some (text ++ texts, s)

/-- The texts that words stand for. -/
def evalWords (m : Machine) (s : State) : List (List Piece) → Option (List Text × State)
  | [] => some ([], s)
  | word :: rest => do
    let (text, s) ← evalWord m s word
    let (texts, s) ← evalWords m s rest
    some (text :: texts, s)

end

/-- The characters at the beginning of a word that are outside of quotes, and the other pieces. -/
def bareLead : Word → Text × Word
  | .bare c :: rest => (c :: (bareLead rest).1, (bareLead rest).2)
  | rest => ([], rest)

/-- The job and the value of a word that assigns to an element of the variable for the keys. -/
def assignment? (word : Word) : Option (Text × Word) := do
  match ← element? (bareLead word).1 with
  | (job, '=' :: value) => some (job, value.map .bare ++ (bareLead word).2)
  | _ => none

/-- Runs a command after the expansion of its words. -/
def runSimple (s : State) : List Text → Option State
  | [name, text] =>
    -- a text that begins with a dash would be an option
    if name = "echo" ∧ text.head? ≠ some '-' then some { s with printed := s.printed ++ [text] }
    else none
  | [name, kind, var] =>
    if name = "declare" ∧ kind = "-A" ∧ var = "keys" then some { s with keys := some (s.keys.getD []) }
    else none
  | _ => none

/-- Runs a command: an assignment, or a name with arguments. -/
def runCommand (m : Machine) (s : State) : List Word → Option State
  | [word] => do
    let (job, value) ← assignment? word
    let (text, s) ← evalWord m s value
    let keys ← s.keys
    some { s with keys := some ((job, text) :: keys) }
  | words => do
    let (texts, s) ← evalWords m s words
    runSimple s texts

/-- Runs a key script from the beginning. -/
def runKeyScript (m : Machine) (script : Text) : Option State := do
  let commands ← readKeyScript script
  commands.foldlM (runCommand m) {}

/-- The line that makes a text the output of a step when it is printed. -/
def setOutputText (output value : Text) : Text := "::set-output name=" ++ output ++ "::" ++ value

/-! ## Expanding words -/

variable {m : Machine} {s s' s'' : State}

theorem evalWord_append {p q : Word} {a b : Text} (hp : evalWord m s p = some (a, s'))
    (hq : evalWord m s' q = some (b, s'')) : evalWord m s (p ++ q) = some (a ++ b, s'') := by
  induction p generalizing s a with
  | nil =>
    rw [evalWord] at hp
    cases hp
    exact hq
  | cons piece rest ih =>
    rw [evalWord] at hp
    obtain ⟨⟨text, s₁⟩, hpiece, hp⟩ := Option.bind_eq_some_iff.mp hp
    obtain ⟨⟨texts, s₂⟩, hrest, hp⟩ := Option.bind_eq_some_iff.mp hp
    cases hp
    rw [List.cons_append, evalWord, hpiece]
    simp only [Option.bind_eq_bind, Option.bind_some]
    rw [ih hrest, List.append_assoc]
    rfl

theorem evalWord_singleton {piece : Piece} {text : Text} (h : evalPiece m s piece = some (text, s')) :
    evalWord m s [piece] = some (text, s') := by
  rw [evalWord, h]
  simp only [Option.bind_eq_bind, Option.bind_some]
  rw [evalWord, Option.bind_some, List.append_nil]

/-- A word of pieces that each stand for one character. -/
theorem evalWord_map {f : Char → Piece} {text : Text}
    (h : ∀ c ∈ text, evalPiece m s (f c) = some ([c], s)) :
    evalWord m s (text.map f) = some (text, s) := by
  induction text with
  | nil => rw [List.map_nil, evalWord]
  | cons c rest ih =>
    have hc := evalWord_singleton (h c List.mem_cons_self)
    have hrest := ih fun d hd => h d (List.mem_cons_of_mem _ hd)
    exact evalWord_append hc hrest

theorem evalWord_quoted (text : Text) : evalWord m s (text.map .quoted) = some (text, s) :=
  evalWord_map fun c _ => by rw [evalPiece]

theorem evalWord_bare {text : Text} (h : ∀ c ∈ text, isJobIdChar c = true) :
    evalWord m s (text.map .bare) = some (text, s) :=
  evalWord_map fun c hc => by rw [evalPiece, if_pos (h c hc)]

theorem evalWords_append {v w : List Word} {a b : List Text} (hv : evalWords m s v = some (a, s'))
    (hw : evalWords m s' w = some (b, s'')) : evalWords m s (v ++ w) = some (a ++ b, s'') := by
  induction v generalizing s a with
  | nil =>
    rw [evalWords] at hv
    cases hv
    exact hw
  | cons word rest ih =>
    rw [evalWords] at hv
    obtain ⟨⟨text, s₁⟩, hword, hv⟩ := Option.bind_eq_some_iff.mp hv
    obtain ⟨⟨texts, s₂⟩, hrest, hv⟩ := Option.bind_eq_some_iff.mp hv
    cases hv
    rw [List.cons_append, evalWords, hword]
    simp only [Option.bind_eq_bind, Option.bind_some]
    rw [ih hrest]
    rfl

theorem evalWords_singleton {word : Word} {text : Text} (h : evalWord m s word = some (text, s')) :
    evalWords m s [word] = some ([text], s') := by
  rw [evalWords, h]
  simp only [Option.bind_eq_bind, Option.bind_some]
  rw [evalWords, Option.bind_some]

/-- Words that do not change the state are expanded one by one. -/
theorem evalWords_map {α : Type} {f : α → Word} {g : α → Text} {l : List α}
    (h : ∀ a ∈ l, evalWord m s (f a) = some (g a, s)) :
    evalWords m s (l.map f) = some (l.map g, s) := by
  induction l with
  | nil => rw [List.map_nil, evalWords, List.map_nil]
  | cons a rest ih =>
    have ha := evalWords_singleton (h a List.mem_cons_self)
    have hrest := ih fun b hb => h b (List.mem_cons_of_mem _ hb)
    exact evalWords_append ha hrest

/-! ## The elements of the variable for the keys -/

/-- The name of an element is read off its text. -/
theorem element?_keyVariable {job : Text} (hjob : IsName job) (rest : Text) :
    element? (keyVariable job ++ rest) = some (job, rest) := by
  have hinside : Text.after? "keys[" (keyVariable job ++ rest) = some (job ++ ']' :: rest) := by
    refine Text.after?_eq_some.mpr ?_
    unfold keyVariable
    rw [List.append_assoc, List.append_assoc]
    rfl
  have hclose : ∀ c ∈ (']' :: rest).head?, isJobIdChar c = false := by
    intro c hc
    cases hc
    rfl
  have hname : (job ++ ']' :: rest).takeWhile isJobIdChar = job := takeWhile_run hjob.chars hclose
  have hrest : (job ++ ']' :: rest).dropWhile isJobIdChar = ']' :: rest := by
    rw [List.dropWhile_append_of_pos hjob.chars, List.dropWhile_cons_of_neg (by decide)]
  rw [element?, hinside]
  simp only [Option.bind_eq_bind, Option.bind_some, hname, hrest]
  cases job with
  | nil => exact absurd rfl hjob.ne_nil
  | cons c name => rfl

/-- Setting an element changes the key of one job. -/
theorem keyOf_of_set {keys : List (Text × Text)} (hkeys : s.keys = some keys) {job key : Text}
    (hset : s'.keys = some ((job, key) :: keys)) (name : Text) :
    s'.keyOf name = if name = job then key else s.keyOf name := by
  unfold State.keyOf
  rw [hkeys, hset, Option.getD_some, Option.getD_some, List.lookup_cons]
  by_cases h : name = job
  · rw [if_pos h, h, beq_self_eq_true]
    rfl
  · rw [if_neg h, beq_eq_false_iff_ne.mpr h]

theorem evalPiece_key {keys : List (Text × Text)} (hkeys : s.keys = some keys) {job : Text}
    (hjob : IsName job) : evalPiece m s (.parameter (keyVariable job)) = some (s.keyOf job, s) := by
  have hne : keyVariable job ≠ "RANDOM" := by
    intro h
    have hhead : ('k' : Char) = 'R' := congrArg (fun text => text.headD 'k') h
    revert hhead
    decide
  have helement := element?_keyVariable hjob []
  rw [List.append_nil] at helement
  rw [evalPiece, parameterValue, if_neg hne, hkeys, helement]

/-! ## Commands -/

theorem bareLead_append (text : Text) (word : Word) :
    bareLead (text.map .bare ++ word) = (text ++ (bareLead word).1, (bareLead word).2) := by
  induction text with
  | nil => rfl
  | cons c rest ih =>
    rw [List.map_cons, List.cons_append, bareLead, ih]
    rfl

/-- An assignment to an element is told apart by the characters outside of quotes. -/
theorem assignment?_eq {job : Text} (hjob : IsName job) {value : Word}
    (hvalue : bareLead value = ([], value)) :
    assignment? ((keyVariable job ++ "=").map .bare ++ value) = some (job, value) := by
  rw [assignment?, bareLead_append, hvalue, List.append_nil, element?_keyVariable hjob]
  simp only [Option.bind_eq_bind, Option.bind_some]
  rfl

theorem runCommand_assignment {job : Text} (hjob : IsName job) {value : Word}
    (hvalue : bareLead value = ([], value)) {key : Text} {keys : List (Text × Text)}
    (heval : evalWord m s value = some (key, s')) (hkeys : s'.keys = some keys) :
    runCommand m s [(keyVariable job ++ "=").map .bare ++ value]
      = some { s' with keys := some ((job, key) :: keys) } := by
  rw [runCommand, assignment?_eq hjob hvalue]
  simp only [Option.bind_eq_bind, Option.bind_some, heval, hkeys]

theorem runCommand_echo {word : Word} {text : Text} (heval : evalWord m s word = some (text, s'))
    (hdash : text.head? ≠ some '-') :
    runCommand m s [("echo" : Text).map .bare, word]
      = some { s' with printed := s'.printed ++ [text] } := by
  have hname : evalWord m s (("echo" : Text).map .bare) = some (("echo" : Text), s) :=
    evalWord_bare (by decide)
  have hwords := evalWords_append (evalWords_singleton hname) (evalWords_singleton heval)
  rw [List.singleton_append, List.singleton_append] at hwords
  rw [runCommand, hwords]
  · simp only [Option.bind_eq_bind, Option.bind_some]
    rw [runSimple, if_pos ⟨rfl, hdash⟩]
  · -- there are two words
    intro only h
    cases h

/-! ## Hashing -/

/-- The two dashes end the paths. -/
theorem hashInput_eq {paths : List Text} (hpaths : ∀ path ∈ paths, path ≠ "--" ∧ path ≠ [])
    (strings : List Text) :
    hashInput m (paths ++ [("--" : Text)] ++ strings) = paths.flatMap m.objectId ++ strings.flatten := by
  have hisPath : ∀ path ∈ paths, isPath path = true := fun path hpath =>
    decide_eq_true (hpaths path hpath).1
  have hnonempty : ∀ path ∈ paths, decide (path ≠ []) = true := fun path hpath =>
    decide_eq_true (hpaths path hpath).2
  have hdashes : ¬ isPath "--" = true := by decide
  rw [hashInput, List.append_assoc, List.takeWhile_append_of_pos hisPath,
    List.dropWhile_append_of_pos hisPath, List.singleton_append,
    List.takeWhile_cons_of_neg hdashes, List.dropWhile_cons_of_neg hdashes, List.append_nil,
    List.filter_eq_self.mpr hnonempty]
  rfl

end CachedWorkflow.Shell
