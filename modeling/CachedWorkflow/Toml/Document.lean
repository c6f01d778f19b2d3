import CachedWorkflow.Toml.Atom
import CachedWorkflow.Toml.Quoted

/-!
# TOML documents

A TOML document is a list of statements, one a line: headers of tables, and entries that give a value
to a key. Keys may be dotted; a table is the list of its entries with the paths of their keys, no two of
which are in each other's way.
-/

namespace CachedWorkflow.Toml

/-- A value of a document. -/
inductive Value where
  | string (text : Text)
  /-- A truth value, a number, a date or a time. -/
  | atom
  | array (items : List Value)
  | table (entries : List (List Text × Value))
  deriving Repr, Inhabited

/-- A statement of a document. -/
inductive Statement where
  /-- The entries after it belong to the table with the given path. -/
  | header (path : List Text)
  /-- The entries after it belong to a new table of the array with the given path. -/
  | itemHeader (path : List Text)
  | entry (path : List Text) (value : Value)
  deriving Repr, Inhabited

/-- Whether the entries of a table are compatible: no path leads to, or through, what another entry
has given a value. -/
def areCompatible : List (List Text × Value) → Bool
  | [] => true
  | entry :: rest =>
    (rest.all fun other => !entry.1.isPrefixOf other.1 && !other.1.isPrefixOf entry.1)
      && areCompatible rest

/-! ## Keys -/

/-- Drops blanks. -/
def skipBlanks (text : Text) : Text := text.dropWhile isBlank

/-- The characters of keys without quotes. -/
def isBare (c : Char) : Bool := c.isAlphanum || c == '_' || c == '-'

/-- Reads one key. -/
def readKey (text : Text) : Option (Text × Text) :=
  if text.head?.any fun c => c == '"' || c == '\'' then readLineString text
  else
    let key := text.takeWhile isBare
    if key.isEmpty then none else some (key, text.drop key.length)

/-- How deep tables may nest: by the keys of a path, and by arrays and inline tables in each other. -/
def maxNesting : Nat := 80

/-- Reads keys with dots between them, with the blanks around them. -/
def readKeys (text : Text) : Option (List Text × Text) :=
  match readKey (skipBlanks text) with
  | none => none
  | some (key, rest) =>
    match skipBlanks rest with
    | '.' :: rest =>
      if rest.length < text.length then (readKeys rest).map fun (path, rest) => (key :: path, rest)
      else none
    | rest => some ([key], rest)
termination_by text.length

/-- Reads the path of a dotted key. -/
def readPath (text : Text) : Option (List Text × Text) :=
  (readKeys text).filter fun (path, _) => path.length < maxNesting

/-! ## Values -/

/-- Drops a comment, if there is one; `none` if it has a control character. -/
def skipComment (text : Text) : Option Text :=
  match text with
  | '#' :: rest =>
    let rest := rest.dropWhile isContent
    if rest.isEmpty || (afterBreak? rest).isSome then some rest else none
  | _ => some text

/-- Drops blanks, breaks and comments. -/
def skipGap (text : Text) : Option Text :=
  match skipComment (skipBlanks text) with
  | none => none
  | some rest =>
    match afterBreak? rest with
    | some next => if next.length < text.length then skipGap next else none
    | none => some rest
termination_by text.length

mutual

/-- Reads a value inside of which arrays and tables nest less deep than `nesting`; `steps` bounds the
recursion. -/
def readValue : (steps nesting : Nat) → Text → Option (Value × Text)
  | 0, _, _ => none
  | steps + 1, nesting, text =>
    match text with
    | '[' :: rest =>
      if nesting ≤ 1 then none
      else (readItems steps (nesting - 1) rest).map fun (items, rest) => (.array items, rest)
    | '{' :: rest =>
      if nesting ≤ 1 then none
      else
        match skipBlanks rest with
        | '}' :: rest => some (.table [], rest)
        | rest => do
          let (entries, rest) ← readEntries steps (nesting - 1) rest
          if areCompatible entries then some (.table entries, rest) else none
    | c :: _ =>
      if c = '"' ∨ c = '\'' then (readString text).map fun (s, rest) => (.string s, rest)
      else (readAtom text).map fun rest => (.atom, rest)
    | [] => none

/-- Reads the items of an array and its closing bracket. A comma may stand after the last item. -/
def readItems : (steps nesting : Nat) → Text → Option (List Value × Text)
  | 0, _, _ => none
  | steps + 1, nesting, text => do
    match ← skipGap text with
    | ']' :: rest => some ([], rest)
    | rest =>
      let (item, rest) ← readValue steps nesting rest
      match ← skipGap rest with
      | ',' :: rest => (readItems steps nesting rest).map fun (items, rest) => (item :: items, rest)
      | ']' :: rest => some ([item], rest)
      | _ => none

/-- Reads the entries of an inline table that has at least one, and its closing brace. -/
def readEntries : (steps nesting : Nat) → Text → Option (List (List Text × Value) × Text)
  | 0, _, _ => none
  | steps + 1, nesting, text => do
    let (path, rest) ← readPath text
    match rest with
    | '=' :: rest =>
      let (value, rest) ← readValue steps nesting (skipBlanks rest)
      match skipBlanks rest with
      | ',' :: rest =>
        (readEntries steps nesting rest).map fun (entries, rest) => ((path, value) :: entries, rest)
      | '}' :: rest => some ([(path, value)], rest)
      | _ => none
    | _ => none

end

/-! ## Statements -/

/-- Reads one statement. -/
def readStatement (text : Text) : Option (Statement × Text) := do
  match text with
  | '[' :: '[' :: rest =>
    let (path, rest) ← readPath rest
    return (.itemHeader path, ← Text.after? [']', ']'] rest)
  | '[' :: rest =>
    let (path, rest) ← readPath rest
    return (.header path, ← Text.after? [']'] rest)
  | _ =>
    let (path, rest) ← readPath text
    let rest ← Text.after? ['='] rest
    let (value, rest) ← readValue (2 * text.length + 2) maxNesting (skipBlanks rest)
    return (.entry path value, rest)

/-- Reads what may stand after a statement in its line. -/
def readLineEnd (text : Text) : Option Text := do
  let rest ← skipComment (skipBlanks text)
  if rest.isEmpty then some [] else afterBreak? rest

/-- Reads all statements. -/
def readStatements (text : Text) : Option (List Statement) :=
  match skipGap text with
  | none => none
  | some start =>
    if start.isEmpty then some []
    else
      match readStatement start with
      | none => none
      | some (statement, rest) =>
        match readLineEnd rest with
        | none => none
        | some next =>
          if next.length < text.length then (readStatements next).map (statement :: ·) else none
termination_by text.length

/-- The statements of a text; a byte order mark before the text is no part of it. -/
def statements? (text : Text) : Option (List Statement) :=
  readStatements (match text with
    | '\ufeff' :: rest => rest
    | text => text)

end CachedWorkflow.Toml
