import CachedWorkflow.Yaml.Scalar
import CachedWorkflow.Yaml.Tag

/-!
# Lexemes of a YAML text

The structure of a YAML text as a flat list. Indentation shows as the beginning and the end of block
collections. That a scalar or a collection is a key only shows at the colon after it, on the same line
and not too far away; the lexeme for the key is then put in front of it.
-/

namespace CachedWorkflow.Yaml

/-- An element of the structure of a YAML text. -/
inductive Lexeme where
  /-- The directive that names the version of YAML. -/
  | version (major minor : Nat)
  /-- The directive that declares a handle for tags. -/
  | handle (name : Text) (expansion : Tag)
  | documentStart
  | documentEnd
  | sequenceStart
  | mappingStart
  | blockEnd
  | flowSequenceStart
  | flowSequenceEnd
  | flowMappingStart
  | flowMappingEnd
  /-- The dash before an item of a block sequence. -/
  | entry
  /-- The comma in a flow collection. -/
  | flowEntry
  | key
  | value
  | alias (name : Text)
  | anchor (name : Text)
  | tag (handle : Text) (suffix : Tag)
  | scalar (text : Text) (plain : Bool)
  deriving DecidableEq, Repr

/-- A place where a key may begin, as long as no colon has been met. -/
structure PendingKey where
  /-- Whether there is no way to read the text unless this is a key. -/
  required : Bool
  /-- The number of lexemes before the place. -/
  position : Nat
  /-- Where the place is. -/
  cursor : Cursor

/-- The state of reading lexemes. -/
structure Lexing where
  cursor : Cursor
  lexemes : Array Lexeme := #[]
  /-- The column of the innermost block collection, `-1` outside of all. -/
  indent : Int := -1
  outer : List Int := []
  /-- The place where a key may begin, for every open flow collection and for the block around
  them. -/
  pending : List (Option PendingKey) := [none]
  /-- The number of open flow collections. -/
  flow : Nat := 0
  /-- Whether a key may begin at the cursor. -/
  keyAllowed : Bool := true

namespace Lexing

variable (s : Lexing)

/-- Adds a lexeme. -/
def emit (l : Lexeme) : Lexing := { s with lexemes := s.lexemes.push l }

/-- Adds a lexeme of `n` characters. -/
def emitOver (n : Nat) (l : Lexeme) : Lexing :=
  { s with cursor := s.cursor.forward n, lexemes := s.lexemes.push l }

/-- Gives up the place where a key may begin, unless it is needed. -/
def dropKey : Option Lexing :=
  match s.pending with
  | some key :: rest => if key.required then none else some { s with pending := none :: rest }
  | _ => some s

/-- Notes that a key may begin at the cursor, if one may. It must if the cursor is at the column of
a block mapping. -/
def noteKey : Option Lexing :=
  if s.keyAllowed then do
    let required := s.flow == 0 && s.indent == s.cursor.column
    let s ← s.dropKey
    return { s with pending := some ⟨required, s.lexemes.size, s.cursor⟩ :: s.pending.tail }
  else some s

/-- Gives up the places that are on an earlier line or more than 1024 bytes behind. -/
def dropStaleKeys : Option Lexing := do
  let pending ← s.pending.mapM fun
    | none => some none
    | some key =>
      if key.cursor.line < s.cursor.line || key.cursor.index + 1024 < s.cursor.index then
        if key.required then none else some none
      else some (some key)
  return { s with pending }

/-- Closes the innermost block collections as long as they are indented by more than `column`. -/
def closeBlocks (column : Int) : List Int → Lexing → Lexing
  | [], s => s
  | indent :: outer, s =>
    if column < s.indent then closeBlocks column outer ({ s with indent, outer }.emit .blockEnd)
    else s

/-- Closes the block collections that are indented by more than `column`. -/
def unroll (column : Int) : Lexing :=
  if s.flow = 0 then closeBlocks column s.outer s else s

/-- Opens a block collection at a column, unless one that is indented as much is open. Its lexeme goes
to the given position. -/
def roll (column position : Nat) (l : Lexeme) : Lexing :=
  if s.flow = 0 ∧ s.indent < column then
    { s with
      outer := s.indent :: s.outer
      indent := column
      lexemes := s.lexemes.insertIdxIfInBounds position l }
  else s

/-- Opens a block collection at the cursor. -/
def rollHere (l : Lexeme) : Lexing := s.roll s.cursor.column s.lexemes.size l

/-! ## Blanks and comments -/

/-- Moves over blanks, comments and breaks to where the next lexeme begins. A line may begin with a byte
order mark, which takes up a column. A tab is no blank where a key may begin in a block. -/
def skipToNext (s : Lexing) : Lexing :=
  let c := s.cursor
  let c := if c.column = 0 ∧ c.headIs (· == '\ufeff') then c.forward 1 else c
  let tabs := 0 < s.flow || !s.keyAllowed
  let c := c.skipWhile fun ch => ch == ' ' || (tabs && ch == '\t')
  let c := if c.headIs (· == '#') then c.skipLine else c
  if c.headIs isBreak then
    let next := c.readBreak.2
    if next.rest.length < s.cursor.rest.length then
      skipToNext { s with cursor := next, keyAllowed := s.keyAllowed || s.flow == 0 }
    else s
  else { s with cursor := c }
termination_by s.cursor.rest.length

/-! ## Directives and properties of nodes -/

/-- Reads a number of at most nine digits. -/
def readVersionNumber (c : Cursor) : Option (Nat × Cursor) := do
  let digits := c.rest.takeWhile Char.isDigit
  if 9 < digits.length then none
  else return (← natOfDigits? 10 digits, c.forward digits.length)

/-- Reads the value of a directive. -/
def readDirectiveValue (name : Text) (c : Cursor) : Option (Lexeme × Cursor) :=
  let c := c.skipWhile isBlank
  if name = "YAML" then do
    let (major, c) ← readVersionNumber c
    if c.headIs (· == '.') then
      let (minor, c) ← readVersionNumber (c.forward 1)
      return (.version major minor, c)
    else none
  else if name = "TAG" then do
    let (handle, c) ← readHandle c
    if handle ≠ ['!'] ∧ !isNamedHandle handle then none
    else if !c.headIs isBlank then none
    else
      let (expansion, c) ← readTagPart1 true (c.skipWhile isBlank)
      if endsWord c.rest then return (.handle handle expansion, c) else none
  else none

/-- Reads a directive, which takes up its line. -/
def readDirective : Option Lexing := do
  let s ← (s.unroll (-1)).dropKey
  let c := s.cursor.forward 1
  let name := c.rest.takeWhile isNameChar
  let c := c.forward name.length
  if name.isEmpty || !endsWord c.rest then none
  else
    let (directive, c) ← readDirectiveValue name c
    let c := c.skipWhile isBlank
    let c := if c.headIs (· == '#') then c.skipLine else c
    if !c.rest.isEmpty && !c.headIs isBreak then none
    else return { s with cursor := c.readBreak.2, keyAllowed := false }.emit directive

/-- Reads the name of an anchor or an alias after its indicator. -/
def readAnchor (l : Text → Lexeme) : Option Lexing := do
  let s ← s.noteKey
  let c := s.cursor.forward 1
  let name := c.rest.takeWhile isNameChar
  let c := c.forward name.length
  if name.isEmpty || !(endsWord c.rest || c.headIs ("?:,]\x7d%@\x60".toList).contains) then none
  else return { s with cursor := c, keyAllowed := false }.emit (l name)

/-- Reads the tag at the cursor. -/
def readTagHere : Option Lexing := do
  let s ← s.noteKey
  let (handle, suffix, c) ← readTag s.cursor
  if endsWord c.rest || (0 < s.flow && c.headIs (· == ',')) then
    return { s with cursor := c, keyAllowed := false }.emit (.tag handle suffix)
  else none

/-! ## Scalars -/

/-- Reads the block scalar at the cursor. -/
def readBlockScalar (folded : Bool) : Option Lexing := do
  let s ← s.dropKey
  let (text, c) ← readBlock folded s.indent (s.cursor.forward 1)
  return { s with cursor := c, keyAllowed := true }.emit (.scalar text false)

/-- Reads the quoted scalar at the cursor. -/
def readQuotedScalar (single : Bool) : Option Lexing := do
  let s ← s.noteKey
  let (text, c) ← quotedFrom single [] (s.cursor.forward 1)
  return { s with cursor := c, keyAllowed := false }.emit (.scalar text false)

/-- Reads the plain scalar at the cursor. A key may begin after it if its last line has ended. -/
def readPlainScalar : Option Lexing := do
  let s ← s.noteKey
  let (text, broken, c) ← plainFrom (0 < s.flow) (s.indent + 1).toNat [] {} s.cursor
  return { s with cursor := c, keyAllowed := broken }.emit (.scalar text true)

/-! ## Indicators -/

/-- Reads the mark of the beginning or the end of a document. -/
def readDocumentMarker (l : Lexeme) : Option Lexing := do
  let s ← (s.unroll (-1)).dropKey
  return { s with keyAllowed := false }.emitOver 3 l

/-- Reads the opening bracket or brace of a flow collection. -/
def openFlow (l : Lexeme) : Option Lexing := do
  let s ← s.noteKey
  return { s with pending := none :: s.pending, flow := s.flow + 1, keyAllowed := true }.emitOver 1 l

/-- Reads the closing bracket or brace of a flow collection. -/
def closeFlow (l : Lexeme) : Option Lexing := do
  let s ← s.dropKey
  let s := if s.flow = 0 then s else { s with pending := s.pending.tail, flow := s.flow - 1 }
  return { s with keyAllowed := false }.emitOver 1 l

/-- Reads a comma. -/
def readFlowEntry : Option Lexing := do
  let s ← s.dropKey
  return { s with keyAllowed := true }.emitOver 1 .flowEntry

/-- Reads a dash. -/
def readEntry : Option Lexing := do
  if s.flow = 0 ∧ !s.keyAllowed then none
  else
    let s ← (s.rollHere .sequenceStart).dropKey
    return { s with keyAllowed := true }.emitOver 1 .entry

/-- Reads a question mark. -/
def readKey : Option Lexing := do
  if s.flow = 0 ∧ !s.keyAllowed then none
  else
    let s ← (s.rollHere .mappingStart).dropKey
    return { s with keyAllowed := s.flow == 0 }.emitOver 1 .key

/-- Reads a colon. It belongs to the pending key, if there is one, which becomes a key now. -/
def readValue : Option Lexing :=
  match s.pending with
  | some key :: rest =>
    let s := { s with
      pending := none :: rest
      lexemes := s.lexemes.insertIdxIfInBounds key.position .key }
    let s := s.roll key.cursor.column key.position .mappingStart
    some ({ s with keyAllowed := false }.emitOver 1 .value)
  | _ =>
    if s.flow = 0 ∧ !s.keyAllowed then none
    else
      let s := s.rollHere .mappingStart
      some ({ s with keyAllowed := s.flow == 0 }.emitOver 1 .value)

/-- Whether a plain scalar can begin with the character, before the given rest. -/
def beginsPlain (c : Char) (rest : Text) : Bool :=
  !(isGap c || ("-?:,[]\x7b\x7d#&*!|>'\"%@\x60".toList).contains c)
    || (c == '-' && !rest.head?.any isBlank)
    || (s.flow == 0 && (c == '?' || c == ':') && !endsWord rest)

/-- Reads the lexeme at the cursor, which begins with `c` before `rest`. -/
def readNext (c : Char) (rest : Text) : Option Lexing :=
  if s.cursor.column = 0 ∧ c = '%' then s.readDirective
  else if s.cursor.atMarker '-' then s.readDocumentMarker .documentStart
  else if s.cursor.atMarker '.' then s.readDocumentMarker .documentEnd
  else if c = '[' then s.openFlow .flowSequenceStart
  else if c = '{' then s.openFlow .flowMappingStart
  else if c = ']' then s.closeFlow .flowSequenceEnd
  else if c = '}' then s.closeFlow .flowMappingEnd
  else if c = ',' then s.readFlowEntry
  else if c = '-' ∧ endsWord rest then s.readEntry
  else if c = '?' ∧ (0 < s.flow ∨ endsWord rest) then s.readKey
  else if c = ':' ∧ (0 < s.flow ∨ endsWord rest) then s.readValue
  else if c = '*' then s.readAnchor .alias
  else if c = '&' then s.readAnchor .anchor
  else if c = '!' then s.readTagHere
  else if c = '|' ∧ s.flow = 0 then s.readBlockScalar false
  else if c = '>' ∧ s.flow = 0 then s.readBlockScalar true
  else if c = '\'' then s.readQuotedScalar true
  else if c = '"' then s.readQuotedScalar false
  else if s.beginsPlain c rest then s.readPlainScalar
  else none

/-- Reads all lexemes up to the end of the text, where the open blocks end. -/
def run (s : Lexing) : Option (Array Lexeme) :=
  match s.skipToNext.dropStaleKeys with
  | none => none
  | some t =>
    let t := t.unroll t.cursor.column
    match t.cursor.rest with
    | [] => ((t.unroll (-1)).dropKey).map (·.lexemes)
    | c :: rest =>
      match t.readNext c rest with
      | none => none
      | some next =>
        if next.cursor.rest.length < s.cursor.rest.length then run next else none
termination_by s.cursor.rest.length

end Lexing

/-- Whether a character may stand in a YAML text. -/
def isAllowed (c : Char) : Bool :=
  let n := c.toNat
  n == 0x09 || n == 0x0A || n == 0x0D || (0x20 ≤ n && n ≤ 0x7E) || n == 0x85
    || (0xA0 ≤ n && n ≤ 0xD7FF) || (0xE000 ≤ n && n ≤ 0xFFFD) || 0x10000 ≤ n

/-- The lexemes of a text. -/
def lexemes? (text : Text) : Option (List Lexeme) :=
  if text.all isAllowed then (Lexing.run { cursor := { rest := text } }).map Array.toList else none

end CachedWorkflow.Yaml
