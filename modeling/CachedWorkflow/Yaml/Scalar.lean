import CachedWorkflow.Text.Digits
import CachedWorkflow.Yaml.Cursor

/-!
# Scalars of a YAML text

Reading the four ways to write a scalar: plain, between single or double quotes, and as a block of
lines. Lines of the first three are folded: a single break becomes a space, and of several breaks
the first one is dropped.
-/

namespace CachedWorkflow.Yaml

/-! ## Gaps between words -/

/-- The blanks and breaks between two words of a scalar. -/
structure Gap where
  /-- The blanks, as long as there is no break. -/
  blanks : Text := []
  firstBreak : Text := []
  moreBreaks : Text := []
  /-- Whether the line ends inside the gap. -/
  broken : Bool := false

namespace Gap

/-- Adds a break. -/
def addBreak (g : Gap) (text : Text) : Gap :=
  if g.broken then { g with moreBreaks := g.moreBreaks ++ text }
  else { g with blanks := [], firstBreak := text, broken := true }

/-- Adds a text of blanks and breaks. -/
def addText : Gap → Text → Gap
  | g, [] => g
  | g, '\r' :: '\n' :: rest => (g.addBreak ['\n']).addText rest
  | g, c :: rest =>
    if isBreak c then (g.addBreak (breakText c)).addText rest
    else if g.broken then g.addText rest
    else { g with blanks := g.blanks ++ [c] }.addText rest

/-- What the gap is in the value of the scalar. -/
def folded (g : Gap) : Text :=
  if !g.broken then g.blanks
  else if g.firstBreak.head? == some '\n' then
    if g.moreBreaks.isEmpty then [' '] else g.moreBreaks
  else g.firstBreak ++ g.moreBreaks

end Gap

/-! ## Plain scalars -/

/-- The indicators of flow collections. -/
def isFlowIndicator (c : Char) : Bool :=
  c == ',' || c == '[' || c == ']' || c == '{' || c == '}'

/-- The word of a plain scalar at the beginning of a text. There is none, and no scalar either, if a
colon stands before an indicator inside a flow collection. -/
def plainWord (flow : Bool) : Text → Option Text
  | [] => some []
  | c :: rest =>
    if isGap c then some []
    else if flow && c == ':' && rest.head?.any (fun d => isFlowIndicator d || d == '?') then none
    else if c == ':' && endsWord rest then some []
    else if flow && isFlowIndicator c then some []
    else (plainWord flow rest).map (c :: ·)

/-- Whether a gap indents no line with a tab before the column `limit`. -/
def tabsAllowed (limit : Nat) : (broken : Bool) → (column : Nat) → Text → Bool
  | _, _, [] => true
  | broken, column, c :: rest =>
    if isBreak c then tabsAllowed limit true 0 rest
    else if broken && column < limit && c == '\t' then false
    else tabsAllowed limit broken (column + 1) rest

/-- Reads the rest of a plain scalar after the words `text` and a gap. Gives the value, whether a line
ended after the last word, and the cursor. Outside flow collections the scalar ends before a line
that is indented less than `limit`. -/
def plainFrom (flow : Bool) (limit : Nat) (text : Text) (gap : Gap) (c : Cursor) :
    Option (Text × Bool × Cursor) :=
  if c.atDocumentMarker || c.headIs (· == '#') then some (text, gap.broken, c)
  else
    match plainWord flow c.rest with
    | none => none
    | some word =>
      let (text, broken) :=
        if word.isEmpty then (text, gap.broken) else (text ++ gap.folded ++ word, false)
      let afterWord := c.forward word.length
      let blanks := afterWord.rest.takeWhile isGap
      if blanks.isEmpty then some (text, broken, afterWord)
      else if !tabsAllowed limit false afterWord.column blanks then none
      else
        let gap := Gap.addText {} blanks
        let next := afterWord.overGap blanks
        if !flow && next.column < limit then some (text, gap.broken, next)
        else if next.rest.length < c.rest.length then plainFrom flow limit text gap next
        else none
termination_by c.rest.length

/-! ## Quoted scalars -/

/-- The character that a one-letter escape stands for. -/
def simpleEscape? (c : Char) : Option Char :=
  match c with
  | '0' => some '\x00'
  | 'a' => some '\x07'
  | 'b' => some '\x08'
  | 't' | '\t' => some '\t'
  | 'n' => some '\n'
  | 'v' => some '\x0b'
  | 'f' => some '\x0c'
  | 'r' => some '\r'
  | 'e' => some '\x1b'
  | ' ' => some ' '
  | '"' => some '"'
  | '/' => some '/'
  | '\\' => some '\\'
  | 'N' => some '\u0085'
  | '_' => some '\u00a0'
  | 'L' => some '\u2028'
  | 'P' => some '\u2029'
  | _ => none

/-- The character with the given hexadecimal code. -/
def codeEscape? (digits : Text) : Option Char := do
  let code ← natOfDigits? 16 digits
  if (0xD800 ≤ code ∧ code ≤ 0xDFFF) ∨ 0x10FFFF < code then none else some (Char.ofNat code)

/-- Reads up to a gap, the closing quote or an escaped break: the text, and the rest where that
stands. -/
def doubleQuotedWord : Text → Option (Text × Text)
  | [] => some ([], [])
  | '\\' :: 'x' :: a :: b :: rest => do
    let ch ← codeEscape? [a, b]
    (doubleQuotedWord rest).map fun (text, rest) => (ch :: text, rest)
  | '\\' :: 'u' :: a :: b :: c :: d :: rest => do
    let ch ← codeEscape? [a, b, c, d]
    (doubleQuotedWord rest).map fun (text, rest) => (ch :: text, rest)
  | '\\' :: 'U' :: a :: b :: c :: d :: e :: f :: g :: h :: rest => do
    let ch ← codeEscape? [a, b, c, d, e, f, g, h]
    (doubleQuotedWord rest).map fun (text, rest) => (ch :: text, rest)
  | '\\' :: c :: rest =>
    if isBreak c then some ([], '\\' :: c :: rest)
    else do
      let ch ← simpleEscape? c
      (doubleQuotedWord rest).map fun (text, rest) => (ch :: text, rest)
  | c :: rest =>
    if c = '\\' then none
    else if c = '"' ∨ isGap c then some ([], c :: rest)
    else (doubleQuotedWord rest).map fun (text, rest) => (c :: text, rest)

/-- Reads up to a gap or the closing quote: the text, and the rest where that stands. A doubled quote
is a quote. -/
def singleQuotedWord : Text → Text × Text
  | [] => ([], [])
  | '\'' :: '\'' :: rest =>
    let (text, rest) := singleQuotedWord rest
    ('\'' :: text, rest)
  | c :: rest =>
    if c = '\'' ∨ isGap c then ([], c :: rest)
    else
      let (text, rest) := singleQuotedWord rest
      (c :: text, rest)

/-- Reads the rest of a quoted scalar, after `text`, up to its closing quote: the value, and the
cursor after the quote. -/
def quotedFrom (single : Bool) (text : Text) (c : Cursor) : Option (Text × Cursor) :=
  if c.atDocumentMarker || c.rest.isEmpty then none
  else
    match if single then some (singleQuotedWord c.rest) else doubleQuotedWord c.rest with
    | none => none
    | some (word, rest) =>
      let afterWord := c.forward (c.rest.length - rest.length)
      let text := text ++ word
      let quote := if single then '\'' else '"'
      if rest.head? == some quote then some (text, afterWord.forward 1)
      else
        let escaped := !single && rest.head? == some '\\'
        let afterWord := if escaped then (afterWord.forward 1).readBreak.2 else afterWord
        let blanks := afterWord.rest.takeWhile isGap
        let gap := Gap.addText { broken := escaped } blanks
        let next := afterWord.overGap blanks
        if next.rest.length < c.rest.length then quotedFrom single (text ++ gap.folded) next
        else none
termination_by c.rest.length
decreasing_by assumption

/-! ## Block scalars -/

/-- What happens to the breaks at the end of a block scalar. -/
inductive Chomping where
  /-- All are dropped. -/
  | strip
  /-- The first one is kept. -/
  | clip
  /-- All are kept. -/
  | keep
  deriving DecidableEq, Repr

/-- Reads the indentation and the empty lines before a line of a block scalar. An `indent` of zero is
still to be found out, and then the result has the greatest indentation met. Tabs do not indent. -/
def blockGap (indent greatest : Nat) (breaks : Text) (c : Cursor) : Option (Text × Nat × Cursor) :=
  let spaces := (c.rest.takeWhile (· == ' ')).length
  let c' := c.forward (if indent = 0 then spaces else min spaces (indent - c.column))
  let greatest := max greatest c'.column
  if (indent = 0 ∨ c'.column < indent) ∧ c'.headIs (· == '\t') then none
  else if c'.headIs isBreak then
    let (text, next) := c'.readBreak
    if next.rest.length < c.rest.length then blockGap indent greatest (breaks ++ text) next else none
  else some (breaks, greatest, c')
termination_by c.rest.length

/-- What has been read of a block scalar. -/
structure BlockText where
  /-- The value without the breaks after the last line. -/
  text : Text := []
  /-- The break of the last line. -/
  lineBreak : Text := []
  /-- The empty lines after the last line. -/
  emptyLines : Text := []
  /-- Whether the last line begins with a blank, so that the break after it is not folded. -/
  indented : Bool := false

/-- Reads the lines of a block scalar with the given indentation. -/
def blockLines (folded : Bool) (indent : Nat) (b : BlockText) (c : Cursor) :
    Option (BlockText × Cursor) :=
  if c.column = indent ∧ !c.rest.isEmpty then
    let indented := c.headIs isBlank
    let lineBreak :=
      if folded && b.lineBreak.head? == some '\n' && !b.indented && !indented then
        if b.emptyLines.isEmpty then [' '] else []
      else b.lineBreak
    let line := c.rest.takeWhile fun ch => !isBreak ch
    let text := b.text ++ lineBreak ++ b.emptyLines ++ line
    let (lineBreak, next) := (c.forward line.length).readBreak
    match blockGap indent 0 [] next with
    | none => none
    | some (emptyLines, _, next) =>
      if next.rest.length < c.rest.length then
        blockLines folded indent { text, lineBreak, emptyLines, indented } next
      else some ({ text, lineBreak, emptyLines, indented }, next)
  else some (b, c)
termination_by c.rest.length

/-- The digit of an indentation indicator, if there is one; zero is none. -/
def readIndentDigit (c : Cursor) : Option (Nat × Cursor) :=
  match c.rest with
  | d :: _ =>
    if d = '0' then none
    else if d.isDigit then some (d.toNat - '0'.toNat, c.forward 1)
    else some (0, c)
  | [] => some (0, c)

/-- The chomping indicator, if there is one. -/
def readChomping (c : Cursor) : Chomping × Cursor :=
  match c.rest with
  | '+' :: _ => (.keep, c.forward 1)
  | '-' :: _ => (.strip, c.forward 1)
  | _ => (.clip, c)

/-- The two indicators of a block scalar, in either order. -/
def readBlockHeader (c : Cursor) : Option (Chomping × Nat × Cursor) := do
  let (chomping, c) := readChomping c
  let (digit, c) ← readIndentDigit c
  if chomping = .clip ∧ digit ≠ 0 then
    let (chomping, c) := readChomping c
    return (chomping, digit, c)
  else return (chomping, digit, c)

/-- Reads a block scalar after its first character; `parent` is the indentation of what it is in. -/
def readBlock (folded : Bool) (parent : Int) (c : Cursor) : Option (Text × Cursor) := do
  let (chomping, digit, c) ← readBlockHeader c
  let c := c.skipWhile isBlank
  let c := if c.headIs (· == '#') then c.skipLine else c
  if !c.rest.isEmpty && !c.headIs isBreak then none
  else
    let (_, c) := c.readBreak
    let given : Nat := if digit = 0 then 0 else if 0 ≤ parent then parent.toNat + digit else digit
    let (emptyLines, greatest, c) ← blockGap given 0 [] c
    let indent := if given = 0 then max (max greatest (parent + 1).toNat) 1 else given
    let (b, c) ← blockLines folded indent { emptyLines } c
    return (b.text ++ (if chomping = .strip then [] else b.lineBreak)
      ++ (if chomping = .keep then b.emptyLines else []), c)

end CachedWorkflow.Yaml
