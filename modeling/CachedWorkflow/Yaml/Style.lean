import CachedWorkflow.Yaml.Cursor
import CachedWorkflow.Yaml.Plain

/-!
# Styles of written scalars

How a string is written so that it is read back as the same string: plain if nothing in it looks like
something else, as a block of lines if it has several lines, and otherwise in quotes. What none of these
can hold is written with escapes in double quotes.
-/

namespace CachedWorkflow.Yaml

/-- The ways to write a string. -/
inductive Style where
  | plain
  | singleQuoted
  | doubleQuoted
  | literal
  deriving DecidableEq, Repr

/-- Whether a character is written as it is. -/
def isPrintable (c : Char) : Bool :=
  let n := c.toNat
  n == 0x0A || (0x20 ≤ n && n ≤ 0x7E) || (0xA0 ≤ n && n ≤ 0xD7FF)
    || (0xE000 ≤ n && n ≤ 0xFFFD && n != 0xFEFF) || 0x10000 ≤ n

/-- Whether two characters that satisfy `p` and `q` stand side by side. -/
def hasAdjacent (p q : Char → Bool) : Text → Bool
  | a :: b :: rest => (p a && q b) || hasAdjacent p q (b :: rest)
  | _ => false

/-- Whether a character is a space. -/
def isSpace (c : Char) : Bool := c == ' '

/-- Whether a colon ends a word, as it does after a key. -/
def hasKeyColon : Text → Bool
  | [] => false
  | c :: rest => (c == ':' && endsWord rest) || hasKeyColon rest

/-- Whether the first characters of a text mean something in YAML. -/
def beginsWithIndicator (text : Text) : Bool :=
  ['-', '-', '-'].isPrefixOf text || ['.', '.', '.'].isPrefixOf text ||
    match text with
    | [] => false
    | c :: rest =>
      ("#,[]\x7b\x7d&*!|>'\"%@\x60".toList).contains c
        || ((c == '?' || c == '-') && endsWord rest)

/-- Whether a text holds anything that means something in YAML outside of quotes. -/
def hasIndicator (text : Text) : Bool :=
  beginsWithIndicator text || hasKeyColon text || hasAdjacent isGap (· == '#') text

/-- Whether the text can be written plain. -/
def allowsPlain (text : Text) : Bool :=
  !text.any isBreak && text.all isPrintable && !text.head?.any isSpace && !text.getLast?.any isSpace
    && !hasIndicator text

/-- Whether the text can be written in single quotes. -/
def allowsSingleQuotes (text : Text) : Bool :=
  text.all isPrintable && !hasAdjacent isBreak isSpace text && !hasAdjacent isSpace isBreak text

/-- Whether the text can be written as a block of lines. -/
def allowsLiteral (text : Text) : Bool :=
  text.all isPrintable && !hasAdjacent isSpace isBreak text && !text.getLast?.any isSpace

/-- The style of a string. -/
def styleOf (text : Text) : Style :=
  if text.contains '\n' then if allowsLiteral text then .literal else .doubleQuoted
  else if !looksLikeOther text && allowsPlain text then .plain
  else if allowsSingleQuotes text then .singleQuoted
  else .doubleQuoted

/-- Whether a key stands before its colon on one line. Keys with breaks or of more than 128 bytes need a
question mark. -/
def isSimpleKey (key : Text) : Bool :=
  !key.any isBreak && Text.byteLength key ≤ 128

end CachedWorkflow.Yaml
