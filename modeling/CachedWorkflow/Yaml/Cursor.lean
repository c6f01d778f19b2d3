import CachedWorkflow.Text

/-!
# Positions in a YAML text

A cursor is the rest of a text together with the position where the rest begins. YAML knows five
line breaks; a carriage return and a line feed together are one break.
-/

namespace CachedWorkflow.Yaml

/-- Line feed, carriage return, next line, line separator and paragraph separator. -/
def isBreak (c : Char) : Bool :=
  c == '\n' || c == '\r' || c == '\u0085' || c == '\u2028' || c == '\u2029'

/-- Space and tab. -/
def isBlank (c : Char) : Bool := c == ' ' || c == '\t'

/-- Blanks and breaks, which stand between words. -/
def isGap (c : Char) : Bool := isBlank c || isBreak c

/-- Whether a word ends before the text: it begins with a blank or a break, or is empty. -/
def endsWord (text : Text) : Bool := text.head?.all isGap

/-- The characters of anchors, handles and directive names. -/
def isNameChar (c : Char) : Bool := c.isAlphanum || c == '_' || c == '-'

/-- What a break counts as inside a scalar: the separators stay as they are, all others are line
feeds. -/
def breakText (c : Char) : Text := if c = '\u2028' ∨ c = '\u2029' then [c] else ['\n']

/-- The rest of a text, and where it begins. -/
structure Cursor where
  rest : Text
  /-- The number of bytes before the rest, in UTF-8. -/
  index : Nat := 0
  /-- The number of lines before the rest. -/
  line : Nat := 0
  /-- The number of characters before the rest in its line. -/
  column : Nat := 0

namespace Cursor

/-- Moves over `n` characters of a line. -/
def forward (n : Nat) (c : Cursor) : Cursor :=
  { c with
    rest := c.rest.drop n
    index := c.index + Text.byteLength (c.rest.take n)
    column := c.column + n }

/-- Moves over a break, if there is one, and gives what it counts as. -/
def readBreak (c : Cursor) : Text × Cursor :=
  match c.rest with
  | '\r' :: '\n' :: rest => (['\n'], { rest, index := c.index + 2, line := c.line + 1 })
  | b :: rest =>
    if isBreak b then (breakText b, { rest, index := c.index + b.utf8Size, line := c.line + 1 })
    else ([], c)
  | [] => ([], c)

/-- Moves over the characters of a line that satisfy `p`. -/
def skipWhile (p : Char → Bool) (c : Cursor) : Cursor := c.forward (c.rest.takeWhile p).length

/-- Moves to the end of the line. -/
def skipLine (c : Cursor) : Cursor := c.skipWhile fun ch => !isBreak ch

/-- The character at the cursor. -/
def head? (c : Cursor) : Option Char := c.rest.head?

/-- Whether the character at the cursor satisfies `p`. -/
def headIs (p : Char → Bool) (c : Cursor) : Bool := c.rest.head?.any p

/-- Whether a line begins here with three times the character, standing alone. -/
def atMarker (mark : Char) (c : Cursor) : Bool :=
  c.column == 0 && [mark, mark, mark].isPrefixOf c.rest && endsWord (c.rest.drop 3)

/-- Whether the beginning or the end of a document is marked here. -/
def atDocumentMarker (c : Cursor) : Bool := c.atMarker '-' || c.atMarker '.'

/-- Moves over a text of blanks and breaks. -/
def overGap : Text → Cursor → Cursor
  | [], c => c
  | '\r' :: '\n' :: gap, c =>
    overGap gap { c with rest := c.rest.drop 2, index := c.index + 2, line := c.line + 1, column := 0 }
  | ch :: gap, c =>
    if isBreak ch then
      overGap gap
        { c with
          rest := c.rest.drop 1
          index := c.index + ch.utf8Size
          line := c.line + 1
          column := 0 }
    else overGap gap (c.forward 1)

end Cursor

end CachedWorkflow.Yaml
