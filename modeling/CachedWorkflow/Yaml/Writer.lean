import CachedWorkflow.Json.Writer
import CachedWorkflow.Yaml.Style

/-!
# Writing YAML documents

The YAML text of a document value. Collections are written in blocks, two spaces deeper than what they
are in, except that the items of a sequence that is the value of a key are not indented further.
-/

namespace CachedWorkflow.Yaml

/-- A number of spaces. -/
def spaces (n : Nat) : Text := List.replicate n ' '

/-- Puts `n` spaces before every line that is not empty; the first line only gets them if
`lineStart` holds. -/
def indentLines (n : Nat) : (lineStart : Bool) → Text → Text
  | _, [] => []
  | lineStart, c :: rest =>
    if isBreak c then c :: indentLines n true rest
    else (if lineStart then spaces n else []) ++ c :: indentLines n false rest

/-! ## Scalars -/

/-- The letter that stands for a character after a backslash. -/
def escapeLetter? (c : Char) : Option Char :=
  match c with
  | '\x00' => some '0'
  | '\x07' => some 'a'
  | '\x08' => some 'b'
  | '\t' => some 't'
  | '\n' => some 'n'
  | '\x0b' => some 'v'
  | '\x0c' => some 'f'
  | '\r' => some 'r'
  | '\x1b' => some 'e'
  | '"' => some '"'
  | '\\' => some '\\'
  | '\u0085' => some 'N'
  | '\u2028' => some 'L'
  | '\u2029' => some 'P'
  | _ => none

/-- A character in double quotes. -/
def doubleQuotedChar (c : Char) : Text :=
  match escapeLetter? c with
  | some letter => ['\\', letter]
  | none =>
    if isPrintable c then [c]
    else if c.toNat ≤ 0xFF then "\\x" ++ hexDigits true 2 c.toNat
    else if c.toNat ≤ 0xFFFF then "\\u" ++ hexDigits true 4 c.toNat
    else "\\U" ++ hexDigits true 8 c.toNat

/-- A text in double quotes. -/
def doubleQuoted (text : Text) : Text := "\"" ++ text.flatMap doubleQuotedChar ++ "\""

/-- A text in single quotes, with its lines after the first one indented by `n`. -/
def singleQuoted (n : Nat) (text : Text) : Text :=
  "'" ++ indentLines n false (Text.replacing '\'' "''" text)
    ++ (if text.getLast?.any isBreak then spaces n else []) ++ "'"

/-- The indicator of how a text ends: without a break, or with more than one line's own. -/
def chompingIndicator (text : Text) : Text :=
  match text.reverse with
  | last :: before => if !isBreak last then "-" else if before.head?.all isBreak then "+" else ""
  | [] => "-"

/-- A text as a block of lines that are indented by `n`. A text that begins with a blank or an empty line
says how much the lines are indented. -/
def literal (n : Nat) (text : Text) : Text :=
  "|" ++ (if text.head?.any (fun c => isSpace c || isBreak c) then "2" else "")
    ++ chompingIndicator text ++ "\n" ++ indentLines n true text

/-- A string inside of what is indented by `n`. -/
def stringText (n : Nat) (text : Text) : Text :=
  match styleOf text with
  | .plain => text
  | .singleQuoted => singleQuoted n text
  | .doubleQuoted => doubleQuoted text
  | .literal => literal n text

/-! ## Collections -/

/-- Ends the line, unless it is ended. -/
def endLine (text : Text) : Text := if text.getLast?.any isBreak then text else text ++ "\n"

/-- A key at column `n` up to the colon before its value. -/
def keyText (n : Nat) (key : Text) : Text :=
  if isSimpleKey key then stringText (n + 2) key ++ ":"
  else "? " ++ endLine (stringText (n + 2) key) ++ spaces n ++ ":"

mutual

/-- What follows the indicator of an item or a value, which stands at column `n`. A collection that is
not empty begins in the same line if `compact` holds, and otherwise in the next one. -/
def after (n : Nat) (compact : Bool) : Json → Text
  | .null => " null\n"
  | .bool true => " true\n"
  | .bool false => " false\n"
  | .number value => " " ++ value.toText ++ "\n"
  | .string text => " " ++ endLine (stringText (n + 2) text)
  | .array [] => " []\n"
  | .object [] => " \x7b\x7d\n"
  | .array (item :: items) =>
    if compact then " -" ++ after (n + 2) true item ++ itemLines (n + 2) items
    else "\n" ++ spaces n ++ "-" ++ after n true item ++ itemLines n items
  | .object ((key, value) :: fields) =>
    (if compact then [' '] else '\n' :: spaces (n + 2)) ++ keyText (n + 2) key
      ++ after (n + 2) (!isSimpleKey key) value ++ fieldLines (n + 2) fields

/-- The items of a sequence at column `n`. -/
def itemLines (n : Nat) : List Json → Text
  | [] => []
  | item :: items => spaces n ++ "-" ++ after n true item ++ itemLines n items

/-- The entries of a mapping at column `n`. -/
def fieldLines (n : Nat) : List (Text × Json) → Text
  | [] => []
  | (key, value) :: fields =>
    spaces n ++ keyText n key ++ after n (!isSimpleKey key) value ++ fieldLines n fields

end

/-- The YAML text of a document value. -/
def write : Json → Text
  | .array (item :: items) => itemLines 0 (item :: items)
  | .object (field :: fields) => fieldLines 0 (field :: fields)
  | .string text => endLine (stringText 2 text)
  | value => (after 0 true value).drop 1

end CachedWorkflow.Yaml
