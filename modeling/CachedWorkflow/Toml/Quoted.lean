import CachedWorkflow.Text.Digits

/-!
# Strings of a TOML text

Strings stand between double quotes, where a backslash escapes, or single quotes, where it does not.
Strings between three quotes may have several lines. A string gives its text and what is left after its
closing quote.
-/

namespace CachedWorkflow.Toml

/-- Space and tab. -/
def isBlank (c : Char) : Bool := c == ' ' || c == '\t'

/-- The characters that stand for themselves in comments and strings: all but the control characters, of
which only the tab does. -/
def isContent (c : Char) : Bool := c == '\t' || (0x20 ≤ c.toNat && c.toNat != 0x7F)

/-- What is left after a break, if the text begins with one. -/
def afterBreak? : Text → Option Text
  | '\n' :: rest => some rest
  | '\r' :: '\n' :: rest => some rest
  | _ => none

/-- The character that a one-letter escape stands for. -/
def escapedChar? (c : Char) : Option Char :=
  match c with
  | 'b' => some '\x08'
  | 't' => some '\t'
  | 'n' => some '\n'
  | 'f' => some '\x0c'
  | 'r' => some '\r'
  | '"' => some '"'
  | '\\' => some '\\'
  | _ => none

/-- The character with the given hexadecimal code. -/
def codedChar? (digits : Text) : Option Char := do
  let code ← natOfDigits? 16 digits
  if (0xD800 ≤ code ∧ code ≤ 0xDFFF) ∨ 0x10FFFF < code then none else some (Char.ofNat code)

/-- Puts a character in front of a string that has been read. -/
def withChar (c : Char) (read : Option (Text × Text)) : Option (Text × Text) :=
  read.map fun (text, rest) => (c :: text, rest)

/-- Reads a string up to its closing double quote. -/
def readBasic : Text → Option (Text × Text)
  | [] => none
  | '"' :: rest => some ([], rest)
  | '\\' :: 'u' :: a :: b :: c :: d :: rest => do withChar (← codedChar? [a, b, c, d]) (readBasic rest)
  | '\\' :: 'U' :: a :: b :: c :: d :: e :: f :: g :: h :: rest => do
    withChar (← codedChar? [a, b, c, d, e, f, g, h]) (readBasic rest)
  | '\\' :: c :: rest => do withChar (← escapedChar? c) (readBasic rest)
  | c :: rest => if isContent c && c != '\\' then withChar c (readBasic rest) else none

/-- Reads a string up to its closing single quote. -/
def readLiteral : Text → Option (Text × Text)
  | [] => none
  | '\'' :: rest => some ([], rest)
  | c :: rest => if isContent c then withChar c (readLiteral rest) else none

/-- Reads a string of several lines up to its three closing double quotes, which one or two quotes of the
string may precede. A backslash at the end of a line drops all blanks and breaks after it; `dropping`
holds while they are dropped. -/
def readBasicLines (dropping : Bool) : Text → Option (Text × Text)
  | [] => none
  | '"' :: '"' :: '"' :: '"' :: '"' :: rest => some (['"', '"'], rest)
  | '"' :: '"' :: '"' :: '"' :: rest => some (['"'], rest)
  | '"' :: '"' :: '"' :: rest => some ([], rest)
  | '\\' :: 'u' :: a :: b :: c :: d :: rest => do
    withChar (← codedChar? [a, b, c, d]) (readBasicLines false rest)
  | '\\' :: 'U' :: a :: b :: c :: d :: e :: f :: g :: h :: rest => do
    withChar (← codedChar? [a, b, c, d, e, f, g, h]) (readBasicLines false rest)
  | '\\' :: c :: rest =>
    if (afterBreak? ((c :: rest).dropWhile isBlank)).isSome then readBasicLines true (c :: rest)
    else do withChar (← escapedChar? c) (readBasicLines false rest)
  | '\r' :: '\n' :: rest =>
    if dropping then readBasicLines true rest else withChar '\n' (readBasicLines false rest)
  | c :: rest =>
    if dropping && (isBlank c || c == '\n') then readBasicLines true rest
    else if c == '\n' || (isContent c && c != '\\') then withChar c (readBasicLines false rest)
    else none

/-- Reads a string of several lines up to its three closing single quotes, which one or two quotes of
the string may precede. -/
def readLiteralLines : Text → Option (Text × Text)
  | [] => none
  | '\'' :: '\'' :: '\'' :: '\'' :: '\'' :: rest => some (['\'', '\''], rest)
  | '\'' :: '\'' :: '\'' :: '\'' :: rest => some (['\''], rest)
  | '\'' :: '\'' :: '\'' :: rest => some ([], rest)
  | '\r' :: '\n' :: rest => withChar '\n' (readLiteralLines rest)
  | c :: rest => if c == '\n' || isContent c then withChar c (readLiteralLines rest) else none

/-- Reads a string of one line. -/
def readLineString : Text → Option (Text × Text)
  | '"' :: rest => readBasic rest
  | '\'' :: rest => readLiteral rest
  | _ => none

/-- Reads a string of any kind. A break after three opening quotes is dropped. -/
def readString : Text → Option (Text × Text)
  | '"' :: '"' :: '"' :: rest => readBasicLines false ((afterBreak? rest).getD rest)
  | '\'' :: '\'' :: '\'' :: rest => readLiteralLines ((afterBreak? rest).getD rest)
  | text => readLineString text

end CachedWorkflow.Toml
