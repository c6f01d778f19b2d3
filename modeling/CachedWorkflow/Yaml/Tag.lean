import CachedWorkflow.Text.Digits
import CachedWorkflow.Yaml.Cursor

/-!
# Tags of a YAML text

A tag names the kind of a node. In the text it is a handle, which stands for the beginning of the tag,
and a suffix. Escapes in a tag stand for bytes, so that a tag is a list of bytes; it need not be a text.
A byte of zero ends it.
-/

namespace CachedWorkflow.Yaml

/-- The bytes of a tag, or of a part of one. -/
abbrev Tag := List UInt8

namespace Tag

/-- The tag that is written as the given text. -/
def ofText (text : Text) : Tag := text.flatMap String.utf8EncodeChar

/-- The tag of YAML itself with the given name. -/
def standard (name : Text) : Tag := ofText ("tag:yaml.org,2002:" ++ name)

/-- The text that the bytes of a tag encode. -/
def toText? (tag : Tag) : Option Text := (String.fromUTF8? ⟨tag.toArray⟩).map String.toList

/-- What is before the first byte of zero. -/
def untilZero (tag : Tag) : Tag := tag.takeWhile (· != 0)

/-- Whether a tag begins with an exclamation mark. -/
def isLocal (tag : Tag) : Bool := tag.head? == some 0x21

/-- The name that a local tag gives to a value, if the tag is a text. -/
def localName? (tag : Tag) : Option Text :=
  if !tag.isLocal then none
  else if tag.tail.isEmpty then some ['!'] else toText? tag.tail

end Tag

/-! ## Handles -/

/-- Reads the handle of a tag, with its exclamation marks. -/
def readHandle (c : Cursor) : Option (Text × Cursor) :=
  match c.rest with
  | '!' :: rest =>
    let name := rest.takeWhile isNameChar
    let c := c.forward (name.length + 1)
    if c.headIs (· == '!') then some ('!' :: name ++ ['!'], c.forward 1) else some ('!' :: name, c)
  | _ => none

/-- Whether a handle has a name between two exclamation marks, which may be empty. -/
def isNamedHandle (handle : Text) : Bool := 1 < handle.length && handle.getLast? == some '!'

/-! ## Suffixes -/

/-- The characters of a tag besides escapes; commas and brackets only stand in verbatim tags. -/
def isTagChar (verbatim : Bool) (c : Char) : Bool :=
  isNameChar c || (";/?:@&=+$.!~*'()".toList).contains c
    || (verbatim && (c == ',' || c == '[' || c == ']'))

/-- How many bytes follow the first byte of a character, as that byte tells. -/
def followingBytes? (first : Nat) : Option Nat :=
  if first < 0x80 then some 0
  else if first < 0xC0 then none
  else if first < 0xE0 then some 1
  else if first < 0xF0 then some 2
  else if first < 0xF8 then some 3
  else none

/-- How many bytes of a character are left after a byte, if there were `awaited` ones before it. -/
def stillAwaited? (awaited byte : Nat) : Option Nat :=
  if awaited = 0 then followingBytes? byte
  else if 0x80 ≤ byte ∧ byte < 0xC0 then some (awaited - 1)
  else none

/-- Reads the characters of a tag. An escape of a percent sign and two digits stands for a byte; the bytes
of a character, of which `awaited` are still to come, stand together. -/
def tagBytes (verbatim : Bool) : (awaited : Nat) → Text → Option (Tag × Text)
  | awaited, '%' :: a :: b :: rest => do
    let byte ← natOfDigits? 16 [a, b]
    let awaited ← stillAwaited? awaited byte
    (tagBytes verbatim awaited rest).map fun (bytes, rest) => (UInt8.ofNat byte :: bytes, rest)
  | 0, c :: rest =>
    if c = '%' then none
    else if isTagChar verbatim c then
      (tagBytes verbatim 0 rest).map fun (bytes, rest) => (UInt8.ofNat c.toNat :: bytes, rest)
    else some ([], c :: rest)
  | 0, [] => some ([], [])
  | _ + 1, _ => none

/-- Reads the characters of a tag, if there are any. -/
def readTagPart (verbatim : Bool) (c : Cursor) : Option (Tag × Cursor) := do
  let (bytes, rest) ← tagBytes verbatim 0 c.rest
  return (Tag.untilZero bytes, c.forward (c.rest.length - rest.length))

/-- Reads the characters of a tag, of which there is one at least. -/
def readTagPart1 (verbatim : Bool) (c : Cursor) : Option (Tag × Cursor) :=
  if c.headIs (fun ch => ch == '%' || isTagChar verbatim ch) then readTagPart verbatim c else none

/-- Reads a tag as a handle and a suffix. A verbatim tag has no handle, and neither has the tag that is
a single exclamation mark. -/
def readTag (c : Cursor) : Option (Text × Tag × Cursor) :=
  match c.rest with
  | '!' :: '<' :: _ => do
    let (suffix, c) ← readTagPart1 true (c.forward 2)
    if c.headIs (· == '>') then return ([], suffix, c.forward 1) else none
  | _ => do
    let (handle, c) ← readHandle c
    if isNamedHandle handle then
      let (suffix, c) ← readTagPart1 false c
      return (handle, suffix, c)
    else
      let (suffix, c) ← readTagPart false c
      let suffix := Tag.ofText (handle.drop 1) ++ suffix
      if suffix.isEmpty then return ([], Tag.ofText "!", c) else return (['!'], suffix, c)

end CachedWorkflow.Yaml
