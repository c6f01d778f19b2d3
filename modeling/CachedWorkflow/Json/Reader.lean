import CachedWorkflow.Json.Basic
import CachedWorkflow.Number.Width
import CachedWorkflow.Text.Digits

/-!
# Reading JSON text

`Json.ofText?` reads one JSON value. Objects keep the order of their keys; of a repeated key the
last value stands at the first place.

An integer that fits into 64 bits, signed or unsigned, is kept exactly. Any other number is double
precision: as many of its leading digits as fit into 64 bits are rounded to a double, which is then
scaled by a power of ten (itself a double) and rounded once more.
-/

namespace CachedWorkflow

namespace Json

/-- Drops the blanks that may stand between the tokens of JSON. -/
def skipBlanks (text : Text) : Text :=
  text.dropWhile fun c => c = ' ' || c = '\n' || c = '\t' || c = '\r'

/-! ## Numbers -/

/-- The digits of a number that have been taken in so far: a value below `2 ^ 64` and the power of
ten that it has to be scaled by. -/
structure Significand where
  /-- The leading digits, read as one number. -/
  value : Nat
  exponent : Int
  /-- Whether a digit did not fit any more, after which none is taken in. -/
  full : Bool

/-- Takes in one digit before the point. A digit that does not fit only raises the exponent. -/
def Significand.pushWhole (s : Significand) (d : Nat) : Significand :=
  if s.full || Nat.pow 2 64 ≤ s.value * 10 + d then { s with exponent := s.exponent + 1, full := true }
  else { s with value := s.value * 10 + d }

/-- Takes in one digit after the point. A digit that does not fit is ignored. -/
def Significand.pushFraction (s : Significand) (d : Nat) : Significand :=
  if s.full || Nat.pow 2 64 ≤ s.value * 10 + d then { s with full := true }
  else { s with value := s.value * 10 + d, exponent := s.exponent - 1 }

/-- The values of the digits of a text. -/
def digitValues (digits : Text) : List Nat := digits.filterMap hexDigit?

/-- Divides a double by a power of ten with at most 308 zeros and rounds. -/
def divideByPower (x : Binary64) (n : Nat) : Option Binary64 := do
  let power ← Binary64.nearest false (Nat.pow 10 n) 1
  let (a, b) := x.magnitude
  let (c, d) := power.magnitude
  Binary64.nearest false (a * d) (b * c)

/-- Multiplies a double by a power of ten and rounds. -/
def multiplyByPower (x : Binary64) (n : Nat) : Option Binary64 := do
  let power ← Binary64.nearest false (Nat.pow 10 n) 1
  let (a, b) := x.magnitude
  let (c, d) := power.magnitude
  Binary64.nearest false (a * c) (b * d)

/-- Divides by `10 ^ 308` a number of times. -/
def divideRepeatedly (x : Binary64) : Nat → Option Binary64
  | 0 => some x
  | n + 1 => do divideRepeatedly (← divideByPower x 308) n

/-- The double that stands for `value · 10 ^ exponent`, reached in two roundings. -/
def scaledDouble (value : Nat) (exponent : Int) : Option Binary64 := do
  let x ← Binary64.nearest false value 1
  if value = 0 then some x
  else if 0 ≤ exponent then
    if 308 < exponent then none else multiplyByPower x exponent.toNat
  else
    let n := (-exponent).toNat
    let times := (n - 1) / 308
    divideByPower (← divideRepeatedly x (min times 4)) (if 4 < times then 308 else n - 308 * times)

/-- The number with the given sign, digits before and after the point, and exponent. -/
def numberOf (negative : Bool) (whole : Text) (fraction : Option Text) (exponent : Option Int) :
    Option Number :=
  let s := (digitValues whole).foldl Significand.pushWhole ⟨0, 0, false⟩
  let integer : Int := if negative then -s.value else s.value
  if fraction.isNone && exponent.isNone && !s.full && fitsBits 64 integer
      && !(negative && s.value == 0) then
    some (.integer integer)
  else do
    let s := (digitValues (fraction.getD [])).foldl Significand.pushFraction { s with full := false }
    let x ← scaledDouble s.value (s.exponent + exponent.getD 0)
    some (.double { x with negative := negative })

/-- Splits off the leading decimal digits. -/
def spanDigits (text : Text) : Text × Text := (text.takeWhile Char.isDigit, text.dropWhile Char.isDigit)

/-- Reads an exponent, if one begins the text; `none` when it has no digits. -/
def readExponent (text : Text) : Option (Option Int × Text) :=
  match text with
  | c :: rest =>
    if c = 'e' ∨ c = 'E' then
      let (negative, rest) := match rest with
        | '-' :: rest => (true, rest)
        | '+' :: rest => (false, rest)
        | rest => (false, rest)
      let (digits, rest) := spanDigits rest
      (natOfDigits? 10 digits).map fun n => (some (if negative then -(n : Int) else n), rest)
    else some (none, text)
  | [] => some (none, [])

/-- Reads a fraction, if a point begins the text; `none` when it has no digits. -/
def readFraction (text : Text) : Option (Option Text × Text) :=
  match text with
  | '.' :: rest =>
    let (digits, rest) := spanDigits rest
    if digits.isEmpty then none else some (some digits, rest)
  | _ => some (none, text)

/-- Reads a number. A whole part of several digits does not begin with zero. -/
def readNumber (text : Text) : Option (Number × Text) := do
  let (negative, text) := match text with
    | '-' :: rest => (true, rest)
    | _ => (false, text)
  let (whole, text) := spanDigits text
  if whole.isEmpty || (whole.head? == some '0' && 1 < whole.length) then none
  else
    let (fraction, text) ← readFraction text
    let (exponent, text) ← readExponent text
    (numberOf negative whole fraction exponent).map fun n => (n, text)

/-! ## Strings -/

/-- The character that a one-letter escape stands for. -/
def escapeChar? (c : Char) : Option Char :=
  match c with
  | '"' => some '"'
  | '\\' => some '\\'
  | '/' => some '/'
  | 'b' => some '\x08'
  | 'f' => some '\x0c'
  | 'n' => some '\n'
  | 'r' => some '\r'
  | 't' => some '\t'
  | _ => none

/-- The character of one or two UTF-16 units; a surrogate must be one of a pair. -/
def charOfUnits? (high : Nat) (low : Option Nat) : Option Char :=
  match low with
  | none =>
    if 0xD800 ≤ high ∧ high ≤ 0xDFFF then none else some (Char.ofNat high)
  | some low =>
    if 0xDC00 ≤ low ∧ low ≤ 0xDFFF then
      some (Char.ofNat (0x10000 + (high - 0xD800) * 0x400 + (low - 0xDC00)))
    else none

/-- Reads a string up to its closing quote, after the opening one. -/
def readString : Text → Option (Text × Text)
  | [] => none
  | '"' :: rest => some ([], rest)
  | '\\' :: 'u' :: a :: b :: c :: d :: '\\' :: 'u' :: e :: f :: g :: h :: rest => do
    let high ← natOfDigits? 16 [a, b, c, d]
    if 0xD800 ≤ high ∧ high ≤ 0xDBFF then
      let low ← natOfDigits? 16 [e, f, g, h]
      let ch ← charOfUnits? high (some low)
      (readString rest).map fun (s, rest) => (ch :: s, rest)
    else
      let ch ← charOfUnits? high none
      (readString ('\\' :: 'u' :: e :: f :: g :: h :: rest)).map fun (s, rest) => (ch :: s, rest)
  | '\\' :: 'u' :: a :: b :: c :: d :: rest => do
    let unit ← natOfDigits? 16 [a, b, c, d]
    let ch ← charOfUnits? unit none
    (readString rest).map fun (s, rest) => (ch :: s, rest)
  | '\\' :: c :: rest => do
    let ch ← escapeChar? c
    (readString rest).map fun (s, rest) => (ch :: s, rest)
  | c :: rest =>
    if c.toNat < 0x20 ∨ c = '\\' then none
    else (readString rest).map fun (s, rest) => (c :: s, rest)

/-! ## Values -/

mutual

/-- Reads a value; `depth` bounds the recursion. -/
def readValue : (depth : Nat) → Text → Option (Json × Text)
  | 0, _ => none
  | depth + 1, text =>
    match skipBlanks text with
    | 'n' :: 'u' :: 'l' :: 'l' :: rest => some (.null, rest)
    | 't' :: 'r' :: 'u' :: 'e' :: rest => some (.bool true, rest)
    | 'f' :: 'a' :: 'l' :: 's' :: 'e' :: rest => some (.bool false, rest)
    | '"' :: rest => (readString rest).map fun (s, rest) => (.string s, rest)
    | '[' :: rest =>
      match skipBlanks rest with
      | ']' :: rest => some (.array [], rest)
      | rest => (readItems depth rest).map fun (items, rest) => (.array items, rest)
    | '{' :: rest =>
      match skipBlanks rest with
      | '}' :: rest => some (.object [], rest)
      | rest =>
        (readFields depth rest).map fun (fields, rest) => (.object (Object.insertAll [] fields), rest)
    | rest => (readNumber rest).map fun (n, rest) => (.number n, rest)

/-- Reads the items of an array that has at least one, and its closing bracket. -/
def readItems : (depth : Nat) → Text → Option (List Json × Text)
  | 0, _ => none
  | depth + 1, text => do
    let (item, rest) ← readValue depth text
    match skipBlanks rest with
    | ',' :: rest => (readItems depth rest).map fun (items, rest) => (item :: items, rest)
    | ']' :: rest => some ([item], rest)
    | _ => none

/-- Reads the entries of an object that has at least one, and its closing brace. -/
def readFields : (depth : Nat) → Text → Option (List (Text × Json) × Text)
  | 0, _ => none
  | depth + 1, text => do
    match skipBlanks text with
    | '"' :: rest =>
      let (key, rest) ← readString rest
      match skipBlanks rest with
      | ':' :: rest =>
        let (value, rest) ← readValue depth rest
        match skipBlanks rest with
        | ',' :: rest =>
          (readFields depth rest).map fun (fields, rest) => ((key, value) :: fields, rest)
        | '}' :: rest => some ([(key, value)], rest)
        | _ => none
      | _ => none
    | _ => none

end

/-- The value that a JSON text stands for. Each step of the reader but the first of a value takes in
a character, so twice the length of the text bounds the recursion. -/
def ofText? (text : Text) : Option Json := do
  let (value, rest) ← readValue (2 * text.length + 1) text
  if (skipBlanks rest).isEmpty then some value else none

end Json

end CachedWorkflow
