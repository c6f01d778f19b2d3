import CachedWorkflow.Number.Decimal
import CachedWorkflow.Number.Width
import CachedWorkflow.Text.Digits

/-!
# Atoms of a TOML text

Truth values, numbers, dates and times. No setting has such a value, so that it only matters where an
atom ends; each reader gives what is left after its atom.
-/

namespace CachedWorkflow.Toml

/-! ## Numbers -/

/-- Reads digits, between which single underscores may stand: the digits, and what is left. -/
def readDigits (isDigit : Char → Bool) : Text → Text × Text
  | c :: '_' :: d :: rest =>
    if isDigit c && isDigit d then
      let (digits, rest) := readDigits isDigit (d :: rest)
      (c :: digits, rest)
    else if isDigit c then ([c], '_' :: d :: rest)
    else ([], c :: '_' :: d :: rest)
  | c :: rest =>
    if isDigit c then
      let (digits, rest) := readDigits isDigit rest
      (c :: digits, rest)
    else ([], c :: rest)
  | [] => ([], [])

/-- Drops a sign and tells whether it is a minus. -/
def dropSign (text : Text) : Bool × Text :=
  match text with
  | '-' :: rest => (true, rest)
  | '+' :: rest => (false, rest)
  | rest => (false, rest)

/-- Reads the whole part of a number, which has no needless zero in front. -/
def readWhole (text : Text) : Option (Text × Text) :=
  let (digits, rest) := readDigits Char.isDigit text
  if digits.isEmpty || (digits.head? == some '0' && 1 < digits.length) then none
  else some (digits, rest)

/-- Reads the exponent of a number, if there is one; `none` if it has no digits. -/
def readExponent (text : Text) : Option (Option Int × Text) :=
  match text with
  | c :: rest =>
    if c = 'e' ∨ c = 'E' then do
      let (negative, rest) := dropSign rest
      let (digits, rest) := readDigits Char.isDigit rest
      let n ← natOfDigits? 10 digits
      return (some (if negative then -(n : Int) else n), rest)
    else some (none, text)
  | [] => some (none, [])

/-- Reads the fraction of a number, if there is one; `none` if it has no digits. -/
def readFraction (text : Text) : Option (Option Text × Text) :=
  match text with
  | '.' :: rest =>
    let (digits, rest) := readDigits Char.isDigit rest
    if digits.isEmpty then none else some (some digits, rest)
  | _ => some (none, text)

/-- Reads a decimal number. Integers have 64 bits, and numbers with a fraction or an exponent are not
too large for double precision; only those with a minus may be. -/
def readDecimal (text : Text) : Option Text := do
  let (negative, text) := dropSign text
  let (whole, rest) ← readWhole text
  let (fraction, rest) ← readFraction rest
  let (exponent, rest) ← readExponent rest
  let digits ← natOfDigits? 10 (whole ++ fraction.getD [])
  if fraction.isNone && exponent.isNone then
    if fitsSigned negative digits then return rest else none
  else
    let size : Decimal := ⟨digits, exponent.getD 0 - (fraction.getD []).length⟩
    if negative || (size.toBinary64? false).isSome then return rest else none

/-- Reads the digits of an integer in another base. -/
def readInBase (base : Nat) (text : Text) : Option Text :=
  let (digits, rest) := readDigits (fun c => (hexDigit? c).any (· < base)) text
  match natOfDigits? base digits with
  | some n => if fitsSigned false n then some rest else none
  | none => none

/-! ## Dates and times -/

/-- Reads a number of exactly `n` digits. -/
def readFixed (n : Nat) (text : Text) : Option (Nat × Text) := do
  let digits := text.take n
  if digits.length = n ∧ digits.all Char.isDigit then
    return (← natOfDigits? 10 digits, text.drop n)
  else none

/-- Reads a number of two digits between two bounds. -/
def readTwo (least greatest : Nat) (text : Text) : Option (Nat × Text) := do
  let (n, rest) ← readFixed 2 text
  if least ≤ n ∧ n ≤ greatest then some (n, rest) else none

/-- The number of days of a month. -/
def daysOf (year month : Nat) : Nat :=
  if month = 2 then
    if year % 4 = 0 ∧ (year % 100 ≠ 0 ∨ year % 400 = 0) then 29 else 28
  else if month = 4 ∨ month = 6 ∨ month = 9 ∨ month = 11 then 30
  else 31

/-- Reads a date. -/
def readDate (text : Text) : Option Text := do
  let (year, rest) ← readFixed 4 text
  let (month, rest) ← readTwo 1 12 (← Text.after? ['-'] rest)
  let (_, rest) ← readTwo 1 (daysOf year month) (← Text.after? ['-'] rest)
  return rest

/-- Reads a time of the day. -/
def readTime (text : Text) : Option Text := do
  let (_, rest) ← readTwo 0 23 text
  let (_, rest) ← readTwo 0 59 (← Text.after? [':'] rest)
  let (_, rest) ← readTwo 0 60 (← Text.after? [':'] rest)
  match rest with
  | '.' :: fraction =>
    if fraction.head?.any Char.isDigit then return fraction.dropWhile Char.isDigit else none
  | _ => return rest

/-- Reads the offset of a time zone, if there is one. -/
def readOffset (text : Text) : Option Text :=
  match text with
  | c :: rest =>
    if c = 'Z' ∨ c = 'z' then some rest
    else if c = '+' ∨ c = '-' then do
      let (_, rest) ← readTwo 0 23 rest
      let (_, rest) ← readTwo 0 59 (← Text.after? [':'] rest)
      return rest
    else some text
  | [] => some []

/-- Reads a date, a date and a time, or a time. -/
def readDateTime (text : Text) : Option Text :=
  match readDate text with
  | none => readTime text
  | some rest =>
    match rest with
    | c :: time =>
      if c = 'T' ∨ c = 't' ∨ c = ' ' then
        match readTime time with
        | some rest => readOffset rest
        | none => some rest
      else some rest
    | [] => some []

/-! ## Atoms -/

/-- Reads an atom. -/
def readAtom (text : Text) : Option Text :=
  match text with
  | '0' :: 'x' :: rest => readInBase 16 rest
  | '0' :: 'o' :: rest => readInBase 8 rest
  | '0' :: 'b' :: rest => readInBase 2 rest
  | 't' :: 'r' :: 'u' :: 'e' :: rest => some rest
  | 'f' :: 'a' :: 'l' :: 's' :: 'e' :: rest => some rest
  | _ =>
    match (dropSign text).2 with
    | 'i' :: 'n' :: 'f' :: rest => some rest
    | 'n' :: 'a' :: 'n' :: rest => some rest
    | _ => (readDateTime text).orElse fun _ => readDecimal text

end CachedWorkflow.Toml
