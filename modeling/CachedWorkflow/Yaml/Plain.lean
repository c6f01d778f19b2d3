import CachedWorkflow.Number.Decimal
import CachedWorkflow.Number.Width
import CachedWorkflow.Text.Digits
import CachedWorkflow.Yaml.Value

/-!
# The meaning of plain scalars

A scalar without quotes may be a word for null or for a truth value, an integer, or a number with a
fraction or an exponent. Everything else is a string.
-/

namespace CachedWorkflow.Yaml

/-- Whether the scalar is a word for null. -/
def isNullWord (text : Text) : Bool :=
  text == "null" || text == "Null" || text == "NULL" || text == "~"

/-- The truth value that the scalar is a word for. -/
def boolWord? (text : Text) : Option Bool :=
  if text = "true" ∨ text = "True" ∨ text = "TRUE" then some true
  else if text = "false" ∨ text = "False" ∨ text = "FALSE" then some false
  else none

/-! ## Numbers -/

/-- Splits off a sign: whether it is a minus, and the rest. -/
def splitSign (text : Text) : Bool × Text :=
  match text with
  | '-' :: rest => (true, rest)
  | '+' :: rest => (false, rest)
  | rest => (false, rest)

/-- Whether the scalar consists of several digits, the first of them zero, after a sign perhaps. It
looks like a number then, but is a string. -/
def hasLeadingZero (text : Text) : Bool :=
  let digits := (splitSign text).2
  1 < digits.length && digits.head? == some '0' && digits.all Char.isDigit

/-- The integer of a scalar: decimal, or hexadecimal, octal or binary after `0x`, `0o` or `0b`. -/
def integer? (text : Text) : Option Int := do
  let (negative, digits) := splitSign text
  let n ← match digits with
    | '0' :: 'x' :: digits => natOfDigits? 16 digits
    | '0' :: 'o' :: digits => natOfDigits? 8 digits
    | '0' :: 'b' :: digits => natOfDigits? 2 digits
    | digits => if hasLeadingZero digits then none else natOfDigits? 10 digits
  return if negative then -(n : Int) else n

/-- The value of a text of digits, zero if it is empty. -/
def natOfDigits (digits : Text) : Option Nat :=
  if digits.isEmpty then some 0 else natOfDigits? 10 digits

/-- The exponent of a number, after the `e`. -/
def exponent? (text : Text) : Option Int := do
  let (negative, digits) := splitSign text
  let n ← natOfDigits? 10 digits
  return if negative then -(n : Int) else n

/-- The decimal of a scalar without sign: digits with a point before, between or after them, or
without one, and an exponent perhaps. -/
def decimal? (text : Text) : Option Decimal := do
  let mantissa := text.takeWhile fun c => c != 'e' && c != 'E'
  let exponent ← match text.drop mantissa.length with
    | [] => some 0
    | _ :: rest => exponent? rest
  let whole := mantissa.takeWhile (· != '.')
  let fraction := mantissa.drop (whole.length + 1)
  if whole.isEmpty && fraction.isEmpty then none
  else return ⟨← natOfDigits (whole ++ fraction), exponent - fraction.length⟩

/-- Whether the scalar is a word for infinity, without its sign. -/
def isInfinityWord (text : Text) : Bool :=
  text == ".inf" || text == ".Inf" || text == ".INF"

/-- Whether the scalar is a word for what is no number. -/
def isNotANumberWord (text : Text) : Bool :=
  text == ".nan" || text == ".NaN" || text == ".NAN"

/-- The number of a scalar, read as double precision. Numbers that are too large are none. -/
def double? (text : Text) : Option Value :=
  let (negative, size) := splitSign text
  if isInfinityWord size then some (.infinity negative)
  else if isNotANumberWord text then some .notANumber
  else do
    let d ← decimal? size
    return .number (.double (← d.toBinary64? negative))

/-- The value of an integer. Integers of 64 bits, with a sign or without, are exact. There is no value
for longer ones as long as they fit into 128 bits. -/
def integerValue? (n : Int) : Option Value :=
  if fitsBits 64 n then some (.number (.integer n)) else none

/-! ## Scalars -/

/-- The integer of a scalar, if it fits into 128 bits. -/
def longInteger? (text : Text) : Option Int := (integer? text).filter (fitsBits 128)

/-- The value of a plain scalar; `none` if it is an integer for which there is no value. -/
def ofPlain? (text : Text) : Option Value :=
  if text.isEmpty || isNullWord text then some .null
  else
    match boolWord? text with
    | some b => some (.bool b)
    | none =>
      match longInteger? text with
      | some n => integerValue? n
      | none =>
        if hasLeadingZero text then some (.string text)
        else some ((double? text).getD (.string text))

/-- Whether a text must not be written as a plain scalar if it is to be read back as a string, by a
reader that may take several digits after a zero for a number. -/
def looksLikeOther (text : Text) : Bool :=
  hasLeadingZero text ||
    match ofPlain? text with
    | some (.string _) => false
    | _ => true

end CachedWorkflow.Yaml
