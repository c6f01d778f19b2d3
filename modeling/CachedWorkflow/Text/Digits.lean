import CachedWorkflow.Text

/-!
# Digits

Reading and writing numbers in bases up to sixteen.
-/

namespace CachedWorkflow

/-- The value of a hexadecimal digit. -/
def hexDigit? (c : Char) : Option Nat :=
  if '0' ≤ c ∧ c ≤ '9' then some (c.toNat - '0'.toNat)
  else if 'a' ≤ c ∧ c ≤ 'f' then some (c.toNat - 'a'.toNat + 10)
  else if 'A' ≤ c ∧ c ≤ 'F' then some (c.toNat - 'A'.toNat + 10)
  else none

/-- The value of a text of digits in the given base; `none` when it holds anything else or nothing
at all. -/
def natOfDigits? (base : Nat) (text : Text) : Option Nat :=
  if text.isEmpty then none
  else text.foldlM (fun n c => do
    let d ← hexDigit? c
    if d < base then some (n * base + d) else none) 0

/-- The digits of `n` in base sixteen, in the given case and at least `width` of them. -/
def hexDigits (upper : Bool) (width n : Nat) : Text :=
  let digits := Nat.toDigits 16 n
  List.replicate (width - digits.length) '0' ++ (if upper then digits.map Char.toUpper else digits)

end CachedWorkflow
