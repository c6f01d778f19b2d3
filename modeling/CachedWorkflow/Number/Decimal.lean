import CachedWorkflow.Number.Shortest

/-!
# Reading decimals

The double precision number nearest to a decimal with any number of digits and any exponent.
-/

namespace CachedWorkflow.Decimal

/-- The nearest double precision number; `none` when the decimal is too large. A number of `n` digits
is at least `10 ^ (n - 1)` and less than `10 ^ n`, so that decimals far outside of the range are found
without computing their value. -/
def toBinary64? (negative : Bool) (d : Decimal) : Option Binary64 :=
  let top : Int := (Text.ofNat d.digits).length + d.exponent
  if d.digits = 0 ∨ top < -400 then Binary64.nearest negative 0 1
  else if 400 < top then none
  else if 0 ≤ d.exponent then Binary64.nearest negative (d.digits * Nat.pow 10 d.exponent.toNat) 1
  else Binary64.nearest negative d.digits (Nat.pow 10 (-d.exponent).toNat)

end CachedWorkflow.Decimal
