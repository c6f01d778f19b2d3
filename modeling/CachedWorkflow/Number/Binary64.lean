/-!
# Double precision numbers

A finite binary floating point number with a significand of 53 bits, as an exact value: a sign, a
significand `m` and an exponent `q` standing for `m · 2 ^ q`. Rounding is exact integer arithmetic,
so that nothing here depends on the floating point unit of a machine.
-/

namespace CachedWorkflow

/-- The value `± significand · 2 ^ exponent`. Numbers made by `Binary64.nearest` are canonical: the
significand is below `2 ^ 53` and, unless the exponent is the least one, at least `2 ^ 52`. -/
structure Binary64 where
  /-- Whether the number carries a minus sign; zero has one of each sign. -/
  negative : Bool
  significand : Nat
  /-- The power of two that the significand is scaled by. -/
  exponent : Int
  deriving DecidableEq, Repr

namespace Binary64

/-- The least exponent; the numbers at it may have a short significand. -/
def leastExponent : Int := -1074

/-- The greatest exponent of a finite number. -/
def greatestExponent : Int := 971

/-- `n · 2 ^ e`, for an exponent of either sign, as a fraction. -/
def scaleTwo (num den : Nat) (e : Int) : Nat × Nat :=
  if 0 ≤ e then (num * Nat.pow 2 e.toNat, den) else (num, den * Nat.pow 2 (-e).toNat)

/-- `num / den` rounded to the nearest natural number, a half going to the even neighbour. -/
def roundDiv (num den : Nat) : Nat :=
  let q := num / den
  let r := num % den
  if 2 * r < den then q
  else if den < 2 * r then q + 1
  else if q % 2 = 0 then q else q + 1

/-- The exponent at which the significand of `num / den` has 53 bits before rounding, or the least
exponent if that is greater. -/
def exponentOf (num den : Nat) : Int :=
  let guess : Int := (Nat.log2 num : Int) - Nat.log2 den - 52
  let scaled := scaleTwo num den (-guess)
  let exact := if scaled.1 < scaled.2 * Nat.pow 2 52 then guess - 1 else guess
  max leastExponent exact

/-- The number nearest to `± num / den`, a tie going to the even significand; `none` when the value
is too large to be finite. -/
def nearest (negative : Bool) (num den : Nat) : Option Binary64 :=
  if num = 0 then some ⟨negative, 0, leastExponent⟩
  else
    let e := exponentOf num den
    let scaled := scaleTwo num den (-e)
    let m := roundDiv scaled.1 scaled.2
    let (m, e) := if m = Nat.pow 2 53 then (Nat.pow 2 52, e + 1) else (m, e)
    if greatestExponent < e then none else some ⟨negative, m, e⟩

/-- The absolute value as a fraction. -/
def magnitude (x : Binary64) : Nat × Nat := scaleTwo x.significand 1 x.exponent

end Binary64

end CachedWorkflow
