import CachedWorkflow.Number.Binary64
import CachedWorkflow.Text

/-!
# Shortest decimal text of a double precision number

The decimal that stands for a number has the fewest digits among those that round to the number,
and among these it is the one nearest to the number. It is written positionally while its point
falls within the digits or close to them, and with an exponent otherwise.
-/

namespace CachedWorkflow

/-- The positive decimal `digits · 10 ^ exponent`. -/
structure Decimal where
  /-- The digits, read as one number. -/
  digits : Nat
  /-- The power of ten that the digits are scaled by. -/
  exponent : Int
  deriving DecidableEq, Repr

namespace Decimal

/-- The decimal as a fraction. -/
def fraction (d : Decimal) : Nat × Nat :=
  if 0 ≤ d.exponent then (d.digits * Nat.pow 10 d.exponent.toNat, 1)
  else (d.digits, Nat.pow 10 (-d.exponent).toNat)

/-- Comparison of fractions with positive denominators. -/
def fractionLt (a b : Nat × Nat) : Bool := a.1 * b.2 < b.1 * a.2

/-- Comparison of fractions with positive denominators. -/
def fractionLe (a b : Nat × Nat) : Bool := a.1 * b.2 ≤ b.1 * a.2

/-- Whether the fraction rounds to `x`: it lies between the midpoints to the two neighbours of `x`,
which themselves round to `x` exactly when its significand is even. -/
def roundsTo (x : Binary64) (value : Nat × Nat) : Bool :=
  let m := x.significand
  let upper := Binary64.scaleTwo (2 * m + 1) 1 (x.exponent - 1)
  let lower :=
    if m = Nat.pow 2 52 ∧ Binary64.leastExponent < x.exponent then
      Binary64.scaleTwo (4 * m - 1) 1 (x.exponent - 2)
    else Binary64.scaleTwo (2 * m - 1) 1 (x.exponent - 1)
  if m % 2 = 0 then fractionLe lower value && fractionLe value upper
  else fractionLt lower value && fractionLt value upper

/-- The position of the leading digit: the greatest `k` with `10 ^ k ≤ num / den`, searched for
downwards from `start`. -/
def leadingPower (num den : Nat) : Nat → Int → Int
  | 0, start => start
  | steps + 1, start =>
    if fractionLe (fraction ⟨1, start⟩) (num, den) then start
    else leadingPower num den steps (start - 1)

/-- The better of the two multiples of `10 ^ k` around `x`, if one of them rounds to `x`. -/
def candidate (x : Binary64) (k : Int) : Option Decimal :=
  let v := x.magnitude
  let scaled := if 0 ≤ k then (v.1, v.2 * Nat.pow 10 k.toNat) else (v.1 * Nat.pow 10 (-k).toNat, v.2)
  let d := scaled.1 / scaled.2
  let below : Decimal := ⟨d, k⟩
  let above : Decimal := ⟨d + 1, k⟩
  match roundsTo x below.fraction, roundsTo x above.fraction with
  | false, false => none
  | true, false => some below
  | false, true => some above
  | true, true => some ⟨Binary64.roundDiv scaled.1 scaled.2, k⟩

/-- The first candidate on grids of more and more digits. -/
def shortestFrom (x : Binary64) (lead : Int) : (grids : List Nat) → Decimal
  | [] => ⟨0, 0⟩
  | n :: grids =>
    match candidate x (lead - n) with
    | some d => d
    | none => shortestFrom x lead grids

/-- The decimal with the fewest digits that rounds to `x`, the nearest of those; zero for zero.
Seventeen digits always suffice. -/
def shortest (x : Binary64) : Decimal :=
  if x.significand = 0 then ⟨0, 0⟩
  else
    let v := x.magnitude
    shortestFrom x (leadingPower v.1 v.2 640 309) (List.range 17)

/-- Writes the decimal. With the point `p` places after the first digit it is positional for
`-5 < p ≤ 16`, always with a fraction, and otherwise has an exponent without sign or padding. -/
def toText (d : Decimal) : Text :=
  let digits := Text.ofNat d.digits
  let point : Int := digits.length + d.exponent
  if 0 ≤ d.exponent ∧ point ≤ 16 then
    digits ++ List.replicate d.exponent.toNat '0' ++ ".0"
  else if 0 < point ∧ point ≤ 16 then
    digits.take point.toNat ++ "." ++ digits.drop point.toNat
  else if -5 < point ∧ point ≤ 0 then
    "0." ++ List.replicate (-point).toNat '0' ++ digits
  else
    let fraction := digits.drop 1
    digits.take 1 ++ (if fraction.isEmpty then [] else '.' :: fraction)
      ++ "e" ++ Text.ofInt (point - 1)

end Decimal

/-- The shortest decimal text of a double precision number. -/
def Binary64.toText (x : Binary64) : Text :=
  (if x.negative then "-" else "") ++ (Decimal.shortest x).toText

end CachedWorkflow
