/-!
# Widths of integers

How many bits an integer takes. Powers are written with `Nat.pow`, so that they are those of the natural
numbers whatever else is known about powers.
-/

namespace CachedWorkflow

/-- Whether an integer has at most the given number of bits, with a sign or without one. -/
def fitsBits (bits : Nat) (n : Int) : Bool :=
  -(Nat.pow 2 (bits - 1) : Nat) ≤ n && n < (Nat.pow 2 bits : Nat)

/-- Whether a sign and a natural number make a signed integer of 64 bits. -/
def fitsSigned (negative : Bool) (n : Nat) : Bool :=
  n < Nat.pow 2 63 || (negative && n == Nat.pow 2 63)

end CachedWorkflow
