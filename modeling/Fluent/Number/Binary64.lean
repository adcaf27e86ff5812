/-!
# Doubles taken apart

A finite double is a sign, a whole significand and a power of two, read from its bits. All exact
statements about numbers (their decimal digits, their whole part) are made on these parts.
-/

namespace Fluent.Number

/-- The parts of a double. A finite one stands for `significand * 2 ^ exponent`, with its sign. -/
inductive Binary64 where
  | nan
  | infinite (negative : Bool)
  | finite (negative : Bool) (significand : Nat) (exponent : Int)
  deriving DecidableEq, Repr

namespace Binary64

/-- The least significand of a normal double: two to the fifty-second. -/
def leastNormal : Nat := Nat.pow 2 52

/-- The parts of a double, from its bits: one of sign, eleven of exponent, fifty-two of fraction. -/
def ofFloat (x : Float) : Binary64 :=
  let bits := x.toBits.toNat
  let negative := bits / leastNormal / 2048 == 1
  let biased : Nat := bits / leastNormal % 2048
  let fraction : Nat := bits % leastNormal
  if biased = 2047 then
    if fraction = 0 then .infinite negative else .nan
  else if biased = 0 then .finite negative fraction (-1074)
  else .finite negative (leastNormal + fraction) (biased - 1075)

/-- The whole number nearest to the magnitude from below. -/
def floor (significand : Nat) (exponent : Int) : Nat :=
  if 0 ≤ exponent then significand * Nat.pow 2 exponent.toNat
  else significand / Nat.pow 2 (-exponent).toNat

end Binary64

/-- `value` moved to the nearest end of `low` to `high` when it lies outside. -/
def clamp (low high value : Int) : Int := max low (min high value)

/-- The double without its fraction, as a 64-bit count: negative numbers give zero, too large ones
the largest count, and what is no number gives zero. -/
def toCount (x : Float) : Nat :=
  match Binary64.ofFloat x with
  | .nan => 0
  | .infinite negative => if negative then 0 else UInt64.size - 1
  | .finite negative significand exponent =>
    if negative then 0 else min (UInt64.size - 1) (Binary64.floor significand exponent)

/-- The double without its fraction, as a signed 64-bit whole number; too large magnitudes give the
nearest end of the range, and what is no number gives zero. -/
def toWhole (x : Float) : Int :=
  match Binary64.ofFloat x with
  | .nan => 0
  | .infinite negative => if negative then Int64.minValue.toInt else Int64.maxValue.toInt
  | .finite negative significand exponent =>
    let magnitude : Int := Binary64.floor significand exponent
    clamp Int64.minValue.toInt Int64.maxValue.toInt (if negative then -magnitude else magnitude)

end Fluent.Number
