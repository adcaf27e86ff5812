import Fluent.Number.Binary64

/-!
# Decimals

A decimal is a sign and a whole number over a power of ten. A finite double is written as one of two
decimals: the shortest that reads back as the double, or the nearest with a given number of fraction
places. Both are found by exact arithmetic on the double's significand and exponent.
-/

namespace Fluent.Number

/-- The number `scaled / 10 ^ places`, with its sign; zero has a sign too. -/
structure Decimal where
  negative : Bool
  scaled : Nat
  places : Nat
  deriving DecidableEq, Repr

namespace Decimal

/-- The digits left of the point. -/
def integerDigits (d : Decimal) : List Char := Nat.toDigits 10 (d.scaled / Nat.pow 10 d.places)

/-- The digits right of the point, as many as there are places. -/
def fractionDigits (d : Decimal) : List Char :=
  if d.places = 0 then []
  else List.leftpad d.places '0' (Nat.toDigits 10 (d.scaled % Nat.pow 10 d.places))

/-- The text of a decimal: a minus sign if it is negative, the integer digits and, when there are
places, a point and the fraction digits. -/
def text (d : Decimal) : List Char :=
  (if d.negative then ['-'] else []) ++ d.integerDigits ++
    (if d.places = 0 then [] else '.' :: d.fractionDigits)

/-- The whole number nearest to `numerator / denominator`; halves go to the even neighbour. -/
def roundHalfEven (numerator denominator : Nat) : Nat :=
  let quotient := numerator / denominator
  let rest := numerator % denominator
  if 2 * rest < denominator then quotient
  else if denominator < 2 * rest then quotient + 1
  else if quotient % 2 = 0 then quotient
  else quotient + 1

/-- The magnitude `significand * 2 ^ exponent * 10 ^ tens` as a numerator and a denominator. -/
def ratio (significand : Nat) (exponent tens : Int) : Nat × Nat :=
  (significand * Nat.pow 2 exponent.toNat * Nat.pow 10 tens.toNat,
    Nat.pow 2 (-exponent).toNat * Nat.pow 10 (-tens).toNat)

/-- The decimal with `places` fraction places nearest to a finite double; halves go to the even
neighbour. -/
def rounded (negative : Bool) (significand : Nat) (exponent : Int) (places : Nat) : Decimal :=
  let (numerator, denominator) := ratio significand exponent places
  { negative, scaled := roundHalfEven numerator denominator, places }

end Decimal

/-- The number `digits * 10 ^ exponent`, without a sign. -/
structure Digits where
  digits : Nat
  exponent : Int
  deriving DecidableEq, Repr

namespace Digits

/-- The magnitudes that read as `significand * 2 ^ exponent`, in quarters of `2 ^ exponent`: from
half a step below to half a step above. The step below is half as wide at a power of two. The ends
belong to it when the significand is even. -/
structure Interval where
  low : Nat
  high : Nat
  closed : Bool

/-- The interval of the magnitudes that read as the given double. -/
def interval (significand : Nat) (exponent : Int) : Interval where
  low := if significand = Binary64.leastNormal ∧ -1074 < exponent then 4 * significand - 1
    else 4 * significand - 2
  high := 4 * significand + 2
  closed := significand % 2 == 0

/-- Whether `multiple * 10 ^ tens` lies in the interval around a double of the given exponent. -/
def Interval.holds (range : Interval) (exponent tens : Int) (multiple : Nat) : Bool :=
  let (numerator, denominator) := Decimal.ratio multiple (2 - exponent) tens
  if range.closed then
    range.low * denominator ≤ numerator && numerator ≤ range.high * denominator
  else range.low * denominator < numerator && numerator < range.high * denominator

/-- The nearest multiple of `10 ^ tens` that reads as the given double, if there is one. Of two at
the same distance the larger is taken. -/
def onGrid (significand : Nat) (exponent tens : Int) : Option Nat :=
  let range := interval significand exponent
  let (numerator, denominator) := Decimal.ratio significand exponent (-tens)
  let below := numerator / denominator
  let lower := range.holds exponent tens below
  let upper := range.holds exponent tens (below + 1)
  if lower && upper then
    if 2 * (numerator % denominator) < denominator then some below else some (below + 1)
  else if lower then some below
  else if upper then some (below + 1)
  else none

/-- The first hit on the grids of `10 ^ tens`, `10 ^ (tens - 1)` and so on, `grids` of them; zero
when there is none. -/
def firstHit (significand : Nat) (exponent : Int) : Nat → Int → Digits
  | 0, _ => ⟨0, 0⟩
  | grids + 1, tens =>
    match onGrid significand exponent tens with
    | some digits => ⟨digits, tens⟩
    | none => firstHit significand exponent grids (tens - 1)

/-- A power of ten above every magnitude that reads as the given double. -/
def coarsest (significand : Nat) (exponent : Int) : Int :=
  let bits : Int := Nat.log2 significand + exponent + 2
  if 0 ≤ bits then bits * 31 / 100 + 1 else -(-bits * 30 / 100) + 1

/-- The fewest digits that read as the given double, on the coarsest decimal grid that has such a
number. The grid of `10 ^ -1074` holds every finite double, so the search ends on one. -/
def shortest (significand : Nat) (exponent : Int) : Digits :=
  if significand = 0 then ⟨0, 0⟩
  else
    let tens := coarsest significand exponent
    firstHit significand exponent (tens + 1075).toNat tens

/-- The decimal of a sign and digits, with as few places as they need. -/
def toDecimal (negative : Bool) (d : Digits) : Decimal where
  negative
  scaled := d.digits * Nat.pow 10 d.exponent.toNat
  places := (-d.exponent).toNat

end Digits

/-- The shortest decimal that reads back as a finite double. -/
def Decimal.shortest (negative : Bool) (significand : Nat) (exponent : Int) : Decimal :=
  (Digits.shortest significand exponent).toDecimal negative

/-- The text of an infinity. -/
def infinityText (negative : Bool) : List Char :=
  if negative then ['-', 'i', 'n', 'f'] else ['i', 'n', 'f']

/-- The plain text of a double: its shortest decimal, never in exponent form. -/
def plainText (x : Float) : List Char :=
  match Binary64.ofFloat x with
  | .nan => ['N', 'a', 'N']
  | .infinite negative => infinityText negative
  | .finite negative significand exponent =>
    (Decimal.shortest negative significand exponent).text

/-- The text of a whole number. -/
def wholeText (n : Int) : List Char :=
  if n < 0 then '-' :: Nat.toDigits 10 n.natAbs else Nat.toDigits 10 n.natAbs

/-- The digits with the point after the first one and the exponent that belongs to it. -/
def exponentText (negative : Bool) (d : Digits) : List Char :=
  let digits := Nat.toDigits 10 d.digits
  let fraction := digits.drop 1
  (if negative then ['-'] else []) ++ digits.take 1 ++
    (if fraction.isEmpty then [] else '.' :: fraction) ++
    'e' :: wholeText (d.exponent + (digits.length - 1))

/-- The marked text of a double, which always shows that the number need not be whole: magnitudes
from `10 ^ 16` on and those below `10 ^ -4`, zero apart, are in exponent form; the others have a
point and at least one fraction digit. -/
def markedText (x : Float) : List Char :=
  match Binary64.ofFloat x with
  | .nan => ['N', 'a', 'N']
  | .infinite negative => infinityText negative
  | .finite negative significand exponent =>
    let d := Digits.shortest significand exponent
    let width : Int := d.exponent + (Nat.toDigits 10 d.digits).length
    if significand ≠ 0 ∧ (16 < width ∨ width < -3) then exponentText negative d
    else
      let decimal := d.toDecimal negative
      if decimal.places = 0 then decimal.text ++ ['.', '0'] else decimal.text

end Fluent.Number
