import Fluent.Number.Binary64

/-!
# Numbers read from text

A decimal text is read as the double nearest to it. `readFloat?` takes an optional sign and then
digits with an optional point and exponent, or the name of infinity or of the value that is no
number; `readCount?` takes a count of at most 64 bits.
-/

namespace Fluent.Number

/-- The value of a text of digits. -/
def digitsValue (digits : List Char) : Nat :=
  digits.foldl (fun value c => 10 * value + (c.toNat - '0'.toNat)) 0

/-- The double nearest to the digits before and after the point, times a power of ten. What is not
zero is infinite from `10 ^ 310` on, and nothing below `10 ^ -330` is told from zero, so that no
power beyond those is computed. -/
def nearestFloat (whole fraction : List Char) (tens : Int) : Float :=
  let digits := whole ++ fraction
  let value := digitsValue digits
  let exponent := tens - fraction.length
  if value = 0 ∨ exponent + digits.length < -330 then 0
  else if 310 < exponent then Float.ofBits 0x7ff0000000000000
  else Float.ofScientific value (exponent < 0) exponent.natAbs

/-- The exponent part: nothing, or `e` and a whole number with an optional sign. -/
def readExponent? : List Char → Option Int
  | [] => some 0
  | c :: rest =>
    if c = 'e' ∨ c = 'E' then
      let (negative, digits) := match rest with
        | '-' :: digits => (true, digits)
        | '+' :: digits => (false, digits)
        | digits => (false, digits)
      if digits.isEmpty || !digits.all Char.isDigit then none
      else some (if negative then -digitsValue digits else digitsValue digits)
    else none

/-- Digits with an optional point and exponent; at least one digit stands before the exponent. -/
def readDecimal? (text : List Char) : Option Float :=
  let whole := text.takeWhile Char.isDigit
  let (fraction, rest) := match text.dropWhile Char.isDigit with
    | '.' :: rest => (rest.takeWhile Char.isDigit, rest.dropWhile Char.isDigit)
    | rest => ([], rest)
  if whole.isEmpty && fraction.isEmpty then none
  else (readExponent? rest).map (nearestFloat whole fraction)

/-- A number without its sign; names are read in either case. -/
def readMagnitude? (text : List Char) : Option Float :=
  let name := text.map Char.toLower
  if name = ['i', 'n', 'f'] ∨ name = ['i', 'n', 'f', 'i', 'n', 'i', 't', 'y'] then
    some (Float.ofBits 0x7ff0000000000000)
  else if name = ['n', 'a', 'n'] then some (Float.ofBits 0x7ff8000000000000)
  else readDecimal? text

/-- The double that a whole text stands for, if it stands for one. -/
def readFloat? : List Char → Option Float
  | '-' :: rest => (readMagnitude? rest).map Float.neg
  | '+' :: rest => readMagnitude? rest
  | text => readMagnitude? text

/-- The count that a whole text stands for: digits after an optional plus sign, below `2 ^ 64`. -/
def readCount? (text : List Char) : Option Nat :=
  let digits := match text with
    | '+' :: digits => digits
    | digits => digits
  if digits.isEmpty || !digits.all Char.isDigit then none
  else
    let value := digitsValue digits
    if value < UInt64.size then some value else none

end Fluent.Number
