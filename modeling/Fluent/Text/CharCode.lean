/-!
# Characters by their codes

Escapes write a character as its code to the base sixteen. Not every number is the code of a
character.
-/

namespace Fluent.Text

/-- A digit to the base sixteen, in either case. -/
def isHexDigit (c : Char) : Bool :=
  c.isDigit || ('a' ≤ c && c ≤ 'f') || ('A' ≤ c && c ≤ 'F')

/-- The value of a digit to the base sixteen. -/
def hexDigitValue (c : Char) : Nat :=
  if c.isDigit then c.toNat - '0'.toNat else c.toLower.toNat - 'a'.toNat + 10

/-- The character whose code is written with the first `width` characters of a text. -/
def codedChar? (width : Nat) (text : List Char) : Option Char :=
  let digits := text.take width
  let code := digits.foldl (fun value c => 16 * value + hexDigitValue c) 0
  if digits.length = width ∧ digits.all isHexDigit ∧ code.isValidChar then some (Char.ofNat code)
  else none

end Fluent.Text
