import Fluent.Format.Options

/-!
# Plain decimals

Numbers are written as plain decimals, never in exponent form. Options set the least and the
greatest number of fraction places, and whether the integer digits stand in groups of three.
-/

namespace Fluent.Format

/-- The most fraction places that options can ask for. -/
def mostPlaces : Nat := 20

/-- The least number of fraction places. -/
def leastFraction (options : Options) : Nat :=
  min mostPlaces ((options.count? "minimumFractionDigits").getD 0)

/-- The greatest number of fraction places, if there is one; never below the least. -/
def greatestFraction? (options : Options) : Option Nat :=
  (options.count? "maximumFractionDigits").map fun places =>
    max (leastFraction options) (min mostPlaces places)

/-- The fraction without the zeros at its end and then filled up with zeros, both no further than
to `least` places. -/
def fitFraction (least : Nat) (fraction : List Char) : List Char :=
  let bare := fraction.take least ++ Text.dropEndWhile (· == '0') (fraction.drop least)
  bare ++ List.replicate (least - bare.length) '0'

/-- The digits with the separator in front of every group of three counted from the right, the
first group apart. -/
def groupDigits (separator : Char) : List Char → List Char
  | [] => []
  | digit :: rest =>
    if rest.length % 3 = 0 ∧ rest ≠ [] then digit :: separator :: groupDigits separator rest
    else digit :: groupDigits separator rest

/-- The text of a double under the options. Integer digits are grouped when there is a separator
and the option `useGrouping` does not forbid it. -/
def decimalText (value : Float) (options : Options) (separator : Option Char) : String :=
  match Number.Binary64.ofFloat value with
  | .finite negative significand exponent =>
    let decimal := match greatestFraction? options with
      | some places => Number.Decimal.rounded negative significand exponent places
      | none => Number.Decimal.shortest negative significand exponent
    let fraction := fitFraction (leastFraction options) decimal.fractionDigits
    let integer := match separator with
      | some separator =>
        if options.flag? "useGrouping" = some false then decimal.integerDigits
        else groupDigits separator decimal.integerDigits
      | none => decimal.integerDigits
    String.ofList ((if negative then ['-'] else []) ++ integer ++
      (if fraction.isEmpty then [] else '.' :: fraction))
  | _ => String.ofList (Number.plainText value)

end Fluent.Format
