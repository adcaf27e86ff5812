import Fluent.Format.Decimal
import Fluent.Proofs.Number.Fewest
import Fluent.Proofs.Number.MarkedText
import Fluent.Proofs.Soundness.Token

/-!
# What plain decimals stand for

The text of a double has a sign, integer digits in groups or without, and a fraction between the
least and the greatest number of places, without zeros that the least does not ask for. Without the
separators it is read as the double itself, rounded or in its fewest digits.

* `readPlain`: the number that a text stands for;
* `roundHalfEven_nearest`: rounded to a whole number;
* `fitFraction_fits`, `value_fitFraction`: fractions;
* `groupDigits_groups`, `filter_groupDigits`: integer digits in groups;
* `decimalText_stands`: the text as a whole.
-/

namespace Fluent.Number

/-! ## Reading -/

/-- The number that digits with a point among them stand for. -/
def readMagnitude (text : List Char) : ℚ :=
  let fraction := (text.dropWhile (· != '.')).drop 1
  digitsValue (text.takeWhile (· != '.') ++ fraction) / 10 ^ fraction.length

/-- The number that a plain decimal stands for. -/
def readPlain : List Char → ℚ
  | '-' :: text => -readMagnitude text
  | text => readMagnitude text

namespace Written

variable {w : Written}

theorem tail_plain (plain : w.tens = none) :
    w.tail = if w.fraction.isEmpty then [] else '.' :: w.fraction := by
  rw [tail, plain]
  exact List.append_nil _

theorem text_plain (plain : w.tens = none) :
    w.text = (if w.negative then ['-'] else []) ++ w.whole ++
      (if w.fraction.isEmpty then [] else '.' :: w.fraction) := by
  rw [text, tail_plain plain, List.append_assoc]

theorem readMagnitude_eq (proper : w.Proper) (plain : w.tens = none) :
    readMagnitude (w.whole ++ w.tail) = w.magnitude := by
  have digits : w.whole.all (· != '.') = true := by
    refine List.all_eq_true.mpr fun c member => ?_
    have digit := List.all_eq_true.mp proper.whole c member
    rw [bne_iff_ne]
    rintro rfl
    cases digit
  have point : w.tail.head?.any (· != '.') = false := by
    rw [tail_plain plain]
    split <;> rfl
  have fraction : w.tail.drop 1 = w.fraction := by
    rw [tail_plain plain]
    split
    · exact (List.isEmpty_iff.mp ‹_›).symm
    · rfl
  rw [readMagnitude, Grammar.takeWhile_run digits point, Grammar.dropWhile_run digits point,
    fraction, magnitude, plain, Option.getD_none, zero_sub, zpow_neg, zpow_natCast, div_eq_mul_inv]

/-- A plain decimal is read as its magnitude, with its sign. -/
theorem readPlain_text (proper : w.Proper) (plain : w.tens = none) :
    readPlain w.text = if w.negative then -w.magnitude else w.magnitude := by
  have value := readMagnitude_eq proper plain
  rw [text, ← value]
  cases w.negative with
  | true => rfl
  | false =>
    obtain ⟨c, rest, starts, digit⟩ := proper.starts
    rw [starts]
    change readPlain (c :: rest) = readMagnitude (c :: rest)
    unfold readPlain
    split
    · rename_i text same
      exact absurd (starts.trans same) (proper.unsigned text)
    · rfl

end Written

/-! ## Rounding -/

/-- A whole number nearest to a magnitude; of two that are as near, the even one. -/
structure NearestWhole (q : ℚ) (n : Nat) : Prop where
  near : |q - n| ≤ 1 / 2
  tie : |q - n| = 1 / 2 → Even n

theorem roundHalfEven_nearest (numerator : Nat) {denominator : Nat} (pos : 0 < denominator) :
    NearestWhole (numerator / denominator) (Decimal.roundHalfEven numerator denominator) := by
  have pos' : (0 : ℚ) < denominator := Nat.cast_pos.mpr pos
  have small := Nat.mod_lt numerator pos
  have value : (numerator : ℚ) / denominator =
      (numerator / denominator : Nat) + (numerator % denominator : Nat) / denominator := by
    rw [div_eq_iff pos'.ne', add_mul, div_mul_cancel₀ _ pos'.ne']
    exact_mod_cast (Nat.div_add_mod' numerator denominator).symm
  rw [Decimal.roundHalfEven, value]
  generalize numerator / denominator = quotient
  generalize numerator % denominator = rest at small
  have nonneg : (0 : ℚ) ≤ rest / denominator := by positivity
  have below : (rest : ℚ) / denominator < 1 := by
    rw [div_lt_one pos']
    exact_mod_cast small
  have half : 2 * rest < denominator ↔ (rest : ℚ) / denominator < 1 / 2 := by
    rw [div_lt_div_iff₀ pos' two_pos, one_mul, mul_comm 2 rest]
    norm_cast
  have half' : denominator < 2 * rest ↔ 1 / 2 < (rest : ℚ) / denominator := by
    rw [div_lt_div_iff₀ two_pos pos', one_mul, mul_comm 2 rest]
    norm_cast
  generalize (rest : ℚ) / denominator = part at *
  have down : |(quotient : ℚ) + part - quotient| = part := by
    rw [add_sub_cancel_left, abs_of_nonneg nonneg]
  have up : |(quotient : ℚ) + part - (quotient + 1 : Nat)| = 1 - part := by
    push_cast
    rw [abs_of_nonpos (by linarith)]
    ring
  simp only [half, half']
  split
  · exact ⟨by linarith, fun same => by linarith⟩
  · split
    · exact ⟨by linarith, fun same => by linarith⟩
    · split
      · exact ⟨by linarith, fun _ => Nat.even_iff.mpr ‹_›⟩
      · exact ⟨by linarith, fun _ => Nat.even_iff.mpr (by omega)⟩

end Fluent.Number

namespace Fluent.Format

open Number (Binary64 Decimal Digits Written digitsValue digitsValue_append)

/-! ## Fractions -/

/-- A fraction has as many places as asked for, and no zeros at its end beyond the least. -/
structure Fits (least : Nat) (greatest : Option Nat) (fraction : List Char) : Prop where
  digits : fraction.all Char.isDigit = true
  enough : least ≤ fraction.length
  within : ∀ places, greatest = some places → fraction.length ≤ places
  bare : least < fraction.length → fraction.getLast? ≠ some '0'

theorem value_append_zeros (digits fraction : List Char) (count : Nat) :
    (digitsValue (digits ++ (fraction ++ List.replicate count '0')) : ℚ) /
        10 ^ (fraction ++ List.replicate count '0').length =
      digitsValue (digits ++ fraction) / 10 ^ fraction.length := by
  have zeros : digitsValue (List.replicate count '0') = 0 := by
    rw [Number.digitsValue_eq, Nat.ofDigitChars_replicate_zero, Nat.mul_zero]
  rw [← List.append_assoc, digitsValue_append, zeros, List.length_append, List.length_replicate,
    pow_add]
  push_cast
  rw [add_zero]
  field_simp

/-- The fraction without the zeros at its end beyond the least number of places. -/
def bareFraction (least : Nat) (fraction : List Char) : List Char :=
  fraction.take least ++ Text.dropEndWhile (· == '0') (fraction.drop least)

theorem fitFraction_eq (least : Nat) (fraction : List Char) :
    fitFraction least fraction = bareFraction least fraction ++
      List.replicate (least - (bareFraction least fraction).length) '0' := rfl

theorem bareFraction_zeros (least : Nat) (fraction : List Char) :
    ∃ count, fraction = bareFraction least fraction ++ List.replicate count '0' := by
  have zeros : ((fraction.drop least).reverse.takeWhile (· == '0')).reverse =
      List.replicate ((fraction.drop least).reverse.takeWhile (· == '0')).length '0' := by
    refine List.eq_replicate_iff.mpr ⟨List.length_reverse, fun c member => ?_⟩
    have mem := List.mem_reverse.mp member
    have zero := List.mem_takeWhile_imp mem
    exact beq_iff_eq.mp zero
  refine ⟨_, Eq.trans ?_ (congrArg (bareFraction least fraction ++ ·) zeros)⟩
  rw [bareFraction, Text.dropEndWhile, List.append_assoc, ← List.reverse_append,
    List.takeWhile_append_dropWhile, List.reverse_reverse, List.take_append_drop]

theorem value_fitFraction (digits : List Char) (least : Nat) (fraction : List Char) :
    (digitsValue (digits ++ fitFraction least fraction) : ℚ) /
        10 ^ (fitFraction least fraction).length =
      digitsValue (digits ++ fraction) / 10 ^ fraction.length := by
  obtain ⟨count, zeros⟩ := bareFraction_zeros least fraction
  rw [fitFraction_eq, value_append_zeros]
  conv_rhs => rw [zeros, value_append_zeros]

theorem fitFraction_fits {least : Nat} {greatest : Option Nat} {fraction : List Char}
    (digits : fraction.all Char.isDigit = true)
    (within : ∀ places, greatest = some places → least ≤ places ∧ fraction.length ≤ places) :
    Fits least greatest (fitFraction least fraction) := by
  obtain ⟨count, zeros⟩ := bareFraction_zeros least fraction
  have shorter : (bareFraction least fraction).length ≤ fraction.length := by
    conv_rhs => rw [zeros, List.length_append]
    exact Nat.le_add_right _ _
  have length : (fitFraction least fraction).length =
      (bareFraction least fraction).length + (least - (bareFraction least fraction).length) := by
    rw [fitFraction_eq, List.length_append, List.length_replicate]
  refine ⟨?_, by omega, fun places found => ?_, fun more => ?_⟩
  · rw [zeros, List.all_append, Bool.and_eq_true] at digits
    rw [fitFraction_eq, List.all_append, digits.1, List.all_replicate]
    simp
  · obtain ⟨room, fits⟩ := within places found
    omega
  · have whole : fitFraction least fraction = bareFraction least fraction := by
      rw [fitFraction_eq, show least - (bareFraction least fraction).length = 0 by omega]
      exact List.append_nil _
    rw [whole, bareFraction] at more ⊢
    have front := List.length_take_le least fraction
    rw [List.length_append] at more
    have some : Text.dropEndWhile (· == '0') (fraction.drop least) ≠ [] :=
      List.ne_nil_of_length_pos (by omega)
    intro last
    rw [List.getLast?_append_of_ne_nil _ some] at last
    exact absurd (Grammar.getLast?_dropEndWhile last) (by decide)

/-! ## Groups -/

/-- Digits in groups of three with a separator between them; only the first group may be shorter. -/
structure Grouped (separator : Char) (integer : List Char) : Prop where
  groups : ∃ first others, integer = [separator].intercalate (first :: others) ∧
    1 ≤ first.length ∧ first.length ≤ 3 ∧ (∀ group ∈ others, group.length = 3) ∧
    ∀ group ∈ first :: others, group.all Char.isDigit = true

/-- The first group has what is left of the digits over threes. -/
theorem groupDigits_groups (separator : Char) (digits : List Char) (some : digits ≠ []) :
    ∃ first others, groupDigits separator digits = [separator].intercalate (first :: others) ∧
      first.length = (digits.length - 1) % 3 + 1 ∧ (∀ group ∈ others, group.length = 3) ∧
      (first :: others).flatten = digits := by
  induction digits with
  | nil => exact absurd rfl some
  | cons digit rest ih =>
    rcases eq_or_ne rest [] with rfl | more
    · exact ⟨[digit], [], rfl, rfl, by simp, rfl⟩
    · obtain ⟨first, others, grouped, length, threes, parts⟩ := ih more
      have count : 0 < rest.length := List.length_pos_iff.mpr more
      by_cases full : rest.length % 3 = 0
      · refine ⟨[digit], first :: others, ?_, ?_, ?_, ?_⟩
        · rw [groupDigits, if_pos ⟨full, more⟩, grouped, List.intercalate_cons_cons]
          rfl
        · simp [full]
        · exact List.forall_mem_cons.mpr ⟨by omega, threes⟩
        · rw [List.flatten_cons, parts]
          rfl
      · refine ⟨digit :: first, others, ?_, ?_, threes, ?_⟩
        · rw [groupDigits, if_neg fun both => full both.1, grouped, Text.intercalate_cons,
            Text.intercalate_cons]
          rfl
        · simp only [List.length_cons, Nat.add_sub_cancel, length]
          omega
        · rw [List.flatten_cons, List.cons_append, ← List.flatten_cons, parts]

theorem groupDigits_grouped (separator : Char) {digits : List Char} (some : digits ≠ [])
    (all : digits.all Char.isDigit = true) : Grouped separator (groupDigits separator digits) := by
  obtain ⟨first, others, grouped, length, threes, parts⟩ := groupDigits_groups separator digits some
  refine ⟨first, others, grouped, by omega, by omega, threes, fun group member => ?_⟩
  refine List.all_eq_true.mpr fun c mem => List.all_eq_true.mp all c ?_
  rw [← parts]
  exact List.mem_flatten_of_mem member mem

/-- The digits are left when separators are removed. -/
theorem filter_groupDigits {separator : Char} {digits : List Char}
    (apart : separator ∉ digits) : (groupDigits separator digits).filter (· != separator) = digits := by
  induction digits with
  | nil => rfl
  | cons digit rest ih =>
    rw [List.mem_cons, not_or] at apart
    rw [groupDigits]
    split <;> simp [ih apart.2, Ne.symm apart.1]

/-! ## Texts -/

/-- A character that can stand between groups: no digit, point or minus sign. -/
structure Separates (c : Char) : Prop where
  digit : c.isDigit = false
  point : c ≠ '.'
  minus : c ≠ '-'

theorem Separates.not_mem {c : Char} (separates : Separates c) {digits : List Char}
    (all : digits.all Char.isDigit = true) : c ∉ digits := fun member =>
  Bool.eq_false_iff.mp separates.digit (List.all_eq_true.mp all c member)

theorem Separates.not_mem_text {c : Char} (separates : Separates c) {w : Written}
    (proper : w.Proper) (plain : w.tens = none) : c ∉ w.text := by
  have sign : c ∉ (if w.negative then ['-'] else []) := by
    cases w.negative <;> simp [separates.minus]
  have fraction : c ∉ (if w.fraction.isEmpty then [] else '.' :: w.fraction) := by
    split
    · exact List.not_mem_nil
    · simp [separates.point, separates.not_mem proper.fraction]
  rw [Written.text_plain plain, List.mem_append, List.mem_append, not_or, not_or]
  exact ⟨⟨sign, separates.not_mem proper.whole⟩, fraction⟩

/-- The decimal whose digits are written. -/
def shownDecimal (negative : Bool) (significand : Nat) (exponent : Int) (options : Options) :
    Decimal :=
  match greatestFraction? options with
  | some places => Decimal.rounded negative significand exponent places
  | none => Decimal.shortest negative significand exponent

/-- The parts of a text, its integer digits without separators. -/
def plainParts (negative : Bool) (least : Nat) (decimal : Decimal) : Written where
  negative
  whole := decimal.integerDigits
  fraction := fitFraction least decimal.fractionDigits
  tens := none

/-- The integer digits as they are written. -/
def integerText (separator : Option Char) (options : Options) (digits : List Char) : List Char :=
  match separator with
  | some separator =>
    if options.flag? "useGrouping" = some false then digits else groupDigits separator digits
  | none => digits

theorem decimalText_toList {value : Float} {negative : Bool} {significand : Nat} {exponent : Int}
    (finite : Binary64.ofFloat value = .finite negative significand exponent) (options : Options)
    (separator : Option Char) :
    let decimal := shownDecimal negative significand exponent options
    let fraction := fitFraction (leastFraction options) decimal.fractionDigits
    (decimalText value options separator).toList =
      (if negative then ['-'] else []) ++ integerText separator options decimal.integerDigits ++
        (if fraction.isEmpty then [] else '.' :: fraction) := by
  rw [decimalText, finite]
  exact String.toList_ofList

section

variable {least : Nat} {greatest : Option Nat} {decimal : Decimal}

theorem plainParts_proper (negative : Bool) (fits : Fits least greatest
    (fitFraction least decimal.fractionDigits)) : (plainParts negative least decimal).Proper where
  some := Nat.toDigits_ne_nil
  whole := Number.all_isDigit_toDigits _
  fraction := fits.digits

theorem plainParts_magnitude (negative : Bool) (least : Nat) (decimal : Decimal) :
    (plainParts negative least decimal).magnitude = decimal.scaled / 10 ^ decimal.places := by
  have value := value_fitFraction decimal.integerDigits least decimal.fractionDigits
  rw [Number.digitsValue_digits, Number.length_fractionDigits] at value
  rw [← value, plainParts, Written.magnitude]
  simp only [Option.getD_none, zero_sub, zpow_neg, zpow_natCast, div_eq_mul_inv]

end

/-- The text without separators. -/
theorem filter_text {separator : Option Char} (separates : ∀ c, separator = some c → Separates c)
    (options : Options) {w : Written} (proper : w.Proper) (plain : w.tens = none) :
    ((if w.negative then ['-'] else []) ++ integerText separator options w.whole ++
        (if w.fraction.isEmpty then [] else '.' :: w.fraction)).filter
          (fun c => separator != some c) = w.text := by
  rw [Written.text_plain plain]
  cases separator with
  | none => exact List.filter_eq_self.mpr fun _ _ => rfl
  | some c =>
    have apart := separates c rfl
    have without := apart.not_mem_text proper plain
    rw [Written.text_plain plain, List.mem_append, List.mem_append, not_or, not_or] at without
    obtain ⟨⟨sign, whole⟩, fraction⟩ := without
    have others : (fun d => some c != some d) = (· != c) := by
      funext d
      rw [Bool.eq_iff_iff, bne_iff_ne, bne_iff_ne]
      exact not_congr (Option.some_inj.trans eq_comm)
    have kept {text : List Char} (without : c ∉ text) : text.filter (· != c) = text := by
      refine List.filter_eq_self.mpr fun d member => bne_iff_ne.mpr ?_
      rintro rfl
      exact without member
    have integer : (integerText (some c) options w.whole).filter (· != c) = w.whole := by
      rw [integerText]
      split
      · exact kept whole
      · exact filter_groupDigits whole
    rw [others, List.filter_append, List.filter_append, kept sign, kept fraction, integer]

/-- The number that a double's text stands for: without a greatest number of places the fewest
digits that are read as the double, otherwise the double rounded to so many places. -/
def Stands (significand : Nat) (exponent : Int) (greatest : Option Nat) (magnitude : ℚ) : Prop :=
  match greatest with
  | some places => ∃ n, Number.NearestWhole (significand * 2 ^ exponent * 10 ^ places) n ∧
      magnitude = n / 10 ^ places
  | none => ∃ digits : Digits, digits.Fewest significand exponent ∧ magnitude = digits.magnitude

theorem shownDecimal_stands {significand : Nat} {exponent : Int}
    (normalized : Binary64.Normalized significand exponent) (negative : Bool) (options : Options) :
    let decimal := shownDecimal negative significand exponent options
    Stands significand exponent (greatestFraction? options)
        (decimal.scaled / 10 ^ decimal.places) ∧
      ∀ places, greatestFraction? options = some places → decimal.places = places := by
  rw [shownDecimal]
  cases greatestFraction? options with
  | some places =>
    have value := Decimal.ratio_eq significand exponent places
    rw [zpow_natCast] at value
    refine ⟨⟨_, ?_, rfl⟩, fun _ same => Option.some_inj.mp same⟩
    rw [value]
    exact Number.roundHalfEven_nearest _ (Decimal.ratio_pos significand exponent places)
  | none =>
    have value := Number.toDecimal_magnitude negative (Digits.shortest significand exponent)
    rw [zpow_neg, zpow_natCast, ← div_eq_mul_inv] at value
    exact ⟨⟨_, Digits.shortest_fewest normalized, value⟩, nofun⟩

theorem leastFraction_le {options : Options} {places : Nat}
    (found : greatestFraction? options = some places) : leastFraction options ≤ places := by
  obtain ⟨count, -, rfl⟩ := Option.map_eq_some_iff.mp found
  exact Nat.le_max_left _ _

/-- The text of a finite double has the integer digits, in groups of three if there is a separator
and options do not forbid it, and the fraction that options ask for. Without the separators it is
read as the double itself: in its fewest digits, or rounded to the greatest number of places. -/
theorem decimalText_stands {value : Float} {negative : Bool} {significand : Nat} {exponent : Int}
    (finite : Binary64.ofFloat value = .finite negative significand exponent) (options : Options)
    (separator : Option Char) (separates : ∀ c, separator = some c → Separates c) :
    let least := min 20 ((options.count? "minimumFractionDigits").getD 0)
    let greatest := (options.count? "maximumFractionDigits").map fun places =>
      max least (min 20 places)
    let text := (decimalText value options separator).toList
    (∃ integer fraction, text = (if negative then ['-'] else []) ++ integer ++
        (if fraction.isEmpty then [] else '.' :: fraction) ∧
      Fits least greatest fraction ∧
      (∀ c, separator = some c → options.flag? "useGrouping" ≠ some false → Grouped c integer) ∧
      (separator = none ∨ options.flag? "useGrouping" = some false →
        integer ≠ [] ∧ integer.all Char.isDigit = true ∧ ∀ c, separator = some c → c ∉ text)) ∧
    ∃ magnitude, Stands significand exponent greatest magnitude ∧
      Number.readPlain (text.filter fun c => separator != some c) =
        if negative then -magnitude else magnitude := by
  intro least greatest text
  have shown := decimalText_toList finite options separator
  obtain ⟨stands, places⟩ := shownDecimal_stands (Number.Binary64.normalized_of_ofFloat finite)
    negative options
  generalize shownDecimal negative significand exponent options = decimal at shown stands places
  have fits : Fits least greatest (fitFraction least decimal.fractionDigits) := by
    refine fitFraction_fits (Number.all_isDigit_fractionDigits decimal) fun count found => ?_
    exact ⟨leastFraction_le found, by rw [Number.length_fractionDigits, places count found]⟩
  have proper := plainParts_proper negative fits
  have read := filter_text separates options proper rfl
  refine ⟨⟨integerText separator options decimal.integerDigits, _, shown, fits, ?_, ?_⟩,
    decimal.scaled / 10 ^ decimal.places, stands, ?_⟩
  · rintro c rfl allowed
    rw [integerText, if_neg allowed]
    exact groupDigits_grouped c proper.some proper.whole
  · intro ungrouped
    have integer : integerText separator options decimal.integerDigits =
        decimal.integerDigits := by
      obtain rfl | forbidden := ungrouped
      · rfl
      · cases separator with
        | none => rfl
        | some c => exact if_pos forbidden
    have plain : text = (plainParts negative least decimal).text := by
      rw [Written.text_plain rfl]
      exact shown.trans (by rw [integer]; rfl)
    rw [integer, plain]
    exact ⟨proper.some, proper.whole, fun c same => (separates c same).not_mem_text proper rfl⟩
  · rw [← plainParts_magnitude negative least decimal]
    exact (congrArg Number.readPlain ((congrArg (List.filter _) shown).trans read)).trans
      (Written.readPlain_text proper rfl)

/-- A text in two groups and with two places. -/
theorem decimalText_stands_grouped :
    let options : Options := .ofPairs [("minimumFractionDigits", .text "2")]
    Binary64.ofFloat (-1234.5) = .finite true 5429388417957888 (-42) ∧
      decimalText (-1234.5) options (some ',') = "-1,234.50" ∧
      (∃ integer fraction, "-1,234.50".toList = ['-'] ++ integer ++
          (if fraction.isEmpty then [] else '.' :: fraction) ∧
        Fits 2 none fraction ∧ Grouped ',' integer) ∧
      ∃ magnitude, Stands 5429388417957888 (-42) none magnitude ∧
        Number.readPlain "-1234.50".toList = -magnitude := by
  intro options
  have finite : Binary64.ofFloat (-1234.5) = .finite true 5429388417957888 (-42) := by
    decide +kernel
  have written : decimalText (-1234.5) options (some ',') = "-1,234.50" := by
    decide +kernel
  have separates : ∀ c, some ',' = some c → Separates c := by
    rintro c same
    obtain rfl := Option.some_inj.mp same
    exact ⟨rfl, by decide, by decide⟩
  obtain ⟨⟨integer, fraction, text, fits, grouped, -⟩, magnitude, stands, read⟩ :=
    decimalText_stands finite options (some ',') separates
  have least : min 20 ((options.count? "minimumFractionDigits").getD 0) = 2 := by
    decide +kernel
  have greatest : options.count? "maximumFractionDigits" = none := by
    decide +kernel
  have allowed : options.flag? "useGrouping" ≠ some false := by
    decide +kernel
  rw [written] at text read
  rw [least, greatest] at fits
  rw [greatest] at stands
  exact ⟨finite, written, ⟨integer, fraction, text, fits, grouped ',' rfl allowed⟩, magnitude,
    stands, read⟩

end Fluent.Format
