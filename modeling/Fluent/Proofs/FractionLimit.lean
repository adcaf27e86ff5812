import Fluent.Format.Cldr
import Fluent.Proofs.DecimalText
import Fluent.Proofs.Rendering.Token

/-!
# The limit on fraction places

The backend that follows the locale data sets a limit of three fraction places where options name
none. An option that names one but cannot be read as a count keeps that limit away, and is no limit
itself.

* `fractionOf`: the fraction digits of a text;
* `length_fractionOf_le`, `length_fractionOf_unlimited`: how many a number has under a limit, and
  without one;
* `Cldr.fraction_limited`: how many the backend writes.
-/

namespace Fluent.Number

/-- Fewest digits end with no zero. -/
theorem Digits.Fewest.bare {significand : Nat} {exponent : Int} {d : Digits}
    (fewest : d.Fewest significand exponent) (some : d.digits ≠ 0) : d.digits % 10 ≠ 0 := by
  intro zero
  have same : (Digits.mk (d.digits / 10) (d.exponent + 1)).magnitude = d.magnitude := by
    have digits : (d.digits : ℚ) = 10 * (d.digits / 10 : Nat) := by
      exact_mod_cast (show d.digits = 10 * (d.digits / 10) by omega)
    rw [Digits.magnitude, Digits.magnitude, digits, zpow_add₀ (by norm_num), zpow_one]
    ring
  have coarser := fewest.coarsest ⟨d.digits / 10, d.exponent + 1⟩ (by dsimp only; omega)
    (same ▸ fewest.reads)
  dsimp only at coarser
  omega

theorem scaled_mod_of_getLast? {decimal : Decimal}
    (zero : decimal.fractionDigits.getLast? = some '0') : decimal.scaled % 10 = 0 := by
  obtain ⟨front, digits⟩ := List.getLast?_eq_some_iff.mp zero
  have value := digitsValue_digits decimal
  rw [digits, ← List.append_assoc, digitsValue_append] at value
  change 10 ^ 1 * _ + 0 = _ at value
  omega

/-- The shortest decimal of a double has no zero at the end of its fraction. -/
theorem getLast?_shortest {significand : Nat} {exponent : Int}
    (normalized : Binary64.Normalized significand exponent) (negative : Bool) :
    (Decimal.shortest negative significand exponent).fractionDigits.getLast? ≠ some '0' := by
  intro zero
  have divides := scaled_mod_of_getLast? zero
  have fewest := Digits.shortest_fewest normalized
  have places : 0 < (Decimal.shortest negative significand exponent).places := by
    rw [← length_fractionDigits]
    exact List.length_pos_iff.mpr (by rintro none; rw [none] at zero; cases zero)
  have pos : significand ≠ 0 := by
    rintro rfl
    cases places
  have some := (Digits.shortest_reads normalized.least pos).ne_zero pos
  rw [Decimal.shortest] at divides places
  generalize Digits.shortest significand exponent = d at *
  have whole : d.exponent.toNat = 0 := by
    have : 0 < (-d.exponent).toNat := places
    omega
  have digits : (d.toDecimal negative).scaled = d.digits := by
    rw [Digits.toDecimal, whole]
    exact Nat.mul_one _
  refine fewest.bare ?_ (digits ▸ divides)
  intro none
  exact some (by rw [Digits.magnitude, none, Nat.cast_zero, zero_mul])

end Fluent.Number

namespace Fluent.Format

open Number (Binary64 Decimal Digits)

/-- The fraction digits of a text: what stands behind its point. -/
def fractionOf (text : String) : List Char := (text.toList.dropWhile (· != '.')).drop 1

theorem fractionOf_eq {text : String} {front fraction : List Char} (bare : '.' ∉ front)
    (parts : text.toList = front ++ if fraction.isEmpty then [] else '.' :: fraction) :
    fractionOf text = fraction := by
  have before : front.all (· != '.') = true := by
    refine List.all_eq_true.mpr fun c member => bne_iff_ne.mpr ?_
    rintro rfl
    exact bare member
  have point : (if fraction.isEmpty then [] else '.' :: fraction).head?.any (· != '.') = false := by
    split <;> rfl
  rw [fractionOf, parts, Grammar.dropWhile_run before point]
  split
  · exact (List.isEmpty_iff.mp ‹_›).symm
  · rfl

/-! ## Numbers -/

/-- A fraction without a zero at its end is filled up to the least number of places. -/
theorem length_fitFraction {fraction : List Char} (bare : fraction.getLast? ≠ some '0')
    (least : Nat) : (fitFraction least fraction).length = max least fraction.length := by
  have kept : bareFraction least fraction = fraction := by
    have rest : Text.dropEndWhile (· == '0') (fraction.drop least) = fraction.drop least := by
      refine Grammar.dropEndWhile_eq_self fun c last => beq_eq_false_iff_ne.mpr ?_
      rintro rfl
      have some : fraction.drop least ≠ [] := by
        rintro none
        rw [none] at last
        cases last
      rw [← List.take_append_drop least fraction, List.getLast?_append_of_ne_nil _ some] at bare
      exact bare last
    rw [bareFraction, rest, List.take_append_drop]
  rw [fitFraction_eq, kept, List.length_append, List.length_replicate]
  omega

/-- No point stands in front of the fraction. -/
theorem point_not_mem_integerText {separator : Option Char}
    (separates : ∀ c, separator = some c → Separates c) (options : Options) {digits : List Char}
    (all : digits.all Char.isDigit = true) : '.' ∉ integerText separator options digits := by
  have none : '.' ∉ digits := fun member => absurd (List.all_eq_true.mp all _ member) (by decide)
  cases separator with
  | none => exact none
  | some c =>
    rw [integerText]
    split
    · exact none
    · intro member
      have apart := separates c rfl
      have left : '.' ∈ (groupDigits c digits).filter (· != c) :=
        List.mem_filter.mpr ⟨member, bne_iff_ne.mpr apart.point.symm⟩
      rw [filter_groupDigits (apart.not_mem all)] at left
      exact none left

/-- The digits of an integer, with a minus sign or without, hold no point. -/
theorem point_not_mem_front (negative : Bool) {integer : List Char} (none : '.' ∉ integer) :
    '.' ∉ (if negative then ['-'] else []) ++ integer := by
  cases negative <;> simp [none]

section

variable {value : Float} {negative : Bool} {significand : Nat} {exponent : Int}
  (finite : Binary64.ofFloat value = .finite negative significand exponent)

include finite

theorem fractionOf_plainText : fractionOf (String.ofList (Number.plainText value)) =
    (Decimal.shortest negative significand exponent).fractionDigits := by
  generalize shown : Decimal.shortest negative significand exponent = decimal
  have same : decimal.places = 0 ↔ decimal.fractionDigits.isEmpty := by
    rw [List.isEmpty_iff_length_eq_zero, Number.length_fractionDigits]
  have sign : decimal.negative = negative := shown ▸ rfl
  have bare : '.' ∉ decimal.integerDigits := fun member =>
    absurd (List.all_eq_true.mp (Number.all_isDigit_toDigits _) _ member) (by decide)
  refine fractionOf_eq (point_not_mem_front negative bare) ?_
  rw [Number.plainText, finite, String.toList_ofList]
  simp only [shown, Decimal.text, sign, same]

variable (options : Options) {separator : Option Char}
  (separates : ∀ c, separator = some c → Separates c)

include separates

/-- The digits behind the point are those of the decimal, fitted to the least number of places. -/
theorem fractionOf_decimalText :
    fractionOf (decimalText value options separator) =
      fitFraction (leastFraction options)
        (shownDecimal negative significand exponent options).fractionDigits :=
  fractionOf_eq (point_not_mem_front negative
      (point_not_mem_integerText separates options (Number.all_isDigit_toDigits _)))
    (decimalText_toList finite options separator)

theorem length_fractionOf_le {places : Nat} (limit : greatestFraction? options = some places) :
    (fractionOf (decimalText value options separator)).length ≤ places := by
  rw [fractionOf_decimalText finite options separates, shownDecimal, limit]
  refine (fitFraction_fits (Number.all_isDigit_fractionDigits _) fun count found => ?_).within
    places limit
  obtain rfl := Option.some_inj.mp (limit.symm.trans found)
  exact ⟨leastFraction_le limit, (Number.length_fractionDigits _).le⟩

/-- Without a limit there are as many fraction digits as in the plain text of the number. -/
theorem length_fractionOf_unlimited (unlimited : greatestFraction? options = none) :
    (fractionOf (decimalText value options separator)).length = max (leastFraction options)
      (fractionOf (String.ofList (Number.plainText value))).length := by
  have bare := Number.getLast?_shortest (Binary64.normalized_of_ofFloat finite) negative
  rw [fractionOf_decimalText finite options separates, shownDecimal, unlimited,
    fractionOf_plainText finite, length_fitFraction bare]

end

/-! ## Limits -/

namespace Cldr

theorem count?_withLimit_other (options : Options) {name : String}
    (other : name ≠ "maximumFractionDigits") :
    (withLimit options).count? name = options.count? name := by
  rw [withLimit]
  split
  · rfl
  · rw [Options.count?, Options.count?, Std.ExtTreeMap.getElem?_insert,
      if_neg (by simpa using other.symm)]

/-- Options that name no limit get the usual one. -/
theorem count?_withLimit (options : Options) :
    (withLimit options).count? "maximumFractionDigits" =
      if "maximumFractionDigits" ∈ options then options.count? "maximumFractionDigits"
      else some 3 := by
  rw [withLimit]
  simp only [← Std.ExtTreeMap.mem_iff_contains]
  split
  · rfl
  · have usual : (if usualPlaces.isFinite && 0.0 ≤ usualPlaces then
        some (Number.toCount usualPlaces) else none) = some 3 := by decide +kernel
    rw [Options.count?, Std.ExtTreeMap.getElem?_insert_self]
    exact usual

/-- The least double has as many fraction digits as a double can have. -/
theorem fractionOf_least :
    (Float.ofBits 1).isFinite = true ∧
      (fractionOf (String.ofList (Number.plainText (Float.ofBits 1)))).length = 324 := by
  have finite : Binary64.ofFloat (Float.ofBits 1) = .finite false 1 (-1074) := by decide +kernel
  have places : (Decimal.shortest false 1 (-1074)).places = 324 := by decide +kernel
  refine ⟨by decide +kernel, ?_⟩
  rw [fractionOf_plainText finite, Number.length_fractionDigits, places]

/-- The backend writes no more fraction digits than options ask for, or than three, exactly if
options name no greatest number of places or one that is a count. If they name one that is none, it
writes as many as the plain text of the number has: there is no limit then. -/
theorem fraction_limited (library : PluralLibrary) (locales : List LanguageTag)
    (options : Options) :
    let least := min 20 ((options.count? "minimumFractionDigits").getD 0)
    let greatest := min 20 ((options.count? "maximumFractionDigits").getD 3)
    let usable := "maximumFractionDigits" ∈ options →
      (options.count? "maximumFractionDigits").isSome
    ∃ write, (backend library).numberFormat locales options = .ok write ∧
      ((∀ value : Float, value.isFinite → (fractionOf (write value)).length ≤ max least greatest) ↔
        usable) ∧
      (¬usable → ∀ value : Float, value.isFinite → (fractionOf (write value)).length =
        max least (fractionOf (String.ofList (Number.plainText value))).length) := by
  intro least greatest usable
  have comma : ∀ c, some ',' = some c → Separates c := by
    rintro c same
    obtain rfl := Option.some_inj.mp same
    exact ⟨rfl, by decide, by decide⟩
  have lower : leastFraction (withLimit options) = least := by
    rw [leastFraction, count?_withLimit_other options (by decide)]
    rfl
  have limited (ok : usable) :
      greatestFraction? (withLimit options) = some (max least greatest) := by
    rw [greatestFraction?, count?_withLimit, lower]
    by_cases named : "maximumFractionDigits" ∈ options
    · obtain ⟨count, found⟩ := Option.isSome_iff_exists.mp (ok named)
      simp only [if_pos named, greatest, found]
      rfl
    · have absent : options.count? "maximumFractionDigits" = none := by
        rw [Options.count?, Std.ExtTreeMap.getElem?_eq_none named]
      simp only [if_neg named, greatest, absent]
      rfl
  have unlimited (unusable : ¬usable) : greatestFraction? (withLimit options) = none := by
    obtain ⟨named, uncounted⟩ := Classical.not_imp.mp unusable
    rw [greatestFraction?, count?_withLimit, if_pos named, Option.map_eq_none_iff]
    exact Option.not_isSome_iff_eq_none.mp uncounted
  have free (unusable : ¬usable) (value : Float) (finite : value.isFinite) :
      (fractionOf (decimalText value (withLimit options) (some ','))).length =
        max least (fractionOf (String.ofList (Number.plainText value))).length := by
    obtain ⟨negative, significand, exponent, parts⟩ := Binary64.ofFloat_of_isFinite finite
    rw [length_fractionOf_unlimited parts _ comma (unlimited unusable), lower]
  refine ⟨_, rfl, ⟨fun bounded => ?_, fun ok value finite => ?_⟩, free⟩
  · by_contra unusable
    have beyond := bounded _ fractionOf_least.1
    rw [free unusable _ fractionOf_least.1, fractionOf_least.2] at beyond
    omega
  · obtain ⟨negative, significand, exponent, parts⟩ := Binary64.ofFloat_of_isFinite finite
    exact length_fractionOf_le parts _ comma (limited ok)

/-- A limit that is no count lets five fraction digits through. -/
theorem fraction_limited_no_count :
    let english : PluralLibrary :=
      { locales := fun _ => ["en"], locale? := some
        rules := fun _ _ => .ok fun value => .ok (if value == 1 then .one else .other) }
    let options : Options := .ofPairs [("maximumFractionDigits", .text "x")]
    ∃ write, (backend english).numberFormat [] options = .ok write ∧ write 1.23456 = "1.23456" ∧
      ¬∀ value : Float, value.isFinite → (fractionOf (write value)).length ≤ 3 := by
  intro english options
  have least : options.count? "minimumFractionDigits" = none := by decide +kernel
  have greatest : options.count? "maximumFractionDigits" = none := by decide +kernel
  have named : "maximumFractionDigits" ∈ options := by decide +kernel
  obtain ⟨write, built, bounded, -⟩ := fraction_limited english [] options
  rw [least, greatest] at bounded
  have shown : decimalText 1.23456 (withLimit options) (some ',') = "1.23456" := by decide +kernel
  refine ⟨write, built, ?_, fun limited => ?_⟩
  · rw [← Except.ok.inj built]
    exact shown
  · cases bounded.mp limited named

end Cldr

end Fluent.Format
