import Fluent.Number.Binary64
import Mathlib.Data.Nat.Init

/-!
# Doubles and their parts

A double is known from its parts: all doubles that are no number are one, and the others differ in
their sign, their significand or their exponent.

* `Binary64.Normalized`: the significands and exponents that finite doubles have;
* `Binary64.ofFloat_injective`: the parts tell doubles apart.
-/

namespace Fluent.Number.Binary64

theorem leastNormal_eq : leastNormal = 4503599627370496 := rfl

/-- A significand and an exponent of a finite double: the exponent is the least one, or the leading
bit of the significand is set. -/
structure Normalized (significand : Nat) (exponent : Int) : Prop where
  least : -1074 ≤ exponent
  below : significand < 2 * leastNormal
  leading : exponent = -1074 ∨ leastNormal ≤ significand

/-! ## Fields -/

/-- Whether the bit of the sign is set. -/
def signBit (x : Float) : Bool := x.toBits.toNat / leastNormal / 2048 == 1

/-- The field of the exponent. -/
def exponentField (x : Float) : Nat := x.toBits.toNat / leastNormal % 2048

/-- The field of the fraction. -/
def fractionField (x : Float) : Nat := x.toBits.toNat % leastNormal

variable {x y : Float}

theorem ofFloat_infinite (he : exponentField x = 2047) (hf : fractionField x = 0) :
    ofFloat x = .infinite (signBit x) := by
  rw [exponentField] at he
  rw [fractionField] at hf
  simp only [ofFloat, he, hf, if_true]
  rfl

theorem ofFloat_nan (he : exponentField x = 2047) (hf : fractionField x ≠ 0) :
    ofFloat x = .nan := by
  rw [exponentField] at he
  rw [fractionField] at hf
  simp only [ofFloat, he, hf, if_true, if_false]

theorem ofFloat_subnormal (he : exponentField x = 0) :
    ofFloat x = .finite (signBit x) (fractionField x) (-1074) := by
  rw [exponentField] at he
  simp only [ofFloat, he, if_true]
  rfl

theorem ofFloat_normal (he : exponentField x ≠ 2047) (he' : exponentField x ≠ 0) :
    ofFloat x =
      .finite (signBit x) (leastNormal + fractionField x) ((exponentField x : Int) - 1075) := by
  rw [exponentField] at he he'
  simp only [ofFloat, he, he', if_false]
  rfl

theorem exponentField_lt (x : Float) : exponentField x < 2048 := Nat.mod_lt _ (by decide)

theorem fractionField_lt (x : Float) : fractionField x < leastNormal := Nat.mod_lt _ (by decide)

/-- A double is its three fields. -/
theorem eq_of_fields (hs : signBit x = signBit y) (he : exponentField x = exponentField y)
    (hf : fractionField x = fractionField y) : x = y := by
  have hbits : x.toBits = y.toBits := by
    have hx := x.toBits.toNat_lt
    have hy := y.toBits.toNat_lt
    rw [signBit, signBit, Bool.eq_iff_iff, beq_iff_eq, beq_iff_eq] at hs
    rw [exponentField, exponentField] at he
    rw [fractionField, fractionField] at hf
    rw [leastNormal_eq] at hs he hf
    refine UInt64.toNat_inj.mp ?_
    omega
  obtain ⟨⟨bits, valid⟩⟩ := x
  obtain ⟨⟨bits', valid'⟩⟩ := y
  obtain rfl : bits = bits' := hbits
  rfl

open Float.Model UnpackedFloat in
theorem unpackExponent_toNat (x : Float) :
    (@unpackExponent Format.binary64 x.toBits.toBitVec).toNat = exponentField x := by
  have h : (@unpackExponent Format.binary64 x.toBits.toBitVec).toNat =
      x.toBits.toNat >>> 52 % 2 ^ 11 := by
    rw [unpackExponent, BitVec.toNat_cast, BitVec.extractLsb_toNat]
    rfl
  rw [h, Nat.shiftRight_eq_div_pow]
  rfl

open Float.Model UnpackedFloat in
theorem unpackMantissa_toNat (x : Float) :
    (@unpackMantissa Format.binary64 x.toBits.toBitVec).toNat = fractionField x := by
  have h : (@unpackMantissa Format.binary64 x.toBits.toBitVec).toNat =
      x.toBits.toNat >>> 0 % 2 ^ 52 := by
    rw [unpackMantissa, BitVec.toNat_cast, BitVec.extractLsb_toNat]
    rfl
  rw [h, Nat.shiftRight_zero]
  rfl

/-- What is no number has one pattern of bits. -/
theorem fields_of_nan (he : exponentField x = 2047) (hf : fractionField x ≠ 0) :
    signBit x = false ∧ fractionField x = 2251799813685248 := by
  have hbits : x.toBits = 0x7ff8000000000000 := by
    refine UInt64.toBitVec_inj.mp (x.toModel.valid.eq_packedNaN ?_ ?_)
    · exact BitVec.eq_of_toNat_eq ((unpackExponent_toNat x).trans he)
    · intro zero
      exact hf ((unpackMantissa_toNat x).symm.trans (congrArg BitVec.toNat zero))
  rw [signBit, fractionField, hbits]
  decide

/-! ## Parts -/

/-- The kinds of doubles, by their fields. -/
theorem ofFloat_cases (x : Float) :
    (exponentField x = 2047 ∧ fractionField x = 0 ∧ ofFloat x = .infinite (signBit x)) ∨
    (exponentField x = 2047 ∧ (signBit x = false ∧ fractionField x = 2251799813685248) ∧
      ofFloat x = .nan) ∨
    (exponentField x = 0 ∧ ofFloat x = .finite (signBit x) (fractionField x) (-1074)) ∨
    (exponentField x ≠ 0 ∧ ofFloat x =
      .finite (signBit x) (leastNormal + fractionField x) ((exponentField x : Int) - 1075)) := by
  by_cases he : exponentField x = 2047
  · by_cases hf : fractionField x = 0
    · exact .inl ⟨he, hf, ofFloat_infinite he hf⟩
    · exact .inr (.inl ⟨he, fields_of_nan he hf, ofFloat_nan he hf⟩)
  · by_cases he' : exponentField x = 0
    · exact .inr (.inr (.inl ⟨he', ofFloat_subnormal he'⟩))
    · exact .inr (.inr (.inr ⟨he', ofFloat_normal he he'⟩))

open Float.Model UnpackedFloat in
/-- A double that is finite has parts. -/
theorem ofFloat_of_isFinite (finite : x.isFinite = true) :
    ∃ negative significand exponent, ofFloat x = .finite negative significand exponent := by
  have field : exponentField x ≠ 2047 := by
    intro top
    have all : @unpackExponent Format.binary64 x.toBits.toBitVec = -1#11 :=
      BitVec.eq_of_toNat_eq ((unpackExponent_toNat x).trans top)
    change (UnpackedFloat.unpack Format.binary64 x.toBits.toBitVec).isFinite = true at finite
    have unpacked : UnpackedFloat.unpack Format.binary64 x.toBits.toBitVec =
        if @unpackMantissa Format.binary64 x.toBits.toBitVec = 0#52 then
          infinity (.ofBitVec (@unpackSign Format.binary64 x.toBits.toBitVec))
        else notANumber := if_pos all
    rw [unpacked] at finite
    by_cases none : @unpackMantissa Format.binary64 x.toBits.toBitVec = 0#52
    · rw [if_pos none] at finite
      cases finite
    · rw [if_neg none] at finite
      cases finite
  obtain ⟨top, -⟩ | ⟨top, -⟩ | ⟨-, parts⟩ | ⟨-, parts⟩ := ofFloat_cases x
  · exact absurd top field
  · exact absurd top field
  · exact ⟨_, _, _, parts⟩
  · exact ⟨_, _, _, parts⟩

theorem normalized_of_ofFloat {negative : Bool} {significand : Nat} {exponent : Int}
    (h : ofFloat x = .finite negative significand exponent) : Normalized significand exponent := by
  have he := exponentField_lt x
  have hf := fractionField_lt x
  obtain ⟨-, -, parts⟩ | ⟨-, -, parts⟩ | ⟨-, parts⟩ | ⟨he', parts⟩ := ofFloat_cases x
  · cases parts.symm.trans h
  · cases parts.symm.trans h
  · cases parts.symm.trans h
    exact ⟨by omega, by omega, .inl rfl⟩
  · cases parts.symm.trans h
    exact ⟨by omega, by omega, .inr (Nat.le_add_right _ _)⟩

/-- Doubles with the same parts are the same. -/
theorem ofFloat_injective (h : ofFloat x = ofFloat y) : x = y := by
  have hx := fractionField_lt x
  have hy := fractionField_lt y
  -- The parts tell the four kinds apart: only normal doubles have as large a significand.
  have fields : signBit x = signBit y ∧ exponentField x = exponentField y ∧
      fractionField x = fractionField y := by
    rcases ofFloat_cases x with kind | kind | kind | kind <;>
      rcases ofFloat_cases y with kind' | kind' | kind' | kind' <;> grind
  exact eq_of_fields fields.1 fields.2.1 fields.2.2

end Fluent.Number.Binary64
