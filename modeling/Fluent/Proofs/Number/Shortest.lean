import Fluent.Number.Decimal
import Fluent.Proofs.Number.Binary64
import Mathlib.Algebra.Order.Field.Power
import Mathlib.Algebra.Order.Ring.Rat
import Mathlib.Data.Nat.Cast.Field
import Mathlib.Tactic.Linarith
import Mathlib.Tactic.Positivity
import Mathlib.Tactic.Ring

/-!
# Shortest decimals tell doubles apart

The digits of a double lie in the interval of the magnitudes that read as the double, and the
intervals of two doubles have nothing in common.

* `Digits.shortest_reads`: the search for the fewest digits ends with digits in the interval;
* `Digits.reads_unique`: no magnitude reads as two doubles;
* `Digits.shortest_injective`: so the digits tell doubles apart.
-/

namespace Fluent.Number

theorem zpow_eq_div (base : Nat) (hb : base ≠ 0) (n : Int) :
    (base : ℚ) ^ n = (Nat.pow base n.toNat : Nat) / (Nat.pow base (-n).toNat : Nat) := by
  have hb' : (base : ℚ) ≠ 0 := Nat.cast_ne_zero.mpr hb
  have split : n = n.toNat - (-n).toNat := by omega
  conv_lhs => rw [split]
  rw [zpow_sub₀ hb', zpow_natCast, zpow_natCast, Nat.pow_eq, Nat.pow_eq, Nat.cast_pow,
    Nat.cast_pow]

/-- Numerator and denominator have the value that they are meant to have. -/
theorem Decimal.ratio_eq (significand : Nat) (exponent tens : Int) :
    (significand : ℚ) * 2 ^ exponent * 10 ^ tens =
      (Decimal.ratio significand exponent tens).1 /
        (Decimal.ratio significand exponent tens).2 := by
  have two : (2 : ℚ) ^ exponent = _ := zpow_eq_div 2 (by decide) exponent
  have ten : (10 : ℚ) ^ tens = _ := zpow_eq_div 10 (by decide) tens
  rw [two, ten, ratio]
  push_cast
  ring

theorem Decimal.ratio_pos (significand : Nat) (exponent tens : Int) :
    0 < (Decimal.ratio significand exponent tens).2 :=
  Nat.mul_pos (Nat.pow_pos (by decide)) (Nat.pow_pos (by decide))

namespace Digits

/-- The magnitude of digits. -/
def magnitude (d : Digits) : ℚ := d.digits * 10 ^ d.exponent

/-- A magnitude in quarters of `2 ^ exponent`. -/
def quarters (exponent : Int) (r : ℚ) : ℚ := r * 2 ^ (2 - exponent)

/-- An interval has a number in it. -/
def Interval.Contains (range : Interval) (q : ℚ) : Prop :=
  if range.closed then range.low ≤ q ∧ q ≤ range.high else range.low < q ∧ q < range.high

/-- A magnitude reads as the double with the given parts. -/
def Reads (significand : Nat) (exponent : Int) (r : ℚ) : Prop :=
  (interval significand exponent).Contains (quarters exponent r)

variable {significand significand' : Nat} {exponent exponent' tens : Int} {r : ℚ}

theorem quarters_multiple (exponent tens : Int) (multiple : Nat) :
    quarters exponent (multiple * 10 ^ tens) =
      (Decimal.ratio multiple (2 - exponent) tens).1 /
        (Decimal.ratio multiple (2 - exponent) tens).2 := by
  rw [quarters, ← Decimal.ratio_eq]
  ring

theorem Interval.holds_iff (range : Interval) (multiple : Nat) :
    range.holds exponent tens multiple = true ↔
      range.Contains (quarters exponent (multiple * 10 ^ tens)) := by
  have hpos : (0 : ℚ) < (Decimal.ratio multiple (2 - exponent) tens).2 :=
    Nat.cast_pos.mpr (Decimal.ratio_pos multiple (2 - exponent) tens)
  simp only [Interval.holds, Interval.Contains, quarters_multiple]
  split
  · rw [Bool.and_eq_true, decide_eq_true_eq, decide_eq_true_eq, le_div_iff₀ hpos, div_le_iff₀ hpos]
    norm_cast
  · rw [Bool.and_eq_true, decide_eq_true_eq, decide_eq_true_eq, lt_div_iff₀ hpos, div_lt_iff₀ hpos]
    norm_cast

/-! ## The search -/

theorem onGrid_reads {digits : Nat} (h : onGrid significand exponent tens = some digits) :
    Reads significand exponent (digits * 10 ^ tens) := by
  refine (Interval.holds_iff _ digits).mp ?_
  simp only [onGrid] at h
  grind

theorem quarters_self (significand : Nat) (exponent : Int) :
    quarters exponent (significand * 2 ^ exponent) = (4 * significand : Nat) := by
  rw [quarters, mul_assoc, ← zpow_add₀ (by norm_num), add_sub_cancel]
  push_cast
  ring

theorem interval_low_lt (pos : significand ≠ 0) :
    (interval significand exponent).low < 4 * significand := by
  simp only [interval]
  split <;> omega

/-- A double reads as itself. -/
theorem reads_self (pos : significand ≠ 0) :
    Reads significand exponent (significand * 2 ^ exponent) := by
  have low : (interval significand exponent).low < 4 * significand := interval_low_lt pos
  have high : 4 * significand < (interval significand exponent).high := by
    simp only [interval]
    omega
  rw [Reads, quarters_self, Interval.Contains]
  norm_cast
  split
  · exact ⟨low.le, high.le⟩
  · exact ⟨low, high⟩

/-- The grid with so many places holds a double whose exponent is no less. -/
theorem onGrid_fine {places : Nat} (least : -(places : Int) ≤ exponent) (pos : significand ≠ 0) :
    onGrid significand exponent (-places) ≠ none := by
  have whole : (Decimal.ratio significand exponent places).2 ∣
      (Decimal.ratio significand exponent places).1 := by
    have power : Nat.pow 2 (-exponent).toNat ∣ Nat.pow 10 (places : Int).toNat :=
      (pow_dvd_pow 2 (by omega)).trans (pow_dvd_pow_of_dvd (by decide) _)
    have tens : (Decimal.ratio significand exponent places).2 = Nat.pow 2 (-exponent).toNat := by
      simp [Decimal.ratio]
    rw [tens]
    exact dvd_mul_of_dvd_right power _
  have value : (((Decimal.ratio significand exponent places).1 /
      (Decimal.ratio significand exponent places).2 : Nat) : ℚ) * 10 ^ (-places : Int) =
      significand * 2 ^ exponent := by
    have hpos := Decimal.ratio_pos significand exponent places
    rw [Nat.cast_div whole (Nat.cast_ne_zero.mpr hpos.ne'), ← Decimal.ratio_eq, mul_assoc,
      ← zpow_add₀ (by norm_num), add_neg_cancel, zpow_zero, mul_one]
  have below : (interval significand exponent).holds exponent (-places)
      ((Decimal.ratio significand exponent places).1 /
        (Decimal.ratio significand exponent places).2) = true := by
    rw [Interval.holds_iff, value]
    exact reads_self pos
  simp only [onGrid, neg_neg, below]
  grind

theorem firstHit_reads (least : -1074 ≤ exponent) (pos : significand ≠ 0) (grids : Nat) :
    ∀ tens : Int, 0 < grids → grids = tens + 1075 →
      Reads significand exponent (firstHit significand exponent grids tens).magnitude := by
  induction grids with
  | zero => exact fun _ some => absurd some (lt_irrefl 0)
  | succ grids ih =>
    intro tens _ count
    unfold firstHit
    split
    · exact onGrid_reads ‹_›
    · refine ih (tens - 1) ?_ (by omega)
      -- The last grid has a hit.
      rcases Nat.eq_zero_or_pos grids with rfl | more
      · obtain rfl : tens = -(1074 : Nat) := by omega
        exact absurd ‹_› (onGrid_fine least pos)
      · exact more

theorem coarsest_ge (significand : Nat) (least : -1074 ≤ exponent) :
    -1074 ≤ coarsest significand exponent := by
  simp only [coarsest]
  split <;> omega

theorem shortest_reads (least : -1074 ≤ exponent) (pos : significand ≠ 0) :
    Reads significand exponent (shortest significand exponent).magnitude := by
  have fine := coarsest_ge significand least
  simp only [shortest, if_neg pos]
  exact firstHit_reads least pos _ _ (by omega) (by omega)

/-! ## Intervals of different doubles -/

theorem Interval.Contains.bounds {range : Interval} {q : ℚ} (h : range.Contains q) :
    range.low ≤ q ∧ q ≤ range.high := by
  unfold Contains at h
  split at h
  · exact h
  · exact ⟨h.1.le, h.2.le⟩

theorem Interval.Contains.inside {range : Interval} {q : ℚ} (h : range.Contains q)
    (hopen : range.closed = false) : range.low < q ∧ q < range.high := by
  rwa [Contains, hopen, if_neg (by decide)] at h

theorem interval_low_ge (significand : Nat) (exponent : Int) :
    4 * significand - 2 ≤ (interval significand exponent).low := by
  simp only [interval]
  split <;> omega

/-- A power of two starts its interval nearer than the others do. -/
theorem interval_low_normal (least : -1074 < exponent)
    (leading : Binary64.leastNormal ≤ significand) :
    4 * Binary64.leastNormal - 1 ≤ (interval significand exponent).low := by
  simp only [interval]
  split <;> omega

theorem interval_high (significand : Nat) (exponent : Int) :
    (interval significand exponent).high = 4 * significand + 2 := rfl

theorem interval_open (odd : significand % 2 = 1) :
    (interval significand exponent).closed = false := by
  simp [interval, odd]

theorem quarters_shift {shift : Nat} (apart : exponent' = exponent + shift) (r : ℚ) :
    quarters exponent r = quarters exponent' r * 2 ^ shift := by
  rw [quarters, quarters, mul_assoc, ← zpow_natCast, ← zpow_add₀ (by norm_num)]
  congr 2
  omega

/-- Where a magnitude reads as two doubles, the interval of the one with the larger exponent starts
no later than the other ends; and earlier, unless both intervals have ends. -/
theorem Reads.overlap {shift : Nat} (h : Reads significand exponent r)
    (h' : Reads significand' exponent' r) (apart : exponent' = exponent + shift) :
    (interval significand' exponent').low * 2 ^ shift ≤ 4 * significand + 2 ∧
      (significand % 2 = 1 ∨ significand' % 2 = 1 →
        (interval significand' exponent').low * 2 ^ shift < 4 * significand + 2) := by
  have pow : (0 : ℚ) < 2 ^ shift := by positivity
  have scale := quarters_shift apart r
  have above := mul_le_mul_of_nonneg_right h'.bounds.1 pow.le
  have below := h.bounds.2
  rw [scale] at below
  rw [← interval_high significand exponent]
  refine ⟨by exact_mod_cast above.trans below, fun odd => ?_⟩
  rcases odd with odd | odd
  · have inside := (h.inside (interval_open odd)).2
    rw [scale] at inside
    exact_mod_cast above.trans_lt inside
  · have inside := mul_lt_mul_of_pos_right (h'.inside (interval_open odd)).1 pow
    exact_mod_cast inside.trans_le below

open Binary64 (Normalized)

theorem Reads.unique_of_le (h : Reads significand exponent r)
    (h' : Reads significand' exponent' r) (n : Normalized significand exponent)
    (n' : Normalized significand' exponent') (le : exponent ≤ exponent') :
    significand = significand' ∧ exponent = exponent' := by
  obtain ⟨shift, apart⟩ := Int.le.dest le
  obtain ⟨meets, meets_odd⟩ := h.overlap h' apart.symm
  rcases Nat.eq_zero_or_pos shift with rfl | more
  · obtain rfl : exponent = exponent' := by omega
    obtain ⟨meets', meets_odd'⟩ := h'.overlap h apart.symm
    have low := interval_low_ge significand exponent
    have low' := interval_low_ge significand' exponent
    omega
  · -- The upper double is normal, and the lower one lies below the power of two under it.
    have below := n.below
    have least := n.least
    have above : -1074 < exponent' := by omega
    have low := interval_low_normal above (n'.leading.resolve_left (by omega))
    have power : 2 ^ 1 ≤ 2 ^ shift := Nat.pow_le_pow_right (by decide) more
    have product := Nat.mul_le_mul low power
    omega

/-- No magnitude reads as two doubles. -/
theorem Reads.unique (h : Reads significand exponent r) (h' : Reads significand' exponent' r)
    (n : Normalized significand exponent) (n' : Normalized significand' exponent') :
    significand = significand' ∧ exponent = exponent' := by
  rcases le_total exponent exponent' with le | le
  · exact h.unique_of_le h' n n' le
  · obtain ⟨hs, he⟩ := h'.unique_of_le h n' n le
    exact ⟨hs.symm, he.symm⟩

theorem Reads.ne_zero (h : Reads significand exponent r) (pos : significand ≠ 0) : r ≠ 0 := by
  rintro rfl
  have low := interval_low_ge significand exponent
  have above := h.bounds.1
  rw [quarters, zero_mul] at above
  norm_cast at above
  omega

/-- Digits that have the same magnitude are those of one double. -/
theorem shortest_injective (n : Normalized significand exponent)
    (n' : Normalized significand' exponent')
    (h : (shortest significand exponent).magnitude = (shortest significand' exponent').magnitude) :
    significand = significand' ∧ exponent = exponent' := by
  have zero (exponent : Int) : (shortest 0 exponent).magnitude = 0 := by
    simp [shortest, magnitude]
  rcases eq_or_ne significand 0 with rfl | pos <;> rcases eq_or_ne significand' 0 with rfl | pos'
  · exact ⟨rfl, (n.leading.resolve_right (by decide)).trans
      (n'.leading.resolve_right (by decide)).symm⟩
  · exact absurd (h.symm.trans (zero _)) ((shortest_reads n'.least pos').ne_zero pos')
  · exact absurd (h.trans (zero _)) ((shortest_reads n.least pos).ne_zero pos)
  · exact (shortest_reads n.least pos).unique (h ▸ shortest_reads n'.least pos') n n'

end Digits

end Fluent.Number
