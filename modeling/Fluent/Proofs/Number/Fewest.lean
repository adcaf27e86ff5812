import Fluent.Proofs.Number.Nearest
import Mathlib.Tactic.FieldSimp

/-!
# Shortest decimals have the fewest digits

The search for the digits of a double goes over decimal grids from a coarse one to finer ones and
stops at the first that holds a magnitude read as the double. The doubles lie between two
neighbours on every grid, and what is read as the double lies together, so a grid that holds any
such magnitude holds one of the two neighbours.

* `Fewest`: digits of which none are left to save, and of those the nearest to the double;
* `onGrid_none`, `onGrid_nearest`: what the search finds on a grid;
* `reads_lt_coarsest`: the grid at which it starts is coarse enough;
* `shortest_fewest`: the digits that it ends with.
-/

namespace Fluent.Number.Digits

open Binary64 (Normalized)

/-- Digits that are read as the double with the given parts. Other digits that are read so are not
fewer and stand on no coarser grid, and on the same grid they are no nearer to the double; if they
are as near, they are smaller. -/
structure Fewest (significand : Nat) (exponent : Int) (d : Digits) : Prop where
  reads : Nearest significand exponent d.magnitude
  fewest : ∀ other : Digits, other.digits ≠ 0 → Nearest significand exponent other.magnitude →
    (Nat.toDigits 10 d.digits).length ≤ (Nat.toDigits 10 other.digits).length
  coarsest : ∀ other : Digits, other.digits ≠ 0 → Nearest significand exponent other.magnitude →
    other.exponent ≤ d.exponent
  nearest : ∀ multiple : Nat, Nearest significand exponent (multiple * 10 ^ d.exponent) →
    let x : ℚ := significand * 2 ^ exponent
    |d.magnitude - x| ≤ |multiple * 10 ^ d.exponent - x| ∧
      (|d.magnitude - x| = |multiple * 10 ^ d.exponent - x| → multiple ≤ d.digits)

variable {significand digits : Nat} {exponent tens : Int} {r r' middle : ℚ}

/-! ## Grids -/

/-- What is read as one double lies together. -/
theorem Reads.between (h : Reads significand exponent r) (h' : Reads significand exponent r')
    (low : r ≤ middle) (high : middle ≤ r') : Reads significand exponent middle := by
  have pow : (0 : ℚ) ≤ 2 ^ (2 - exponent) := by positivity
  have low' : quarters exponent r ≤ quarters exponent middle := mul_le_mul_of_nonneg_right low pow
  have high' : quarters exponent middle ≤ quarters exponent r' :=
    mul_le_mul_of_nonneg_right high pow
  unfold Reads Interval.Contains at *
  split at h
  · rw [if_pos ‹_›] at h' ⊢
    exact ⟨h.1.trans low', high'.trans h'.2⟩
  · rw [if_neg ‹_›] at h' ⊢
    exact ⟨h.1.trans_le low', high'.trans_lt h'.2⟩

/-- The multiple of `10 ^ tens` below a double. -/
def gridBelow (significand : Nat) (exponent tens : Int) : Nat :=
  (Decimal.ratio significand exponent (-tens)).1 / (Decimal.ratio significand exponent (-tens)).2

/-- A double lies less than a step above its neighbour, and less than half a step if the rest of the
division says so. -/
theorem gridBelow_spec (significand : Nat) (exponent tens : Int) :
    let (numerator, denominator) := Decimal.ratio significand exponent (-tens)
    ∃ part : ℚ, (significand : ℚ) * 2 ^ exponent =
        (gridBelow significand exponent tens + part) * 10 ^ tens ∧
      0 ≤ part ∧ part < 1 ∧ (2 * (numerator % denominator) < denominator ↔ 2 * part < 1) := by
  have value := Decimal.ratio_eq significand exponent (-tens)
  have pos := Decimal.ratio_pos significand exponent (-tens)
  rw [gridBelow]
  generalize Decimal.ratio significand exponent (-tens) = ratio at value pos
  obtain ⟨numerator, denominator⟩ := ratio
  have pos' : (0 : ℚ) < denominator := Nat.cast_pos.mpr pos
  have whole : (numerator : ℚ) =
      denominator * (numerator / denominator : Nat) + (numerator % denominator : Nat) := by
    exact_mod_cast (Nat.div_add_mod numerator denominator).symm
  refine ⟨(numerator % denominator : Nat) / denominator, ?_, by positivity, ?_, ?_⟩
  · rw [zpow_neg, ← div_eq_mul_inv, div_eq_iff (by positivity)] at value
    rw [value]
    congr 1
    field_simp
    rw [whole]
  · rw [div_lt_one pos', Nat.cast_lt]
    exact Nat.mod_lt _ pos
  · rw [← mul_div_assoc, div_lt_one pos']
    norm_cast

/-- Where a multiple up to a double is read as it, so is the neighbour below the double. -/
theorem holds_below (pos : significand ≠ 0) {multiple : Nat}
    (reads : Reads significand exponent (multiple * 10 ^ tens))
    (le : multiple ≤ gridBelow significand exponent tens) :
    (interval significand exponent).holds exponent tens (gridBelow significand exponent tens) =
      true := by
  obtain ⟨part, value, nonneg, -, -⟩ := gridBelow_spec significand exponent tens
  refine (Interval.holds_iff _ _).mpr (reads.between (reads_self pos) ?_ ?_)
  · gcongr
  · rw [value]
    gcongr
    linarith

/-- Where a multiple above a double is read as it, so is the neighbour above the double. -/
theorem holds_above (pos : significand ≠ 0) {multiple : Nat}
    (reads : Reads significand exponent (multiple * 10 ^ tens))
    (lt : gridBelow significand exponent tens < multiple) :
    (interval significand exponent).holds exponent tens
      (gridBelow significand exponent tens + 1) = true := by
  obtain ⟨part, value, -, small, -⟩ := gridBelow_spec significand exponent tens
  refine (Interval.holds_iff _ _).mpr ((reads_self pos).between reads ?_ ?_)
  · rw [value]
    push_cast
    gcongr
  · gcongr
    exact lt

theorem onGrid_none (none : onGrid significand exponent tens = none) (pos : significand ≠ 0)
    (multiple : Nat) : ¬Reads significand exponent (multiple * 10 ^ tens) := by
  intro reads
  rcases le_or_gt multiple (gridBelow significand exponent tens) with le | lt
  · have below := holds_below pos reads le
    simp only [onGrid] at none
    rw [gridBelow] at below
    grind
  · have above := holds_above pos reads lt
    simp only [onGrid] at none
    rw [gridBelow] at above
    grind

/-- The neighbour below is found unless that above is read and no farther, and the other way. -/
theorem onGrid_cases (found : onGrid significand exponent tens = some digits) :
    let below := gridBelow significand exponent tens
    let range := interval significand exponent
    let (numerator, denominator) := Decimal.ratio significand exponent (-tens)
    digits = below ∧ (range.holds exponent tens (below + 1) = true →
        2 * (numerator % denominator) < denominator) ∨
      digits = below + 1 ∧ (range.holds exponent tens below = true →
        ¬2 * (numerator % denominator) < denominator) := by
  simp only [onGrid, gridBelow] at *
  grind

theorem onGrid_nearest (found : onGrid significand exponent tens = some digits)
    (pos : significand ≠ 0) (multiple : Nat)
    (reads : Reads significand exponent (multiple * 10 ^ tens)) :
    let x : ℚ := significand * 2 ^ exponent
    |digits * 10 ^ tens - x| ≤ |multiple * 10 ^ tens - x| ∧
      (|digits * 10 ^ tens - x| = |multiple * 10 ^ tens - x| → multiple ≤ digits) := by
  intro x
  have step : (0 : ℚ) < 10 ^ tens := by positivity
  obtain ⟨part, value, nonneg, small, half⟩ := gridBelow_spec significand exponent tens
  have cases := onGrid_cases found
  have below := holds_below pos reads
  have above := holds_above pos reads
  generalize gridBelow significand exponent tens = under at *
  have dist (n : Nat) : |n * 10 ^ tens - x| = |(n : ℚ) - (under + part)| * 10 ^ tens := by
    rw [← abs_of_pos step, ← abs_mul, abs_of_pos step, sub_mul, ← value]
  have down {n : Nat} (le : n ≤ under) : |(n : ℚ) - (under + part)| = under - n + part := by
    have le : (n : ℚ) ≤ under := Nat.cast_le.mpr le
    rw [abs_of_nonpos (by linarith)]
    ring
  have up {n : Nat} (lt : under < n) : |(n : ℚ) - (under + part)| = n - under - part := by
    have lt : (under : ℚ) + 1 ≤ n := by exact_mod_cast lt
    rw [abs_of_nonneg (by linarith)]
    ring
  rw [dist, dist, mul_le_mul_iff_left₀ step, mul_left_inj' step.ne']
  obtain ⟨rfl, only⟩ | ⟨rfl, only⟩ := cases
  · rw [down le_rfl]
    rcases le_or_gt multiple digits with le | lt
    · have le' : (multiple : ℚ) ≤ digits := Nat.cast_le.mpr le
      rw [down le]
      exact ⟨by linarith, fun _ => le⟩
    · have lt' : (digits : ℚ) + 1 ≤ multiple := by exact_mod_cast lt
      have near := half.mp (only (above lt))
      rw [up lt]
      exact ⟨by linarith, fun same => by linarith⟩
  · rw [up (Nat.lt_succ_self under)]
    push_cast
    rcases le_or_gt multiple under with le | lt
    · have le' : (multiple : ℚ) ≤ under := Nat.cast_le.mpr le
      have near := mt half.mpr (only (below le))
      rw [down le]
      exact ⟨by linarith, fun _ => le.trans (Nat.le_succ under)⟩
    · have lt' : (under : ℚ) + 1 ≤ multiple := by exact_mod_cast lt
      rw [up lt]
      refine ⟨by linarith, fun same => ?_⟩
      have last : (multiple : ℚ) = (under + 1 : Nat) := by
        push_cast
        linarith
      exact (Nat.cast_inj.mp last).le

/-! ## The coarsest grid -/

theorem two_zpow_lt (bits : Int) :
    (2 : ℚ) ^ bits < 10 ^ (if 0 ≤ bits then bits * 31 / 100 + 1 else -(-bits * 30 / 100) + 1) := by
  split
  · obtain ⟨count, rfl⟩ := Int.eq_ofNat_of_zero_le ‹_›
    have places : ((count : Int) * 31 / 100 + 1) = (count * 31 / 100 + 1 : Nat) := by
      push_cast
      rfl
    rw [places, zpow_natCast, zpow_natCast]
    refine lt_of_pow_lt_pow_left₀ 100 (by positivity) ?_
    calc ((2 : ℚ) ^ count) ^ 100 = (2 ^ 100) ^ count := by rw [← pow_mul, ← pow_mul, mul_comm]
      _ ≤ (10 ^ 31) ^ count := by gcongr; norm_num
      _ = 10 ^ (31 * count) := by rw [pow_mul]
      _ < 10 ^ ((count * 31 / 100 + 1) * 100) := by
        refine pow_lt_pow_right₀ (by norm_num) ?_
        omega
      _ = (10 ^ (count * 31 / 100 + 1)) ^ 100 := by rw [pow_mul]
  · obtain ⟨count, rfl⟩ : ∃ count : Nat, bits = -count := ⟨(-bits).toNat, by omega⟩
    have places : -(-(-(count : Int)) * 30 / 100) + 1 = -(count * 30 / 100 : Nat) + 1 := by
      push_cast
      rw [neg_neg]
    have power : (10 : ℚ) ^ (count * 30 / 100) ≤ 2 ^ count := by
      refine le_of_pow_le_pow_left₀ (n := 100) (by norm_num) (by positivity) ?_
      calc ((10 : ℚ) ^ (count * 30 / 100)) ^ 100 = 10 ^ (count * 30 / 100 * 100) := by rw [pow_mul]
        _ ≤ 10 ^ (30 * count) := by
          refine pow_le_pow_right₀ (by norm_num) ?_
          omega
        _ = (10 ^ 30) ^ count := by rw [pow_mul]
        _ ≤ (2 ^ 100) ^ count := by gcongr; norm_num
        _ = (2 ^ count) ^ 100 := by rw [← pow_mul, ← pow_mul, mul_comm]
    rw [places, zpow_add₀ (by norm_num), zpow_neg, zpow_neg, zpow_natCast, zpow_natCast, zpow_one]
    calc ((2 : ℚ) ^ count)⁻¹ ≤ (10 ^ (count * 30 / 100))⁻¹ := by gcongr
      _ < (10 ^ (count * 30 / 100))⁻¹ * 10 := by
        have some : (0 : ℚ) < (10 ^ (count * 30 / 100))⁻¹ := by positivity
        linarith

/-- What is read as a double lies below a power of two. -/
theorem Reads.lt_two_zpow (h : Reads significand exponent r) :
    r < 2 ^ ((Nat.log2 significand : Int) + exponent + 2) := by
  have pow : (0 : ℚ) < 2 ^ (2 - exponent) := by positivity
  have size : 4 * significand + 2 < 2 ^ (Nat.log2 significand + 3) := by
    have bits := Nat.lt_log2_self (n := significand)
    rw [pow_succ] at bits
    rw [pow_add]
    omega
  have high := h.bounds.2
  rw [interval_high] at high
  have below : quarters exponent r < 2 ^ (Nat.log2 significand + 3) :=
    high.trans_lt (by exact_mod_cast size)
  refine lt_of_mul_lt_mul_right (below.trans_le ?_) pow.le
  rw [← zpow_add₀ (by norm_num), ← zpow_natCast]
  refine zpow_le_zpow_right₀ (by norm_num) ?_
  push_cast
  omega

theorem reads_lt_coarsest (h : Reads significand exponent r) :
    r < 10 ^ coarsest significand exponent :=
  h.lt_two_zpow.trans (two_zpow_lt _)

/-! ## The search -/

/-- The search ends at the first grid with a hit. -/
theorem firstHit_spec (least : -1074 ≤ exponent) (pos : significand ≠ 0) (grids : Nat) :
    ∀ start : Int, 0 < grids → grids = start + 1075 →
      let found := firstHit significand exponent grids start
      onGrid significand exponent found.exponent = some found.digits ∧
        ∀ tens, found.exponent < tens → tens ≤ start →
          onGrid significand exponent tens = none := by
  induction grids with
  | zero => exact fun _ some => absurd some (lt_irrefl 0)
  | succ grids ih =>
    intro start _ count
    rw [firstHit]
    split
    · exact ⟨‹_›, fun tens more upto => absurd upto (not_le.mpr more)⟩
    · rename_i missed
      have more : 0 < grids := by
        -- The last grid has a hit.
        rcases Nat.eq_zero_or_pos grids with rfl | more
        · obtain rfl : start = -(1074 : Nat) := by omega
          exact absurd missed (onGrid_fine least pos)
        · exact more
      obtain ⟨hit, misses⟩ := ih (start - 1) more (by omega)
      refine ⟨hit, fun tens above upto => ?_⟩
      rcases eq_or_lt_of_le upto with rfl | lt
      · exact missed
      · exact misses tens above (by omega)

theorem shortest_spec (least : -1074 ≤ exponent) (pos : significand ≠ 0) :
    let found := shortest significand exponent
    onGrid significand exponent found.exponent = some found.digits ∧
      ∀ tens, found.exponent < tens → ∀ multiple : Nat, multiple ≠ 0 →
        ¬Reads significand exponent (multiple * 10 ^ tens) := by
  have fine := coarsest_ge significand least
  rw [shortest, if_neg pos]
  obtain ⟨hit, misses⟩ := firstHit_spec least pos (coarsest significand exponent + 1075).toNat
    (coarsest significand exponent) (by omega) (by omega)
  refine ⟨hit, fun tens more multiple some reads => ?_⟩
  rcases le_or_gt tens (coarsest significand exponent) with upto | above
  · exact onGrid_none (misses tens more upto) pos multiple reads
  · have below := reads_lt_coarsest reads
    have one : (1 : ℚ) ≤ multiple := by exact_mod_cast Nat.one_le_iff_ne_zero.mpr some
    have power : (10 : ℚ) ^ coarsest significand exponent ≤ 10 ^ tens :=
      zpow_le_zpow_right₀ (by norm_num) above.le
    have product : (10 : ℚ) ^ tens ≤ multiple * 10 ^ tens := le_mul_of_one_le_left (by positivity) one
    linarith

/-- Digits on the coarsest grid are the fewest: others with fewer digits would leave room for a
power of ten in between, on a coarser grid still. -/
theorem length_le_of_coarsest {d other : Digits} (reads : Reads significand exponent d.magnitude)
    (reads' : Reads significand exponent other.magnitude) (coarser : other.exponent ≤ d.exponent)
    (coarsest : ∀ tens, d.exponent < tens → ∀ multiple : Nat, multiple ≠ 0 →
      ¬Reads significand exponent (multiple * 10 ^ tens)) :
    (Nat.toDigits 10 d.digits).length ≤ (Nat.toDigits 10 other.digits).length := by
  by_contra! fewer
  have some := Nat.length_toDigits_pos (b := 10) (n := other.digits)
  have below := (Nat.length_toDigits_le_iff (n := other.digits) (by decide) some).mp le_rfl
  have above := not_lt.mp (mt (Nat.length_toDigits_le_iff (n := d.digits) (by decide) some).mpr
    (not_le.mpr fewer))
  generalize (Nat.toDigits 10 other.digits).length = count at below above some
  refine coarsest (count + d.exponent) (by omega) 1 one_ne_zero (reads'.between reads ?_ ?_)
  · have digits : (other.digits : ℚ) ≤ 10 ^ count := by exact_mod_cast below.le
    have tens : (10 : ℚ) ^ other.exponent ≤ 10 ^ d.exponent :=
      zpow_le_zpow_right₀ (by norm_num) coarser
    rw [magnitude, zpow_add₀ (by norm_num), zpow_natCast, Nat.cast_one, one_mul]
    gcongr
  · have digits : (10 : ℚ) ^ count ≤ d.digits := by exact_mod_cast above
    rw [magnitude, zpow_add₀ (by norm_num), zpow_natCast, Nat.cast_one, one_mul]
    gcongr

/-- The digits of a double are the fewest that are read as it. -/
theorem shortest_fewest (n : Normalized significand exponent) :
    Fewest significand exponent (shortest significand exponent) := by
  have magnitude_nonneg (d : Digits) : 0 ≤ d.magnitude := by
    rw [magnitude]
    positivity
  have nearest (d : Digits) := reads_iff_nearest n (magnitude_nonneg d)
  have multiple (multiple : Nat) (tens : Int) :=
    reads_iff_nearest n (r := multiple * 10 ^ tens) (by positivity)
  rcases eq_or_ne significand 0 with rfl | pos
  · have least : exponent = -1074 := n.leading.resolve_right (by decide)
    have zero : shortest 0 exponent = ⟨0, 0⟩ := by rw [shortest, if_pos rfl]
    have reads : Reads 0 exponent (magnitude ⟨0, 0⟩) := by
      have none : magnitude ⟨0, 0⟩ = 0 := by simp [magnitude]
      rw [none, Reads, quarters, zero_mul]
      simp [Interval.Contains, interval]
    rw [zero]
    refine ⟨(nearest _).mp reads, fun other _ _ => ?_, fun other some reads' => ?_,
      fun n reads' => ?_⟩
    · exact Nat.length_toDigits_pos
    · by_contra! coarser
      have below := ((nearest other).mpr reads').lt_two_zpow
      have small : (2 : ℚ) ^ ((Nat.log2 0 : Int) + exponent + 2) ≤ 1 := by
        rw [least]
        exact zpow_le_one_of_nonpos₀ (by norm_num) (by decide)
      have one : (1 : ℚ) ≤ other.digits := by exact_mod_cast Nat.one_le_iff_ne_zero.mpr some
      have power : (1 : ℚ) ≤ 10 ^ other.exponent := one_le_zpow₀ (by norm_num) coarser.le
      have product : 1 ≤ other.magnitude := one_le_mul_of_one_le_of_one_le one power
      linarith
    · constructor
      · simp [magnitude]
      · intro same
        simpa [magnitude, eq_comm] using same
  · obtain ⟨hit, coarsest⟩ := shortest_spec n.least pos
    have reads := shortest_reads n.least pos
    have coarser (other : Digits) (some : other.digits ≠ 0)
        (reads : Nearest significand exponent other.magnitude) :
        other.exponent ≤ (shortest significand exponent).exponent := by
      by_contra! more
      exact coarsest _ more _ some ((nearest other).mpr reads)
    refine ⟨(nearest _).mp reads, fun other some reads' => ?_, coarser, fun n reads' => ?_⟩
    · exact length_le_of_coarsest reads ((nearest other).mpr reads') (coarser other some reads')
        coarsest
    · exact onGrid_nearest hit pos n ((multiple n _).mpr reads')

end Fluent.Number.Digits
