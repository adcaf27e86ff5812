import Fluent.Proofs.Number.Shortest
import Mathlib.Algebra.Order.Group.Unbundled.Abs

/-!
# The double nearest to a magnitude

A magnitude is read as the double that is nearest to it or, where two are equally near, as the one
with the even significand. The intervals of the digits search say the same, with their ends halfway
to the doubles above and below.

* `Nearest`: the rule of reading, against all other doubles;
* `gap_above`, `gap_below`: no double lies between a double and its neighbours;
* `reads_iff_nearest`: the intervals and the rule agree.
-/

namespace Fluent.Number.Digits

open Binary64 (Normalized)

/-- A magnitude is no nearer to any double than to the one with the given parts; if it is as near to
another one, the significand is even. Exponents have no upper limit here: a magnitude at which
doubles end is nearest to a double that would come next. -/
structure Nearest (significand : Nat) (exponent : Int) (r : ℚ) : Prop where
  near : ∀ significand' exponent', Normalized significand' exponent' →
    |r - significand * 2 ^ exponent| ≤ |r - significand' * 2 ^ exponent'|
  tie : ∀ significand' exponent', Normalized significand' exponent' →
    |r - significand * 2 ^ exponent| = |r - significand' * 2 ^ exponent'| →
      (significand' : ℚ) * 2 ^ exponent' = significand * 2 ^ exponent ∨ significand % 2 = 0

variable {significand significand' : Nat} {exponent exponent' : Int} {r : ℚ}

/-! ## Neighbours -/

/-- The quarters of a double in those of another one, whose exponent is no larger. -/
theorem quarters_larger {shift : Nat} (apart : exponent' = exponent + shift) :
    quarters exponent (significand' * 2 ^ exponent') = (4 * (significand' * 2 ^ shift) : Nat) := by
  rw [quarters_shift apart, quarters_self]
  push_cast
  ring

theorem quarters_smaller {shift : Nat} (apart : exponent = exponent' + shift) :
    quarters exponent (significand' * 2 ^ exponent') * 2 ^ shift = (4 * significand' : Nat) := by
  rw [← quarters_shift apart, quarters_self]

theorem interval_low_le (significand : Nat) (exponent : Int) :
    (interval significand exponent).low ≤ 4 * significand := by
  simp only [interval]
  split <;> omega

/-- A double whose exponent is smaller lies below. -/
theorem smaller_below {shift : Nat} (n : Normalized significand exponent)
    (n' : Normalized significand' exponent') (apart : exponent = exponent' + shift)
    (some : 0 < shift) :
    quarters exponent (significand' * 2 ^ exponent') + (4 * significand : Nat) ≤
      (2 * (interval significand exponent).low : Nat) := by
  have least := n'.least
  have below := n'.below
  have leading := n.leading.resolve_left (by omega)
  have pow : (0 : ℚ) < 2 ^ shift := by positivity
  have power : 2 ^ 1 ≤ 2 ^ shift := Nat.pow_le_pow_right (by decide) some
  have wide : 4 * Binary64.leastNormal - 2 + 4 * significand ≤
      2 * (interval significand exponent).low := by
    simp only [interval]
    split <;> omega
  have bound : 4 * significand' ≤ (4 * Binary64.leastNormal - 2) * 2 ^ shift := by
    have product := Nat.mul_le_mul_left (4 * Binary64.leastNormal - 2) power
    omega
  have quarter : quarters exponent (significand' * 2 ^ exponent') ≤
      (4 * Binary64.leastNormal - 2 : Nat) := by
    refine le_of_mul_le_mul_right ?_ pow
    rw [quarters_smaller apart]
    exact_mod_cast bound
  calc quarters exponent (significand' * 2 ^ exponent') + (4 * significand : Nat)
      ≤ (4 * Binary64.leastNormal - 2 : Nat) + (4 * significand : Nat) := by gcongr
    _ ≤ (2 * (interval significand exponent).low : Nat) := by exact_mod_cast wide

/-- No double lies nearer above a double than its neighbour. -/
theorem gap_above (n : Normalized significand exponent) (n' : Normalized significand' exponent')
    (more : (4 * significand : Nat) < quarters exponent (significand' * 2 ^ exponent')) :
    (4 * significand + 4 : Nat) ≤ quarters exponent (significand' * 2 ^ exponent') := by
  rcases le_or_gt exponent exponent' with le | less
  · obtain ⟨shift, apart⟩ := Int.le.dest le
    rw [quarters_larger apart.symm, Nat.cast_lt] at more
    rw [quarters_larger apart.symm, Nat.cast_le]
    omega
  · obtain ⟨shift, apart⟩ := Int.le.dest less.le
    have below := smaller_below n n' apart.symm (by omega)
    have low : ((interval significand exponent).low : ℚ) ≤ (4 * significand : Nat) :=
      Nat.cast_le.mpr (interval_low_le significand exponent)
    push_cast at *
    linarith

/-- No double lies nearer below a double than its neighbour, which is as far from the lower end of
the interval as the double itself. -/
theorem gap_below (n : Normalized significand exponent) (n' : Normalized significand' exponent')
    (less : quarters exponent (significand' * 2 ^ exponent') < (4 * significand : Nat)) :
    quarters exponent (significand' * 2 ^ exponent') + (4 * significand : Nat) ≤
      (2 * (interval significand exponent).low : Nat) := by
  rcases le_or_gt exponent exponent' with le | smaller
  · obtain ⟨shift, apart⟩ := Int.le.dest le
    have low := interval_low_ge significand exponent
    rw [quarters_larger apart.symm, Nat.cast_lt] at less
    rw [quarters_larger apart.symm, ← Nat.cast_add, Nat.cast_le]
    omega
  · obtain ⟨shift, apart⟩ := Int.le.dest smaller.le
    exact smaller_below n n' apart.symm (by omega)

/-- There is a double at the far end of the gap above. -/
theorem exists_above (n : Normalized significand exponent) :
    ∃ significand' exponent', Normalized significand' exponent' ∧
      quarters exponent (significand' * 2 ^ exponent') = (4 * significand + 4 : Nat) := by
  have least := n.least
  have below := n.below
  by_cases last : significand + 1 = 2 * Binary64.leastNormal
  · refine ⟨Binary64.leastNormal, exponent + 1, ⟨by omega, by decide, .inr le_rfl⟩, ?_⟩
    have larger : quarters exponent (Binary64.leastNormal * 2 ^ (exponent + 1)) =
        (4 * (Binary64.leastNormal * 2 ^ 1) : Nat) := quarters_larger rfl
    rw [larger, Nat.cast_inj]
    omega
  · have leading := n.leading
    refine ⟨significand + 1, exponent, ⟨least, by omega, by omega⟩, ?_⟩
    rw [quarters_self]
    rfl

/-- There is a double at the far end of the gap below, unless that is below zero. -/
theorem exists_below (n : Normalized significand exponent) (pos : significand ≠ 0) :
    ∃ significand' exponent', Normalized significand' exponent' ∧
      quarters exponent (significand' * 2 ^ exponent') + (4 * significand : Nat) =
        (2 * (interval significand exponent).low : Nat) := by
  have least := n.least
  have below := n.below
  by_cases first : significand = Binary64.leastNormal ∧ -1074 < exponent
  · obtain ⟨rfl, above⟩ := first
    refine ⟨2 * Binary64.leastNormal - 1, exponent - 1,
      ⟨by omega, by decide, .inr (by decide)⟩, ?_⟩
    have scaled : quarters exponent ((2 * Binary64.leastNormal - 1 : Nat) * 2 ^ (exponent - 1)) *
        2 ^ 1 = (4 * (2 * Binary64.leastNormal - 1) : Nat) := quarters_smaller (by omega)
    have low : (interval Binary64.leastNormal exponent).low = 4 * Binary64.leastNormal - 1 :=
      if_pos ⟨rfl, above⟩
    rw [low]
    norm_num [Binary64.leastNormal_eq] at scaled ⊢
    linarith
  · have leading := n.leading
    have low : (interval significand exponent).low = 4 * significand - 2 := if_neg first
    refine ⟨significand - 1, exponent, ⟨least, by omega, by omega⟩, ?_⟩
    rw [quarters_self, low, ← Nat.cast_add, Nat.cast_inj]
    omega

/-! ## The rule of reading -/

section

variable {q c y : ℚ}

theorem dist_above (more : c < y) :
    (|q - c| ≤ |q - y| ↔ 2 * q ≤ c + y) ∧ (|q - c| = |q - y| ↔ 2 * q = c + y) := by
  rcases abs_cases (q - c) with ⟨first, sign⟩ | ⟨first, sign⟩ <;>
    rcases abs_cases (q - y) with ⟨second, sign'⟩ | ⟨second, sign'⟩ <;>
    rw [first, second] <;> constructor <;> constructor <;> intro h <;> linarith

theorem dist_below (less : y < c) :
    (|q - c| ≤ |q - y| ↔ y + c ≤ 2 * q) ∧ (|q - c| = |q - y| ↔ 2 * q = y + c) := by
  rcases abs_cases (q - c) with ⟨first, sign⟩ | ⟨first, sign⟩ <;>
    rcases abs_cases (q - y) with ⟨second, sign'⟩ | ⟨second, sign'⟩ <;>
    rw [first, second] <;> constructor <;> constructor <;> intro h <;> linarith

end

/-- The rule of reading, in quarters. -/
theorem nearest_iff : Nearest significand exponent r ↔
    ∀ significand' exponent', Normalized significand' exponent' →
      let q := quarters exponent r
      let y := quarters exponent (significand' * 2 ^ exponent')
      |q - (4 * significand : Nat)| ≤ |q - y| ∧
        (|q - (4 * significand : Nat)| = |q - y| → y = (4 * significand : Nat) ∨
          significand % 2 = 0) := by
  have pow : (0 : ℚ) < 2 ^ (2 - exponent) := by positivity
  have dist (x : ℚ) :
      |quarters exponent r - quarters exponent x| = |r - x| * 2 ^ (2 - exponent) := by
    rw [quarters, quarters, ← sub_mul, abs_mul, abs_of_pos pow]
  have same (x y : ℚ) : quarters exponent x = quarters exponent y ↔ x = y :=
    mul_left_inj' pow.ne'
  simp only [← quarters_self significand exponent, dist, same, mul_le_mul_iff_left₀ pow,
    mul_left_inj' pow.ne']
  exact ⟨fun h s e n => ⟨h.near s e n, h.tie s e n⟩,
    fun h => ⟨fun s e n => (h s e n).1, fun s e n => (h s e n).2⟩⟩

/-- A magnitude reads as a double exactly if it is nearest to it. -/
theorem reads_iff_nearest (n : Normalized significand exponent) (nonneg : 0 ≤ r) :
    Reads significand exponent r ↔ Nearest significand exponent r := by
  have low : ((interval significand exponent).low : ℚ) ≤ (4 * significand : Nat) :=
    Nat.cast_le.mpr (interval_low_le significand exponent)
  have high : ((interval significand exponent).high : ℚ) = (4 * significand : Nat) + 2 := by
    rw [interval_high]
    push_cast
    rfl
  have nonneg' : 0 ≤ quarters exponent r := mul_nonneg nonneg (by positivity)
  rw [nearest_iff]
  constructor
  · intro reads significand' exponent' n' q y
    obtain ⟨from_low, to_high⟩ := reads.bounds
    rw [high] at to_high
    rcases lt_trichotomy y (4 * significand : Nat) with less | same | more
    · have gap := gap_below n n' less
      push_cast at *
      obtain ⟨near, tie⟩ := dist_below (q := q) less
      refine ⟨near.mpr (by linarith), fun same => ?_⟩
      by_contra! odd
      have inside := (reads.inside (interval_open (Nat.mod_two_ne_zero.mp odd.2))).1
      linarith [tie.mp same]
    · rw [same]
      exact ⟨le_rfl, fun _ => .inl rfl⟩
    · have gap := gap_above n n' more
      push_cast at *
      obtain ⟨near, tie⟩ := dist_above (q := q) more
      refine ⟨near.mpr (by linarith), fun same => ?_⟩
      by_contra! odd
      have inside := (reads.inside (interval_open (Nat.mod_two_ne_zero.mp odd.2))).2
      linarith [tie.mp same]
  · intro nearest
    have upper : quarters exponent r ≤ (interval significand exponent).high ∧
        (quarters exponent r = (interval significand exponent).high → significand % 2 = 0) := by
      obtain ⟨significand', exponent', n', next⟩ := exists_above n
      obtain ⟨near, tie⟩ := nearest significand' exponent' n'
      rw [next] at near tie
      push_cast at *
      obtain ⟨near', tie'⟩ := dist_above (q := quarters exponent r) (c := 4 * significand)
        (y := 4 * significand + 4) (by linarith)
      refine ⟨by linarith [near'.mp near], fun last => ?_⟩
      exact (tie (tie'.mpr (by linarith))).resolve_left fun same => by linarith
    have lower : (interval significand exponent).low ≤ quarters exponent r ∧
        (quarters exponent r = (interval significand exponent).low → significand % 2 = 0) := by
      rcases eq_or_ne significand 0 with rfl | pos
      · exact ⟨le_trans (by simpa using low) nonneg', fun _ => rfl⟩
      · obtain ⟨significand', exponent', n', next⟩ := exists_below n pos
        obtain ⟨near, tie⟩ := nearest significand' exponent' n'
        have strict : ((interval significand exponent).low : ℚ) < (4 * significand : Nat) :=
          Nat.cast_lt.mpr (interval_low_lt pos)
        push_cast at *
        obtain ⟨near', tie'⟩ := dist_below (q := quarters exponent r) (c := 4 * significand)
          (y := quarters exponent (significand' * 2 ^ exponent')) (by linarith)
        refine ⟨by linarith [near'.mp near], fun last => ?_⟩
        exact (tie (tie'.mpr (by linarith))).resolve_left fun same => by linarith
    have closed : (interval significand exponent).closed = (significand % 2 == 0) := rfl
    rw [Reads, Interval.Contains, closed]
    by_cases even : significand % 2 = 0
    · rw [if_pos (beq_iff_eq.mpr even)]
      exact ⟨lower.1, upper.1⟩
    · rw [if_neg (mt beq_iff_eq.mp even)]
      exact ⟨lower.1.lt_of_ne fun same => even (lower.2 same.symm),
        upper.1.lt_of_ne fun same => even (upper.2 same)⟩

end Fluent.Number.Digits
