import Mathlib.Algebra.Order.Field.Basic
import Mathlib.Algebra.Order.Ring.Rat
import Mathlib.Data.Rat.Cast.Order
import Mathlib.Tactic.FieldSimp
import Mathlib.Tactic.Linarith
import Mathlib.Tactic.NormNum
import Mathlib.Tactic.Ring
import PolishArithmetic.Proofs.Number.Rounding

/-!
The rank of a decimal against the decimal's exact value. A decimal is in range below the middle
between the greatest finite magnitude and the one that would follow it, and then its rank is that of
the nearest magnitude, the even one of two that are equally near.
-/
namespace PolishArithmetic

namespace Rank

/-- The number that a magnitude is. -/
def value (r : Nat) : ℚ :=
  units r / 2 ^ 1074

/-- No finite magnitude is nearer to `q` than that of rank `r`, and if another one is as near, `r`
is even. -/
structure IsNearest (r : Nat) (q : ℚ) : Prop where
  lt_infinity : r < infinity
  dist_le : ∀ r' < infinity, |value r - q| ≤ |value r' - q|
  even : ∀ r' < infinity, r' ≠ r → |value r' - q| = |value r - q| → r % 2 = 0

/-- The least number that is out of range. -/
def overflow : ℚ :=
  2 ^ 1024 - 2 ^ 970

theorem value_strictMono : StrictMono value := by
  intro r r' h
  have hunits : (units r : ℚ) < units r' := by exact_mod_cast units_strictMono h
  exact div_lt_div_of_pos_right hunits (by positivity)

@[simp] theorem value_zero : value 0 = 0 := by
  rw [value, units, if_pos (by decide), Nat.cast_zero, zero_div]

theorem value_nonneg (r : Nat) : 0 ≤ value r := by
  unfold value
  positivity

section

variable {r r' n d : Nat} {q : ℚ}

/-- Below the middle of two neighbours the lower one is nearest. -/
theorem dist_lower_lt (hlo : value r ≤ q) (hhi : 2 * q < value r + value (r + 1)) (hne : r' ≠ r) :
    |value r - q| < |value r' - q| := by
  rw [abs_of_nonpos (by linarith)]
  rcases Nat.lt_or_gt_of_ne hne with hlt | hgt
  · have := value_strictMono hlt
    rw [abs_of_nonpos (by linarith)]
    linarith
  · have := value_strictMono.monotone (Nat.succ_le_of_lt hgt)
    rw [abs_of_nonneg (by linarith)]
    linarith

/-- Above the middle the upper one is nearest. -/
theorem dist_upper_lt (hlo : value r + value (r + 1) < 2 * q) (hhi : q ≤ value (r + 1))
    (hne : r' ≠ r + 1) : |value (r + 1) - q| < |value r' - q| := by
  rw [abs_of_nonneg (by linarith)]
  rcases Nat.lt_or_gt_of_ne hne with hlt | hgt
  · have := value_strictMono.monotone (Nat.le_of_lt_succ hlt)
    rw [abs_of_nonpos (by linarith)]
    linarith
  · have := value_strictMono hgt
    rw [abs_of_nonneg (by linarith)]
    linarith

/-- In the middle of two neighbours both are nearest. -/
theorem dist_middle_le (hq : 2 * q = value r + value (r + 1)) (hr : r' = r ∨ r' = r + 1) (i : Nat) :
    |value r' - q| ≤ |value i - q| := by
  have hstep := value_strictMono (Nat.lt_succ_self r)
  have hdist : |value r' - q| = q - value r := by
    rcases hr with rfl | rfl
    · rw [abs_of_nonpos (by linarith)]
      ring
    · rw [abs_of_nonneg (by linarith)]
      linarith
  rw [hdist]
  rcases Nat.lt_or_ge r i with hlt | hge
  · have := value_strictMono.monotone (Nat.succ_le_of_lt hlt)
    rw [abs_of_nonneg (by linarith)]
    linarith
  · have := value_strictMono.monotone hge
    rw [abs_of_nonpos (by linarith)]
    linarith

theorem isNearest_of_lt (h : r < infinity) (hlt : ∀ i, i ≠ r → |value r - q| < |value i - q|) :
    IsNearest r q where
  lt_infinity := h
  dist_le i _ := by
    by_cases hi : i = r
    · rw [hi]
    · exact (hlt i hi).le
  even i _ hi heq := absurd heq (hlt i hi).ne'

/-- Two magnitudes that are nearest are neighbours, of which one is odd. -/
theorem IsNearest.unique (h : IsNearest r q) (h' : IsNearest r' q) : r = r' := by
  by_contra hne
  wlog hlt : r < r' generalizing r r'
  · exact this h' h (Ne.symm hne) (by omega)
  have hdist := le_antisymm (h.dist_le r' h'.lt_infinity) (h'.dist_le r h.lt_infinity)
  have heven := h.even r' h'.lt_infinity (Ne.symm hne) hdist.symm
  have heven' := h'.even r h.lt_infinity hne hdist
  have hlo := value_strictMono (Nat.lt_succ_self r)
  have hhi := value_strictMono (show r + 1 < r' by omega)
  have hle := h.dist_le (r + 1) (by have := h'.lt_infinity; omega)
  have hmiddle : value r - q = -(value r' - q) := by
    refine (abs_eq_abs.mp hdist).resolve_left ?_
    intro heq
    linarith
  rw [abs_of_nonpos (by linarith)] at hle
  have hinner : |value (r + 1) - q| < -(value r - q) := abs_lt.mpr ⟨by linarith, by linarith⟩
  linarith

theorem value_le_iff (hd : 0 < d) : value r ≤ n / d / 2 ^ 1074 ↔ units r * d ≤ n := by
  have hd' : (0 : ℚ) < d := by exact_mod_cast hd
  rw [value, div_le_div_iff_of_pos_right (by positivity), le_div_iff₀ hd']
  exact_mod_cast Iff.rfl

theorem middle_lt_iff (hd : 0 < d) : value r + value r' < 2 * (n / d / 2 ^ 1074) ↔
    d * (units r + units r') < 2 * n := by
  have hd' : (0 : ℚ) < d := by exact_mod_cast hd
  rw [value, value, ← add_div, mul_div_assoc', div_lt_div_iff_of_pos_right (by positivity),
    mul_div_assoc', lt_div_iff₀ hd', mul_comm]
  exact_mod_cast Iff.rfl

theorem lt_middle_iff (hd : 0 < d) : 2 * (n / d / 2 ^ 1074) < value r + value r' ↔
    2 * n < d * (units r + units r') := by
  have hd' : (0 : ℚ) < d := by exact_mod_cast hd
  rw [value, value, ← add_div, mul_div_assoc', div_lt_div_iff_of_pos_right (by positivity),
    mul_div_assoc', div_lt_iff₀ hd', mul_comm _ (d : ℚ)]
  exact_mod_cast Iff.rfl

theorem nearest_le_succ (n d : Nat) : nearest n d ≤ ofUnits (n / d) + 1 := by
  unfold nearest
  dsimp only
  split
  · exact Nat.le_succ _
  · split <;> omega

theorem ofUnits_div_encloses (hd : 0 < d) :
    value (ofUnits (n / d)) ≤ n / d / 2 ^ 1074 ∧
      n / d / 2 ^ 1074 < value (ofUnits (n / d) + 1) := by
  obtain ⟨hlo, hhi⟩ := ofUnits_encloses (n / d)
  rw [value_le_iff hd, ← not_le, value_le_iff hd, not_le]
  exact ⟨(Nat.le_div_iff_mul_le hd).mp hlo, (Nat.div_lt_iff_lt_mul hd).mp hhi⟩

theorem isNearest_nearest (hd : 0 < d) (h : nearest n d < infinity) :
    IsNearest (nearest n d) (n / d / 2 ^ 1074) := by
  obtain ⟨hlo, hhi⟩ := ofUnits_div_encloses (n := n) hd
  unfold nearest at h ⊢
  dsimp only at h ⊢
  split at h
  · next hlt =>
    rw [if_pos hlt]
    exact isNearest_of_lt h fun i hi => dist_lower_lt hlo ((lt_middle_iff hd).mpr hlt) hi
  · next hle =>
    rw [if_neg hle]
    split at h
    · next heq =>
      rw [if_pos heq]
      have hmiddle := le_antisymm (not_lt.mp (mt (middle_lt_iff hd).mp heq.not_gt))
        (not_lt.mp (mt (lt_middle_iff hd).mp heq.not_lt))
      have hr : ofUnits (n / d) + ofUnits (n / d) % 2 = ofUnits (n / d) ∨
          ofUnits (n / d) + ofUnits (n / d) % 2 = ofUnits (n / d) + 1 := by omega
      exact ⟨h, fun i _ => dist_middle_le hmiddle hr i, fun _ _ _ _ => by omega⟩
    · next hne =>
      rw [if_neg hne]
      have hgt : d * (units (ofUnits (n / d)) + units (ofUnits (n / d) + 1)) < 2 * n := by omega
      exact isNearest_of_lt h fun i hi => dist_upper_lt ((middle_lt_iff hd).mpr hgt) hhi.le hi

end

theorem cast_shiftLeft (m k : Nat) : ((m <<< k : Nat) : ℚ) = m * 2 ^ k := by
  rw [Nat.shiftLeft_eq, Nat.cast_mul, Nat.cast_pow, Nat.cast_ofNat]

/-- The greatest finite magnitude and the next one are as far from the least number out of range. -/
theorem middle_overflow : value (infinity - 1) + value infinity = 2 * overflow := by
  -- Exponents stay variables until the end, since the powers are too large to be computed.
  have hscale {a b c : Nat} {x : ℚ} (h : x + 2 ^ (b + c + 1) = 2 ^ (a + c + 1)) :
      x / 2 ^ c = 2 * (2 ^ a - 2 ^ b) := by
    rw [pow_succ, pow_succ, pow_add, pow_add] at h
    rw [div_eq_iff (by positivity)]
    linarith
  have hunits : units (infinity - 1) + units infinity + 1 <<< 2045 = 1 <<< 2099 := by
    decide +kernel
  have hsum := congrArg (Nat.cast : Nat → ℚ) hunits
  rw [Nat.cast_add, Nat.cast_add, cast_shiftLeft, cast_shiftLeft, Nat.cast_one, one_mul,
    one_mul] at hsum
  rw [value, value, ← add_div]
  exact hscale hsum

/-- A number is rounded to a finite magnitude exactly if it is in range. -/
theorem nearest_lt_infinity_iff {n d : Nat} (hd : 0 < d) :
    nearest n d < infinity ↔ (n / d / 2 ^ 1074 : ℚ) < overflow := by
  have hmiddle := middle_overflow
  have hlast := value_strictMono (show infinity - 1 < infinity by decide)
  obtain ⟨hlo, hhi⟩ := ofUnits_div_encloses (n := n) hd
  have hbelow : 2 * (n / d / 2 ^ 1074) < value (infinity - 1) + value infinity ↔
      2 * n < d * (units (infinity - 1) + units infinity) := lt_middle_iff hd
  generalize (n / d / 2 ^ 1074 : ℚ) = q at hlo hhi hbelow ⊢
  rcases Nat.lt_trichotomy (ofUnits (n / d)) (infinity - 1) with hlt | heq | hgt
  · -- Both neighbours are finite.
    have := value_strictMono.monotone (show ofUnits (n / d) + 1 ≤ infinity - 1 by omega)
    have hle := nearest_le_succ n d
    exact iff_of_true (by omega) (by linarith)
  · -- Only the lower neighbour is finite, and it is odd.
    have hodd : infinity - 1 + (infinity - 1) % 2 = infinity := by decide
    have hsucc : infinity - 1 + 1 = infinity := by decide
    have hrange : q < overflow ↔ 2 * n < d * (units (infinity - 1) + units infinity) := by
      rw [← hbelow, hmiddle]
      exact (mul_lt_mul_iff_right₀ two_pos).symm
    rw [hrange, nearest, heq]
    rw [hodd, hsucc]
    split
    · next hlt => exact iff_of_true (by decide) hlt
    · next hle => split <;> exact iff_of_false (lt_irrefl _) hle
  · -- Both neighbours are beyond the last finite magnitude.
    have := value_strictMono.monotone (show infinity ≤ ofUnits (n / d) by omega)
    have hle := ofUnits_le_nearest n d
    exact iff_of_false (by omega) (by linarith)

end Rank

namespace Decimal

/-- The number that the digits and the power of ten make. -/
def number (d : Decimal) : ℚ :=
  d.digits * 10 ^ d.exponent

theorem denominator_pos (d : Decimal) : 0 < d.denominator := by
  unfold denominator
  split
  · exact Nat.one_pos
  · exact tenPower_pos _

theorem number_nonneg (d : Decimal) : 0 ≤ d.number :=
  mul_nonneg (Nat.cast_nonneg _) (zpow_nonneg (by norm_num) _)

theorem cast_tenPower (k : Nat) : ((tenPower k : Nat) : ℚ) = 10 ^ k := by
  rw [tenPower, Nat.pow_eq, Nat.cast_pow, Nat.cast_ofNat]

theorem number_eq (d : Decimal) : d.number = d.numerator / d.denominator / 2 ^ 1074 := by
  have hunit : (2 : ℚ) ^ 1074 ≠ 0 := pow_ne_zero _ two_ne_zero
  obtain ⟨digits, k | k⟩ := d
  · rw [number, numerator, denominator, Rank.cast_shiftLeft, Nat.cast_mul, cast_tenPower,
      Nat.cast_one, div_one, mul_div_cancel_right₀ _ hunit, Int.ofNat_eq_natCast, zpow_natCast]
  · rw [number, numerator, denominator, Rank.cast_shiftLeft, cast_tenPower, div_right_comm,
      mul_div_cancel_right₀ _ hunit, zpow_negSucc, div_eq_mul_inv]

theorem rank_lt_infinity_iff (d : Decimal) : d.rank < Rank.infinity ↔ d.number < Rank.overflow := by
  rw [rank_eq_nearest, number_eq, min_lt_iff, or_iff_right (lt_irrefl _),
    Rank.nearest_lt_infinity_iff d.denominator_pos]

theorem isNearest_rank {d : Decimal} (h : d.rank < Rank.infinity) :
    Rank.IsNearest d.rank d.number := by
  rw [rank_eq_nearest, min_lt_iff, or_iff_right (lt_irrefl _)] at h
  rw [rank_eq_nearest, min_eq_right h.le, number_eq]
  exact Rank.isNearest_nearest d.denominator_pos h

end Decimal

end PolishArithmetic
