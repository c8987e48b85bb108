import PolishArithmetic.Number.Shortest
import Mathlib.Order.Monotone.Basic

/-!
Rounding of decimals to ranks. The rank of a decimal is the one nearest to it, whatever shortcut
finds it; every decimal that is chosen for a magnitude rounds back to it.
-/
namespace PolishArithmetic

namespace Rank

theorem units_strictMono : StrictMono units :=
  strictMono_nat_of_lt_succ units_lt_units_succ

theorem le_ofUnits_iff {r n : Nat} : r ≤ ofUnits n ↔ units r ≤ n := by
  obtain ⟨hlo, hhi⟩ := ofUnits_encloses n
  constructor
  · intro h
    exact (units_strictMono.monotone h).trans hlo
  · intro h
    have hlt := units_strictMono.lt_iff_lt.mp (h.trans_lt hhi)
    omega

theorem ofUnits_units (r : Nat) : ofUnits (units r) = r := by
  have hle : r ≤ ofUnits (units r) := le_ofUnits_iff.mpr le_rfl
  obtain ⟨hlo, -⟩ := ofUnits_encloses (units r)
  exact le_antisymm (units_strictMono.le_iff_le.mp hlo) hle

theorem ofUnits_le_nearest (n d : Nat) : ofUnits (n / d) ≤ nearest n d := by
  unfold nearest
  dsimp only
  split
  · exact le_rfl
  · split
    · exact Nat.le_add_right _ _
    · exact Nat.le_add_right _ _

theorem le_nearest {r n d : Nat} (hd : 0 < d) (h : units r * d ≤ n) : r ≤ nearest n d := by
  refine le_trans ?_ (ofUnits_le_nearest n d)
  exact le_ofUnits_iff.mpr ((Nat.le_div_iff_mul_le hd).mpr h)

/-- A magnitude is nearest to itself. -/
theorem nearest_units_mul {r d : Nat} (hd : 0 < d) : nearest (units r * d) d = r := by
  have hlt : 2 * (units r * d) < d * (units r + units (r + 1)) := by
    have hstep := Nat.mul_lt_mul_of_pos_left (units_lt_units_succ r) hd
    rw [Nat.mul_add, Nat.mul_comm (units r) d]
    omega
  unfold nearest
  rw [Nat.mul_div_cancel _ hd, ofUnits_units]
  exact if_pos hlt

/-- Zero is nearest to what is less than half a unit. -/
theorem nearest_eq_zero {n d : Nat} (h : 2 * n < d) : nearest n d = 0 := by
  have hdiv : n / d = 0 := Nat.div_eq_of_lt (by omega)
  have hzero : ofUnits 0 = 0 := ofUnits_units 0
  have hlt : 2 * n < d * (units 0 + units (0 + 1)) := by simpa [units, binade] using h
  unfold nearest
  rw [hdiv, hzero]
  exact if_pos hlt

theorem units_infinity : units infinity = 1 <<< 2098 := by
  decide +kernel

end Rank

namespace Decimal

/-- The number in units is the fraction of numerator and denominator. -/
def numerator (d : Decimal) : Nat :=
  match d.exponent with
  | .ofNat k => (d.digits * tenPower k) <<< 1074
  | .negSucc _ => d.digits <<< 1074

def denominator (d : Decimal) : Nat :=
  match d.exponent with
  | .ofNat _ => 1
  | .negSucc k => tenPower (k + 1)

theorem numerator_of_negSucc {d : Decimal} {k : Nat} (h : d.exponent = .negSucc k) :
    d.numerator = d.digits <<< 1074 := by
  rw [numerator, h]

theorem denominator_of_negSucc {d : Decimal} {k : Nat} (h : d.exponent = .negSucc k) :
    d.denominator = tenPower (k + 1) := by
  rw [denominator, h]

theorem tenPower_pos (k : Nat) : 0 < tenPower k :=
  Nat.pow_pos (by decide)

theorem fivePower_shiftLeft (n k : Nat) : (n * Nat.pow 5 k) <<< k = n * tenPower k := by
  rw [Nat.shiftLeft_eq, Nat.mul_assoc]
  exact congrArg (n * ·) (Nat.mul_pow 5 2 k).symm

theorem tenPower_le {j k : Nat} (h : j ≤ k) : tenPower j ≤ tenPower k :=
  Nat.pow_le_pow_right (by decide) h

theorem infinity_le_nearest {digits k : Nat} (hdigits : digits ≠ 0) (hk : 309 ≤ k) :
    Rank.infinity ≤ Rank.nearest ((digits * tenPower k) <<< 1074) 1 := by
  apply Rank.le_nearest Nat.one_pos
  have hten : 1 <<< 2098 ≤ tenPower 309 <<< 1074 := by decide +kernel
  have hle : tenPower 309 ≤ digits * tenPower k :=
    (tenPower_le hk).trans (Nat.le_mul_of_pos_left _ (Nat.pos_of_ne_zero hdigits))
  rw [Nat.mul_one, Rank.units_infinity]
  refine hten.trans ?_
  rw [Nat.shiftLeft_eq, Nat.shiftLeft_eq]
  exact Nat.mul_le_mul_right _ hle

theorem nearest_eq_zero_of_log2 {digits s k : Nat} (h : digits.log2 + (s + 2) ≤ 3 * (k + 1)) :
    Rank.nearest (digits <<< s) (tenPower (k + 1)) = 0 := by
  apply Rank.nearest_eq_zero
  calc
    2 * digits <<< s = digits <<< (s + 1) := (Nat.shiftLeft_succ digits s).symm
    _ = digits * 2 ^ (s + 1) := Nat.shiftLeft_eq digits (s + 1)
    _ < 2 ^ (digits.log2 + 1) * 2 ^ (s + 1) :=
      Nat.mul_lt_mul_of_pos_right Nat.lt_log2_self (Nat.two_pow_pos _)
    _ ≤ 2 ^ (3 * (k + 1)) := by
      rw [← Nat.pow_add]
      exact Nat.pow_le_pow_right (by decide) (by omega)
    _ = 8 ^ (k + 1) := by rw [Nat.pow_mul]
    _ ≤ tenPower (k + 1) := Nat.pow_le_pow_left (by decide) _

/-- The shortcuts change nothing: the rank is the nearest one, or infinity beyond the last. -/
theorem rank_eq_nearest (d : Decimal) :
    d.rank = min Rank.infinity (Rank.nearest d.numerator d.denominator) := by
  obtain ⟨digits, exponent⟩ := d
  unfold rank numerator denominator
  by_cases hdigits : digits = 0
  · subst hdigits
    cases exponent with
    | ofNat k => simp [Rank.nearest_eq_zero]
    | negSucc k => simp [Rank.nearest_eq_zero, tenPower_pos]
  · rw [if_neg hdigits]
    cases exponent with
    | ofNat k =>
      dsimp only
      split
      · next hk => rw [min_eq_left (infinity_le_nearest hdigits hk)]
      · rfl
    | negSucc k =>
      dsimp only
      split
      · next hk => rw [nearest_eq_zero_of_log2 hk, Nat.min_zero]
      · rfl

end Decimal

namespace Rank

theorem rank_of_neighbour? {r : Nat} {exponent : Int} {d : Decimal}
    (h : neighbour? r exponent = some d) : d.rank = r := by
  unfold neighbour? at h
  dsimp only at h
  split at h
  · next hbelow =>
    split at h <;> cases h
    · next habove => exact habove.1
    · exact hbelow
  · split at h <;> cases h
    next habove => exact habove

theorem rank_exact {r : Nat} (h : r ≤ infinity) : (exact r).rank = r := by
  have hexponent : (exact r).exponent = .negSucc 1073 := rfl
  have hdigits : (exact r).digits <<< 1074 = units r * Decimal.tenPower 1074 := by
    dsimp only [exact]
    -- The power is too great to be evaluated.
    generalize 1074 = k
    exact Decimal.fivePower_shiftLeft (units r) k
  rw [Decimal.rank_eq_nearest, Decimal.numerator_of_negSucc hexponent,
    Decimal.denominator_of_negSucc hexponent, hdigits,
    nearest_units_mul (Decimal.tenPower_pos _), Nat.min_eq_right h]

/-- The shortest decimal of a magnitude reads back as it. -/
theorem rank_shortest {r : Nat} (h : r ≤ infinity) : (shortest r).rank = r := by
  unfold shortest
  split
  · next d hd =>
    obtain ⟨i, -, hi⟩ := List.exists_of_findSome?_eq_some hd
    exact rank_of_neighbour? hi
  · exact rank_exact h

end Rank

end PolishArithmetic
