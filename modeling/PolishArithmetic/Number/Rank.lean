/-!
The magnitudes of binary64 numbers in increasing order. Rank 0 is zero, rank 1 the least positive
magnitude, and infinity follows the greatest finite one; without its sign bit, the bit pattern of a
number is its rank. Magnitudes are measured in units of the least positive one, so that they are
naturals.
-/
namespace PolishArithmetic.Rank

/-- How many ranks have one binary exponent. -/
def binade : Nat := 0x10000000000000

/-- From `infinity` on, the magnitudes continue as if exponents had no bound. -/
def units (r : Nat) : Nat :=
  if r < binade then r else (binade + r % binade) <<< (r / binade - 1)

def infinity : Nat := 2047 * binade

/-- The last rank whose magnitude is at most `n` units. -/
def ofUnits (n : Nat) : Nat :=
  let shift := n.log2 - 52
  n >>> shift + shift * binade

theorem units_lt_units_succ (r : Nat) : units r < units (r + 1) := by
  unfold units binade
  by_cases h : r + 1 < 0x10000000000000
  · rw [if_pos (by omega), if_pos h]
    omega
  by_cases h' : r < 0x10000000000000
  · rw [if_pos h', if_neg h, Nat.shiftLeft_eq, show r + 1 = 0x10000000000000 by omega]
    omega
  rw [if_neg h', if_neg h, Nat.shiftLeft_eq, Nat.shiftLeft_eq]
  by_cases hc : (r + 1) % 0x10000000000000 = 0
  · have hm : r % 0x10000000000000 = 0x10000000000000 - 1 := by omega
    obtain ⟨k, hk⟩ : ∃ k, r / 0x10000000000000 - 1 = k := ⟨_, rfl⟩
    have hk' : (r + 1) / 0x10000000000000 - 1 = k + 1 := by omega
    have hp := Nat.two_pow_pos k
    rw [hm, hc, hk, hk', Nat.pow_succ]
    omega
  · have hm : (r + 1) % 0x10000000000000 = r % 0x10000000000000 + 1 := by omega
    have hk : (r + 1) / 0x10000000000000 = r / 0x10000000000000 := by omega
    rw [hm, hk]
    exact Nat.mul_lt_mul_of_pos_right (by omega) (Nat.two_pow_pos _)

theorem units_of_le {r : Nat} (h : r ≤ 2 * binade) : units r = r := by
  unfold binade at h
  unfold units binade
  split
  · rfl
  · rw [Nat.shiftLeft_eq]
    by_cases hr : r = 2 * 0x10000000000000
    · subst hr
      rfl
    · rw [show r / 0x10000000000000 = 1 by omega]
      omega

theorem units_add_mul {q s : Nat} (hlo : binade ≤ q) (hhi : q ≤ 2 * binade) :
    units (q + s * binade) = q <<< s := by
  unfold binade at hlo hhi
  unfold units binade
  rw [if_neg (by omega), Nat.shiftLeft_eq, Nat.shiftLeft_eq]
  by_cases hq : q = 2 * 0x10000000000000
  · rw [show (q + s * 0x10000000000000) % 0x10000000000000 = 0 by omega,
      show (q + s * 0x10000000000000) / 0x10000000000000 - 1 = s + 1 by omega, hq, Nat.pow_succ]
    omega
  · rw [show (q + s * 0x10000000000000) / 0x10000000000000 - 1 = s by omega,
      show 0x10000000000000 + (q + s * 0x10000000000000) % 0x10000000000000 = q by omega]

/-- Consecutive ranks enclose every number of units. -/
theorem ofUnits_encloses (n : Nat) : units (ofUnits n) ≤ n ∧ n < units (ofUnits n + 1) := by
  unfold ofUnits
  by_cases h : n.log2 ≤ 52
  · have hn : n < 2 * binade :=
      Nat.lt_of_lt_of_le Nat.lt_log2_self
        (Nat.pow_le_pow_right (show 0 < 2 by decide) (show n.log2 + 1 ≤ 53 by omega))
    simp only [show n.log2 - 52 = 0 by omega, Nat.shiftRight_zero, Nat.zero_mul, Nat.add_zero]
    rw [units_of_le (by omega), units_of_le (by omega)]
    omega
  · obtain ⟨s, hs⟩ : ∃ s, n.log2 = 52 + s := ⟨n.log2 - 52, by omega⟩
    have hn : n ≠ 0 := by
      rintro rfl
      simp at h
    have hlo := Nat.log2_self_le hn
    have hhi := @Nat.lt_log2_self n
    rw [hs, Nat.pow_add] at hlo
    rw [hs, Nat.add_right_comm, Nat.pow_add] at hhi
    have hp := Nat.two_pow_pos s
    simp only [show n.log2 - 52 = s by omega]
    rw [Nat.shiftRight_eq_div_pow]
    have hq : binade ≤ n / 2 ^ s := (Nat.le_div_iff_mul_le hp).mpr hlo
    have hq' : n / 2 ^ s < 2 * binade := (Nat.div_lt_iff_lt_mul hp).mpr hhi
    rw [show n / 2 ^ s + s * binade + 1 = (n / 2 ^ s + 1) + s * binade by omega,
      units_add_mul hq (by omega), units_add_mul (by omega) (by omega), Nat.shiftLeft_eq,
      Nat.shiftLeft_eq]
    exact ⟨Nat.div_mul_le_self n _, (Nat.div_lt_iff_lt_mul hp).mp (by omega)⟩

/-- The rank nearest to `n / d` units. A number halfway between two ranks goes to the even one. -/
def nearest (n d : Nat) : Nat :=
  let r := ofUnits (n / d)
  let enclosing := d * (units r + units (r + 1))
  if 2 * n < enclosing then r
  else if 2 * n = enclosing then r + r % 2
  else r + 1

def signBit : Nat := 0x8000000000000000

def toFloat (negative : Bool) (r : Nat) : Float :=
  .ofBits (.ofNat (if negative then signBit + r else r))

/-- The rank of the magnitude of `x`. The ranks beyond `infinity` are not numbers. -/
def ofFloat (x : Float) : Nat :=
  x.toBits.toNat % signBit

/-- Whether `x` has a minus sign, which a zero may have too. -/
def signOf (x : Float) : Bool :=
  signBit ≤ x.toBits.toNat

end PolishArithmetic.Rank
