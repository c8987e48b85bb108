import PolishArithmetic.Proofs.Number.Bits
import PolishArithmetic.Proofs.Number.Nearest

/-!
The numbers that floats are, and the rounding of numbers to them: to the nearest one, and to the
even one of two that are equally near.
-/
namespace PolishArithmetic

/-- A magnitude with a sign. -/
def signed (negative : Bool) (q : ℚ) : ℚ :=
  if negative then -q else q

@[simp] theorem signed_zero (negative : Bool) : signed negative 0 = 0 := by
  cases negative with
  | true => exact neg_zero
  | false => rfl

theorem signed_of_ne {negative negative' : Bool} (h : negative ≠ negative') (q : ℚ) :
    signed negative q = -signed negative' q := by
  cases negative with
  | true =>
    rw [Bool.eq_false_iff.mpr h.symm]
    rfl
  | false =>
    rw [Bool.eq_true_of_not_eq_false h.symm]
    exact (neg_neg q).symm

theorem abs_signed (negative : Bool) (q : ℚ) : |signed negative q| = |q| := by
  cases negative with
  | true => exact abs_neg q
  | false => rfl

theorem signed_sub (negative : Bool) (p q : ℚ) :
    signed negative p - signed negative q = signed negative (p - q) := by
  cases negative with
  | true => exact (neg_sub_neg p q).trans (neg_sub p q).symm
  | false => rfl

theorem signed_injective (negative : Bool) : Function.Injective (signed negative) := by
  cases negative with
  | true => exact neg_injective
  | false => exact Function.injective_id

theorem signed_eq_zero {negative : Bool} {q : ℚ} : signed negative q = 0 ↔ q = 0 :=
  (signed_injective negative).eq_iff' (signed_zero negative)

theorem abs_signed_sub (negative : Bool) (p q : ℚ) :
    |signed negative p - signed negative q| = |p - q| := by
  rw [signed_sub, abs_signed]

/-- Magnitudes are at most as far apart as the numbers are. -/
theorem abs_sub_le_signed (negative negative' : Bool) {p q : ℚ} (hp : 0 ≤ p) (hq : 0 ≤ q) :
    |p - q| ≤ |signed negative p - signed negative' q| := by
  have h := abs_abs_sub_abs_le (signed negative p) (signed negative' q)
  rwa [abs_signed, abs_signed, abs_of_nonneg hp, abs_of_nonneg hq] at h

namespace Rank

open Float.Model

def bits (x : Float) : BitVec Format.binary64.numBits :=
  x.toBits.toBitVec

/-- The number that a finite float is. The others count as zero. -/
def numberOf (x : Float) : ℚ :=
  match UnpackedFloat.unpack Format.binary64 (bits x) with
  | .finite sign mantissa exponent _ => signed (sign == .negative) (mantissa * 2 ^ exponent)
  | _ => 0

/-- No finite float is nearer to `q` than `x`, and if one that is another number is as near, the
last bit of `x` is zero. -/
structure Rounds (x : Float) (q : ℚ) : Prop where
  isFinite : x.isFinite
  dist_le : ∀ y : Float, y.isFinite → |numberOf x - q| ≤ |numberOf y - q|
  even : ∀ y : Float, y.isFinite → numberOf y ≠ numberOf x →
    |numberOf y - q| = |numberOf x - q| → x.toBits.toNat % 2 = 0

theorem toNat_implicit_append (m : BitVec 52) : (1#1 ++ m).toNat = binade + m.toNat := by
  rw [BitVec.toNat_append, ← Nat.shiftLeft_add_eq_or_of_lt m.isLt]
  rfl

theorem unpackSign_eq_iff (b : BitVec Format.binary64.numBits) :
    UnpackedFloat.unpackSign b = 0#1 ↔ b.toNat < signBit := by
  have hlt : b.toNat < 2 ^ 64 := b.isLt
  rw [← BitVec.toNat_inj, UnpackedFloat.unpackSign_def, BitVec.extractLsb'_toNat,
    Nat.shiftRight_eq_div_pow]
  change b.toNat / 2 ^ 63 % 2 = 0 ↔ _
  unfold signBit
  omega

theorem unpackSign_beq_negative (x : Float) :
    (UnpackedFloat.Sign.ofBitVec (UnpackedFloat.unpackSign (bits x)) == .negative) =
      signOf x := by
  have hsign := unpackSign_eq_iff (bits x)
  unfold UnpackedFloat.Sign.ofBitVec
  by_cases h : x.toBits.toNat < signBit
  · rw [if_pos (hsign.mpr h), signOf, decide_eq_false (Nat.not_le.mpr h)]
    rfl
  · rw [if_neg (mt hsign.mp h), signOf, decide_eq_true (Nat.not_lt.mp h)]
    rfl

theorem value_of_lt {r : Nat} (h : r < binade) : value r = r * 2 ^ (-1074 : ℤ) := by
  rw [value, units, if_pos h, zpow_neg, div_eq_mul_inv]
  rfl

theorem value_of_ge {r : Nat} (h : binade ≤ r) :
    value r = (binade + r % binade : Nat) * 2 ^ ((r / binade : Nat) - 1075 : ℤ) := by
  have hpos : 1 ≤ r / binade := (Nat.one_le_div_iff (by decide)).mpr h
  have hexp : ((r / binade : Nat) - 1075 : ℤ) =
      ((r / binade - 1 : Nat) : ℤ) + (-(1074 : Nat) : ℤ) := by omega
  rw [value, units, if_neg (Nat.not_lt.mpr h), cast_shiftLeft, hexp, zpow_add₀ two_ne_zero,
    zpow_neg, zpow_natCast, zpow_natCast, div_eq_mul_inv, mul_assoc]

theorem exponent_ofFloat (x : Float) :
    ofFloat x / binade = (UnpackedFloat.unpackExponent (bits x)).toNat := by
  rw [toNat_unpackExponent]
  change x.toBits.toNat % signBit / binade = x.toBits.toNat / binade % 2048
  unfold signBit binade
  omega

theorem mantissa_ofFloat (x : Float) :
    ofFloat x % binade = (UnpackedFloat.unpackMantissa (bits x)).toNat := by
  rw [toNat_unpackMantissa]
  change x.toBits.toNat % signBit % binade = x.toBits.toNat % binade
  unfold signBit binade
  omega

theorem numberOf_eq {x : Float} (h : x.isFinite) :
    numberOf x = signed (signOf x) (value (ofFloat x)) := by
  have hexp := (isFinite_unpack_iff (bits x)).mp h
  have hsign := unpackSign_beq_negative x
  have he := exponent_ofFloat x
  have hm := mantissa_ofFloat x
  unfold numberOf UnpackedFloat.unpack
  dsimp only
  rw [if_neg hexp]
  by_cases hzero : UnpackedFloat.unpackExponent (bits x) = 0#_
  · -- A subnormal number has no implicit bit, and its exponent is that of the first normal ones.
    have hlt : ofFloat x < binade := by
      rw [hzero] at he
      exact Nat.lt_of_div_eq_zero (by decide) he
    rw [Nat.mod_eq_of_lt hlt] at hm
    rw [if_pos hzero, value_of_lt hlt, hm, hzero]
    by_cases hempty : UnpackedFloat.unpackMantissa (bits x) = 0#_
    · rw [dif_pos hempty, hempty, ← hsign]
      simp [signed]
    · rw [dif_neg hempty, ← hsign]
      rfl
  · have hge : binade ≤ ofFloat x := by
      refine Nat.le_of_not_lt fun hlt => hzero (BitVec.eq_of_toNat_eq ?_)
      rw [← he, Nat.div_eq_of_lt hlt]
      rfl
    rw [if_neg hzero, value_of_ge hge, he, hm, ← toNat_implicit_append, ← hsign]
    rfl

theorem numberOf_toFloat (negative : Bool) {r : Nat} (h : r < infinity) :
    numberOf (toFloat negative r) = signed negative (value r) := by
  rw [numberOf_eq (isFinite_toFloat negative h), signOf_toFloat negative h,
    ofFloat_toFloat negative h]

theorem ofFloat_mod_two (x : Float) : ofFloat x % 2 = x.toBits.toNat % 2 := by
  unfold ofFloat signBit
  omega

section

variable {x : Float} {q : ℚ}

/-- From a number of its own sign a float is as far as its magnitude is. -/
theorem dist_numberOf (h : x.isFinite) (q : ℚ) :
    |numberOf x - signed (signOf x) q| = |value (ofFloat x) - q| := by
  rw [numberOf_eq h, abs_signed_sub]

theorem Rounds.isNearest (h : Rounds x (signed (signOf x) q)) : IsNearest (ofFloat x) q := by
  have hdist {r : Nat} (hr : r < infinity) :
      |numberOf (toFloat (signOf x) r) - signed (signOf x) q| = |value r - q| := by
    rw [numberOf_toFloat _ hr, abs_signed_sub]
  refine ⟨(isFinite_iff x).mp h.isFinite, ?_, ?_⟩
  · intro r' hr'
    rw [← hdist hr', ← dist_numberOf h.isFinite]
    exact h.dist_le _ (isFinite_toFloat _ hr')
  · intro r' hr' hne heq
    rw [← hdist hr', ← dist_numberOf h.isFinite] at heq
    rw [ofFloat_mod_two]
    refine h.even _ (isFinite_toFloat _ hr') ?_ heq
    intro hnumber
    rw [numberOf_toFloat _ hr', numberOf_eq h.isFinite] at hnumber
    exact hne (value_strictMono.injective (signed_injective _ hnumber))

/-- Two floats that differ in their signs only are not equally near. -/
theorem numberOf_eq_of_dist_eq {y : Float} (h : IsNearest (ofFloat x) q) (hy : y.isFinite)
    (hrank : ofFloat y = ofFloat x)
    (hdist : |numberOf y - signed (signOf x) q| = |numberOf x - signed (signOf x) q|) :
    numberOf y = numberOf x := by
  have hx := numberOf_eq ((isFinite_iff x).mpr h.lt_infinity)
  rw [numberOf_eq hy, hrank, hx] at hdist ⊢
  by_cases hsign : signOf y = signOf x
  · rw [hsign]
  · rw [signed_of_ne hsign] at hdist ⊢
    have hzero : value (ofFloat x) = 0 := by
      rcases abs_eq_abs.mp hdist with heq | heq
      · have : signed (signOf x) (value (ofFloat x)) = 0 := by linarith
        exact signed_eq_zero.mp this
      · have : signed (signOf x) q = 0 := by linarith
        have hle := h.dist_le 0 (by decide)
        rw [signed_eq_zero.mp this, value_zero, sub_zero, sub_zero, abs_zero] at hle
        exact abs_nonpos_iff.mp hle
    rw [hzero, signed_zero, neg_zero]

theorem IsNearest.rounds (hq : 0 ≤ q) (h : IsNearest (ofFloat x) q) :
    Rounds x (signed (signOf x) q) := by
  have hfinite : x.isFinite := (isFinite_iff x).mpr h.lt_infinity
  have hother {y : Float} (hy : y.isFinite) :
      |value (ofFloat y) - q| ≤ |numberOf y - signed (signOf x) q| := by
    rw [numberOf_eq hy]
    exact abs_sub_le_signed _ _ (value_nonneg _) hq
  refine ⟨hfinite, ?_, ?_⟩
  · intro y hy
    rw [dist_numberOf hfinite]
    exact (h.dist_le _ ((isFinite_iff y).mp hy)).trans (hother hy)
  · intro y hy hne heq
    rw [← ofFloat_mod_two]
    by_cases hrank : ofFloat y = ofFloat x
    · exact absurd (numberOf_eq_of_dist_eq h hy hrank heq) hne
    · have hle := h.dist_le _ ((isFinite_iff y).mp hy)
      refine h.even _ ((isFinite_iff y).mp hy) hrank (le_antisymm ?_ hle)
      rw [← dist_numberOf hfinite, ← heq]
      exact hother hy

end

end Rank

end PolishArithmetic
