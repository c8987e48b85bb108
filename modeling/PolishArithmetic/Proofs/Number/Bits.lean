import Mathlib
import PolishArithmetic.Number.Rank

/-!
Sign and rank against the bits of a number: together they are the number again, and its rank alone
says whether it is finite.
-/
namespace PolishArithmetic.Rank

open Float.Model

theorem toFloat_ofFloat (x : Float) : toFloat (signOf x) (ofFloat x) = x := by
  have hbits : (if signOf x then signBit + ofFloat x else ofFloat x) = x.toBits.toNat := by
    have hlt := x.toBits.toNat_lt
    unfold signOf ofFloat signBit
    split
    · next h =>
      simp only [decide_eq_true_eq] at h
      omega
    · next h =>
      simp only [decide_eq_true_eq] at h
      omega
  rw [toFloat, hbits, UInt64.ofNat_toNat, Float.ofBits_toBits]

theorem toNat_unpackExponent (b : BitVec Format.binary64.numBits) :
    (UnpackedFloat.unpackExponent b).toNat = b.toNat / binade % 2048 := by
  rw [UnpackedFloat.unpackExponent_def, BitVec.extractLsb'_toNat, Nat.shiftRight_eq_div_pow]
  rfl

theorem unpackExponent_eq_iff (b : BitVec Format.binary64.numBits) :
    UnpackedFloat.unpackExponent b = (-1#_) ↔ b.toNat / binade % 2048 = 2047 := by
  rw [← BitVec.toNat_inj, toNat_unpackExponent]
  rfl

theorem toNat_unpackMantissa (b : BitVec Format.binary64.numBits) :
    (UnpackedFloat.unpackMantissa b).toNat = b.toNat % binade := by
  rw [UnpackedFloat.unpackMantissa_def, BitVec.extractLsb'_toNat, Nat.shiftRight_zero]
  rfl

theorem isFinite_unpack_iff (b : BitVec Format.binary64.numBits) :
    (UnpackedFloat.unpack Format.binary64 b).isFinite ↔
      UnpackedFloat.unpackExponent b ≠ (-1#_) := by
  unfold UnpackedFloat.unpack
  dsimp only
  by_cases hexp : UnpackedFloat.unpackExponent b = (-1#_)
  · rw [if_pos hexp]
    refine iff_of_false ?_ (not_not_intro hexp)
    split <;> exact Bool.false_ne_true
  · rw [if_neg hexp]
    refine iff_of_true ?_ hexp
    split
    · split <;> rfl
    · rfl

theorem isFinite_iff (x : Float) : x.isFinite ↔ ofFloat x < infinity := by
  have hlt := x.toBits.toNat_lt
  have hmodel : x.isFinite ↔ x.toBits.toNat / binade % 2048 ≠ 2047 :=
    (isFinite_unpack_iff x.toBits.toBitVec).trans (not_congr (unpackExponent_eq_iff _))
  rw [hmodel]
  unfold ofFloat signBit infinity binade
  omega

theorem isNaNBits_iff (b : BitVec Format.binary64.numBits) :
    UnpackedFloat.isNaNBits b ↔ b.toNat / binade % 2048 = 2047 ∧ b.toNat % binade ≠ 0 := by
  rw [UnpackedFloat.isNaNBits, decide_eq_true_iff, unpackExponent_eq_iff, Ne, ← BitVec.toNat_inj,
    toNat_unpackMantissa]
  rfl

theorem isNaN_unpack_iff (b : BitVec Format.binary64.numBits) :
    (UnpackedFloat.unpack Format.binary64 b).isNaN ↔ UnpackedFloat.isNaNBits b := by
  unfold UnpackedFloat.unpack UnpackedFloat.isNaNBits
  dsimp only
  rw [decide_eq_true_iff]
  by_cases hexp : UnpackedFloat.unpackExponent b = (-1#_)
  · rw [if_pos hexp]
    split
    · next hm => simp [hm, UnpackedFloat.isNaN]
    · next hm => simp [hm, hexp, UnpackedFloat.isNaN]
  · rw [if_neg hexp]
    refine iff_of_false ?_ fun h => hexp h.1
    split
    · split <;> exact Bool.false_ne_true
    · exact Bool.false_ne_true

theorem isNaN_iff (x : Float) : x.isNaN ↔ infinity < ofFloat x := by
  have hlt := x.toBits.toNat_lt
  have hmodel : x.isNaN ↔ x.toBits.toNat / binade % 2048 = 2047 ∧ x.toBits.toNat % binade ≠ 0 :=
    (isNaN_unpack_iff x.toBits.toBitVec).trans (isNaNBits_iff _)
  rw [hmodel]
  unfold ofFloat signBit infinity binade
  omega

theorem pack_unpack_of_exponent (b : BitVec Format.binary64.numBits)
    (h : b.toNat / binade % 2048 ≠ 2047) :
    (UnpackedFloat.unpack Format.binary64 b).pack Format.binary64 = b := by
  have hexp : UnpackedFloat.unpackExponent b ≠ (-1#_) := mt (unpackExponent_eq_iff b).mp h
  have hnan : ¬ UnpackedFloat.isNaNBits b := by
    intro hnan
    exact hexp (of_decide_eq_true hnan).1
  rw [UnpackedFloat.pack_unpack, if_neg hnan]

theorem toBits_ofBits {u : UInt64} (h : u.toNat / binade % 2048 ≠ 2047) :
    (Float.ofBits u).toBits = u :=
  UInt64.toBitVec_inj.mp (pack_unpack_of_exponent u.toBitVec h)

theorem isNaN_unpack_pack_unpack {b : BitVec Format.binary64.numBits}
    (h : UnpackedFloat.isNaNBits b) : (UnpackedFloat.unpack Format.binary64
      ((UnpackedFloat.unpack Format.binary64 b).pack Format.binary64)).isNaN := by
  rw [UnpackedFloat.pack_unpack, if_pos h]
  decide

theorem toBits_ofBits_of_not_isNaN {u : UInt64} (h : ¬ (Float.ofBits u).isNaN) :
    (Float.ofBits u).toBits = u := by
  let b : BitVec Format.binary64.numBits := u.toBitVec
  have hnan : ¬ UnpackedFloat.isNaNBits b := fun hb => h (isNaN_unpack_pack_unpack hb)
  have hpack := UnpackedFloat.pack_unpack b
  rw [if_neg hnan] at hpack
  exact UInt64.toBitVec_inj.mp hpack

/-- Numbers differ if their bits do. All the patterns that are no number are one float. -/
theorem ofBits_eq_iff {u v : UInt64} : Float.ofBits u = Float.ofBits v ↔
    u = v ∨ (Float.ofBits u).isNaN ∧ (Float.ofBits v).isNaN := by
  constructor
  · intro h
    by_cases hnan : (Float.ofBits u).isNaN
    · exact .inr ⟨hnan, h ▸ hnan⟩
    · left
      rw [← toBits_ofBits_of_not_isNaN hnan, h, toBits_ofBits_of_not_isNaN (h ▸ hnan)]
  · simp only [Float.isNaN_eq_decide_eq_nan, decide_eq_true_iff]
    rintro (rfl | ⟨hu, hv⟩)
    · rfl
    · rw [hu, hv]

theorem toNat_toBits_toFloat (negative : Bool) {r : Nat} (h : r < infinity) :
    (toFloat negative r).toBits.toNat = if negative then signBit + r else r := by
  obtain ⟨n, hn⟩ : ∃ n, (if negative then signBit + r else r) = n := ⟨_, rfl⟩
  unfold infinity binade at h
  have hlt : n < UInt64.size := by
    unfold signBit at hn
    unfold UInt64.size
    split at hn <;> omega
  have hexp : n / binade % 2048 ≠ 2047 := by
    unfold signBit at hn
    unfold binade
    split at hn <;> omega
  rw [← UInt64.toNat_ofNat_of_lt' hlt] at hexp
  rw [toFloat, hn, toBits_ofBits hexp, UInt64.toNat_ofNat_of_lt' hlt]

theorem ofFloat_toFloat (negative : Bool) {r : Nat} (h : r < infinity) :
    ofFloat (toFloat negative r) = r := by
  rw [ofFloat, toNat_toBits_toFloat negative h]
  unfold infinity binade at h
  unfold signBit
  split <;> omega

theorem signOf_toFloat (negative : Bool) {r : Nat} (h : r < infinity) :
    signOf (toFloat negative r) = negative := by
  rw [signOf, toNat_toBits_toFloat negative h]
  unfold infinity binade at h
  unfold signBit
  cases negative with
  | true => exact decide_eq_true (Nat.le_add_right _ _)
  | false => exact decide_eq_false (by dsimp; omega)

theorem isFinite_toFloat (negative : Bool) {r : Nat} (h : r < infinity) :
    (toFloat negative r).isFinite := by
  rwa [isFinite_iff, ofFloat_toFloat negative h]

end PolishArithmetic.Rank
