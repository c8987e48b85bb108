import PolishArithmetic.Expr.Print
import PolishArithmetic.Proofs.Number.Bits
import PolishArithmetic.Proofs.Number.Rounding

/-!
Reading numbers back from the texts that are written for them. A written magnitude is a numeral with
or without a point, and the decimal that is read from it rounds to the same rank as the one that was
laid out, whatever zeros the layout added.
-/
namespace PolishArithmetic

namespace Literal

variable {text digits places rest : Text} {negative : Bool}

theorem isDigit_of_mem_replicate {c : Char} {k : Nat} (h : c ∈ List.replicate k '0') :
    c.isDigit := by
  rw [List.eq_of_mem_replicate h]
  rfl

theorem isDigit_of_mem_toDigits {c : Char} {n : Nat} (h : c ∈ Nat.toDigits 10 n) : c.isDigit :=
  Nat.isDigit_of_mem_toDigits (by decide) (by decide) h

theorem ne_space_of_isDigit {c : Char} (h : c.isDigit) : c ≠ ' ' := by
  rintro rfl
  cases h

theorem unsigned_of_isDigit {c : Char} (h : c.isDigit) : c ≠ '-' ∧ c ≠ '+' := by
  constructor
  · rintro rfl
    cases h
  · rintro rfl
    cases h

theorem takeDigits_append (hdigits : ∀ c ∈ digits, c.isDigit)
    (hrest : ∀ c, rest.head? = some c → c.isDigit = false) :
    takeDigits (digits ++ rest) = (digits, rest) := by
  have hnone : rest.takeWhile Char.isDigit = [] ∧ rest.dropWhile Char.isDigit = rest := by
    cases rest with
    | nil => exact ⟨rfl, rfl⟩
    | cons c cs => simp [hrest c rfl]
  rw [takeDigits, List.takeWhile_append_of_pos hdigits, List.dropWhile_append_of_pos hdigits,
    hnone.1, hnone.2, List.append_nil]

theorem takeDigits_self (hdigits : ∀ c ∈ digits, c.isDigit) : takeDigits digits = (digits, []) := by
  have hnone : ∀ c : Char, ([] : Text).head? = some c → c.isDigit = false := by simp
  simpa using takeDigits_append hdigits hnone

theorem takeSign_of_head (h : ∀ c, text.head? = some c → c ≠ '-' ∧ c ≠ '+') :
    takeSign text = (false, text) := by
  unfold takeSign
  split
  · exact absurd rfl (h _ rfl).1
  · exact absurd rfl (h _ rfl).2
  · rfl

/-- Only a minus sign is ever written, in front of a digit. -/
theorem takeSign_written (negative : Bool) (h : ∀ c, text.head? = some c → c.isDigit) :
    takeSign (if negative then '-' :: text else text) = (negative, text) := by
  cases negative with
  | true => rfl
  | false => exact takeSign_of_head fun c hc => unsigned_of_isDigit (h c hc)

theorem read?_whole (hsign : takeSign text = (negative, digits))
    (hdigits : ∀ c ∈ digits, c.isDigit) (hne : digits ≠ []) :
    read? text = some ⟨negative, ofNumeral digits, 0⟩ := by
  simp [read?, hsign, takeDigits_self hdigits, takeFraction, readExponent?, hne]

theorem read?_point (hsign : takeSign text = (negative, digits ++ '.' :: places))
    (hdigits : ∀ c ∈ digits, c.isDigit) (hne : digits ≠ []) (hplaces : ∀ c ∈ places, c.isDigit) :
    read? text = some ⟨negative, ofNumeral (digits ++ places), -places.length⟩ := by
  have hpoint : ∀ c, ('.' :: places).head? = some c → c.isDigit = false := by
    rintro c ⟨⟩
    rfl
  simp [read?, hsign, takeDigits_append hdigits hpoint, takeFraction, takeDigits_self hplaces,
    readExponent?, hne]

end Literal

namespace Decimal

theorem rank_mul_tenPower (digits k : Nat) :
    (⟨digits * tenPower k, 0⟩ : Decimal).rank = (⟨digits, k⟩ : Decimal).rank := by
  rw [rank_eq_nearest, rank_eq_nearest]
  have h : digits * tenPower k * tenPower 0 = digits * tenPower k := Nat.mul_one _
  change min _ (Rank.nearest ((digits * tenPower k * tenPower 0) <<< 1074) 1) = _
  rw [h]
  rfl

end Decimal

namespace Style

/-- The digits after the point of a decimal with `k` places. -/
def fraction (n k : Nat) : Text :=
  let places := Nat.toDigits 10 (n % Decimal.tenPower k)
  List.replicate (k - places.length) '0' ++ places

theorem isDigit_of_mem_fraction {c : Char} {n k : Nat} (h : c ∈ fraction n k) : c.isDigit := by
  rcases List.mem_append.mp h with h | h
  · exact Literal.isDigit_of_mem_replicate h
  · exact Literal.isDigit_of_mem_toDigits h

theorem length_places_le (n k : Nat) :
    (Nat.toDigits 10 (n % Decimal.tenPower (k + 1))).length ≤ k + 1 :=
  (Nat.length_toDigits_le_iff (by decide) (Nat.succ_pos k)).mpr
    (Nat.mod_lt _ (Decimal.tenPower_pos _))

theorem length_fraction (n k : Nat) : (fraction n (k + 1)).length = k + 1 := by
  have h := length_places_le n k
  simp only [fraction, List.length_append, List.length_replicate]
  omega

theorem ofNumeral_fraction (n k : Nat) :
    Literal.ofNumeral (Nat.toDigits 10 (n / Decimal.tenPower (k + 1)) ++ fraction n (k + 1)) =
      n := by
  have h := length_places_le n k
  have hdigits : k + 1 - (Nat.toDigits 10 (n % Decimal.tenPower (k + 1))).length +
      (Nat.toDigits 10 (n % Decimal.tenPower (k + 1))).length = k + 1 := by omega
  rw [Literal.ofNumeral, fraction, Nat.ofDigitChars_append, Nat.ofDigitChars_append,
    Nat.ofDigitChars_ten_toDigits, Nat.ofDigitChars_replicate_zero,
    Nat.ofDigitChars_eq_ofDigitChars_zero, Nat.ofDigitChars_ten_toDigits, ← Nat.mul_assoc,
    ← Nat.pow_add, Nat.add_comm _ (k + 1 - _), hdigits]
  exact Nat.div_add_mod n (Decimal.tenPower (k + 1))

theorem positional_negSucc (digits k : Nat) :
    plain.positional ⟨digits, .negSucc k⟩ =
      Nat.toDigits 10 (digits / Decimal.tenPower (k + 1)) ++ '.' :: fraction digits (k + 1) := rfl

/-- A layout without a power of ten reads back as a number of the same rank. -/
theorem exists_read?_positional (negative : Bool) (d : Decimal) :
    ∃ l, Literal.read? (if negative then '-' :: plain.positional d else plain.positional d) =
      some l ∧ l.negative = negative ∧ l.magnitude.rank = d.rank := by
  obtain ⟨digits, k | k⟩ := d
  · have hdigits : ∀ c ∈ Nat.toDigits 10 digits ++ List.replicate k '0', c.isDigit := by
      intro c hc
      rcases List.mem_append.mp hc with hc | hc
      · exact Literal.isDigit_of_mem_toDigits hc
      · exact Literal.isDigit_of_mem_replicate hc
    have hne : Nat.toDigits 10 digits ++ List.replicate k '0' ≠ [] := by
      simp [Nat.toDigits_ne_nil]
    have hvalue : Literal.ofNumeral (Nat.toDigits 10 digits ++ List.replicate k '0') =
        digits * Decimal.tenPower k := by
      rw [Literal.ofNumeral, Nat.ofDigitChars_append, Nat.ofDigitChars_ten_toDigits,
        Nat.ofDigitChars_replicate_zero, Nat.mul_comm]
      rfl
    have hsign := Literal.takeSign_written negative fun c hc => hdigits c (List.mem_of_head? hc)
    refine ⟨_, Literal.read?_whole hsign hdigits hne, rfl, ?_⟩
    rw [hvalue]
    exact Decimal.rank_mul_tenPower digits k
  · rw [positional_negSucc]
    obtain ⟨front, hfront⟩ : ∃ t, Nat.toDigits 10 (digits / Decimal.tenPower (k + 1)) = t :=
      ⟨_, rfl⟩
    have hne : front ≠ [] := hfront ▸ Nat.toDigits_ne_nil
    have hdigits : ∀ c ∈ front, c.isDigit := by
      intro c hc
      exact Literal.isDigit_of_mem_toDigits (hfront ▸ hc)
    have hhead : ∀ c, (front ++ '.' :: fraction digits (k + 1)).head? = some c → c.isDigit := by
      intro c hc
      rw [List.head?_append_of_ne_nil _ hne] at hc
      exact hdigits c (List.mem_of_head? hc)
    have hsign := Literal.takeSign_written negative hhead
    rw [hfront]
    refine ⟨_, Literal.read?_point hsign hdigits hne (fun _ => isDigit_of_mem_fraction), rfl, ?_⟩
    rw [← hfront, ofNumeral_fraction, length_fraction]
    rfl

theorem space_not_mem_positional (d : Decimal) : ' ' ∉ plain.positional d := by
  intro h
  obtain ⟨digits, k | k⟩ := d
  · rcases List.mem_append.mp h with h | h
    · exact Literal.ne_space_of_isDigit (Literal.isDigit_of_mem_toDigits h) rfl
    · exact Literal.ne_space_of_isDigit (Literal.isDigit_of_mem_replicate h) rfl
  · rw [positional_negSucc] at h
    rcases List.mem_append.mp h with h | h
    · exact Literal.ne_space_of_isDigit (Literal.isDigit_of_mem_toDigits h) rfl
    · rcases List.mem_cons.mp h with h | h
      · cases h
      · exact Literal.ne_space_of_isDigit (isDigit_of_mem_fraction h) rfl

/-- A finite magnitude is written as a decimal that rounds to it. -/
theorem exists_magnitude_eq_positional {r : Nat} (h : r < Rank.infinity) :
    ∃ d : Decimal, plain.magnitude r = plain.positional d ∧ d.rank = r := by
  by_cases hzero : r = 0
  · subst hzero
    exact ⟨⟨0, 0⟩, rfl, rfl⟩
  · refine ⟨Rank.shortest r, ?_, Rank.rank_shortest (Nat.le_of_lt h)⟩
    rw [magnitude, if_neg hzero, if_neg (Nat.ne_of_lt h)]
    rfl

theorem write_of_isFinite {x : Float} (h : x.isFinite) :
    ∃ d : Decimal, d.rank = Rank.ofFloat x ∧ plain.write x =
      if Rank.signOf x then '-' :: plain.positional d else plain.positional d := by
  rw [Rank.isFinite_iff] at h
  obtain ⟨d, hd, hrank⟩ := exists_magnitude_eq_positional h
  refine ⟨d, hrank, ?_⟩
  rw [write, if_neg (Nat.not_lt.mpr (Nat.le_of_lt h)), hd]

theorem space_not_mem_write {x : Float} (h : x.isFinite) : ' ' ∉ plain.write x := by
  obtain ⟨d, -, hd⟩ := write_of_isFinite h
  have hspace := space_not_mem_positional d
  rw [hd]
  split
  · simpa using hspace
  · exact hspace

/-- A finite number is the value of the literal that is written for it. -/
theorem exists_read?_write {x : Float} (h : x.isFinite) :
    ∃ l, Literal.read? (plain.write x) = some l ∧ l.magnitude.rank < Rank.infinity ∧
      l.value = x := by
  obtain ⟨d, hrank, hd⟩ := write_of_isFinite h
  obtain ⟨l, hl, hsign, hmagnitude⟩ := exists_read?_positional (Rank.signOf x) d
  refine ⟨l, hd ▸ hl, ?_, ?_⟩
  · rw [hmagnitude, hrank]
    exact (Rank.isFinite_iff x).mp h
  · rw [Literal.value, hsign, hmagnitude, hrank, Rank.toFloat_ofFloat]

theorem write_of_not_isFinite {x : Float} (h : ¬ x.isFinite) :
    x = Float.nan ∧ plain.write x = ['N', 'a', 'N'] ∨
      ∃ negative, x = Rank.toFloat negative Rank.infinity ∧
        plain.write x = if negative then ['-', 'i', 'n', 'f'] else ['i', 'n', 'f'] := by
  rw [Rank.isFinite_iff, Nat.not_lt] at h
  by_cases hnan : Rank.infinity < Rank.ofFloat x
  · have hx := (Rank.isNaN_iff x).mpr hnan
    rw [Float.isNaN_eq_decide_eq_nan, decide_eq_true_iff] at hx
    exact .inl ⟨hx, by simp [write, hnan]⟩
  · have hrank : Rank.ofFloat x = Rank.infinity := Nat.le_antisymm (Nat.not_lt.mp hnan) h
    refine .inr ⟨Rank.signOf x, ?_, ?_⟩
    · rw [← hrank, Rank.toFloat_ofFloat]
    · simp [write, hrank, magnitude, Rank.infinity, Rank.binade]

/-- What is written for the numbers that are not finite. -/
def words : List Text :=
  [['N', 'a', 'N'], ['i', 'n', 'f'], ['-', 'i', 'n', 'f']]

theorem write_mem_words {x : Float} (h : ¬ x.isFinite) : plain.write x ∈ words := by
  rcases write_of_not_isFinite h with ⟨-, hw⟩ | ⟨negative, -, hw⟩
  · simp [hw, words]
  · cases negative <;> simp [hw, words]

/-- A number that is not finite can be told from what is written for it. -/
theorem eq_of_write_eq {x y : Float} (hx : ¬ x.isFinite) (hy : ¬ y.isFinite)
    (h : plain.write x = plain.write y) : x = y := by
  rcases write_of_not_isFinite hx with ⟨hx, hwx⟩ | ⟨s, hx, hwx⟩
  · rcases write_of_not_isFinite hy with ⟨hy, hwy⟩ | ⟨t, hy, hwy⟩
    · rw [hx, hy]
    · rw [hwx, hwy] at h
      cases t <;> simp at h
  · rcases write_of_not_isFinite hy with ⟨hy, hwy⟩ | ⟨t, hy, hwy⟩
    · rw [hwx, hwy] at h
      cases s <;> simp at h
    · have hsign : s = t := by
        rw [hwx, hwy] at h
        cases s <;> cases t <;> simp at h ⊢
      rw [hx, hy, hsign]

end Style

end PolishArithmetic
