import PolishArithmetic.Proofs.Canonical
import PolishArithmetic.Proofs.Number.Spelling
import PolishArithmetic.Proofs.Number.Value

/-!
The three languages of terms: symbols of operators, names of variables, and literals. A text in one
of them is in no other. It is a valid term unless its index or its number is out of range, and then
the value of the term is what the text denotes; a number is rounded to a float.
-/
namespace PolishArithmetic

variable {text : Text}

theorem Operator.ofText?_eq_none_iff :
    ofText? text = none ↔ ∀ op : Operator, text ≠ [op.symbol] := by
  rw [Option.eq_none_iff_forall_ne_some]
  refine forall_congr' fun op => not_congr ⟨eq_symbol_of_ofText?, ?_⟩
  rintro rfl
  exact ofText?_symbol op

namespace Literal

theorem value_eq_iff {l : Literal} {x : Float} (h : l.magnitude.rank < Rank.infinity) :
    l.value = x ↔
      Rank.Rounds x (signed l.negative l.magnitude.number) ∧ Rank.signOf x = l.negative := by
  have hnearest := Decimal.isNearest_rank h
  constructor
  · rintro rfl
    have hsign : Rank.signOf l.value = l.negative := Rank.signOf_toFloat _ h
    have hrank : Rank.ofFloat l.value = l.magnitude.rank := Rank.ofFloat_toFloat _ h
    rw [← hrank] at hnearest
    have hrounds := hnearest.rounds l.magnitude.number_nonneg
    rw [hsign] at hrounds
    exact ⟨hrounds, hsign⟩
  · rintro ⟨hrounds, hsign⟩
    rw [← hsign] at hrounds
    rw [value, ← hsign, hnearest.unique hrounds.isNearest, Rank.toFloat_ofFloat]

end Literal

namespace Term

/-- The text is an `x` and a numeral, which denotes `n`. -/
def Names (text : Text) (n : Nat) : Prop :=
  ∃ digits, text = 'x' :: digits ∧ Literal.isNumeral digits ∧ Literal.ofNumeral digits = n

theorem readVariable?_eq_some_iff {index : UInt64} :
    readVariable? text = some index ↔ Names text index.toNat := by
  constructor
  · intro h
    unfold readVariable? at h
    split at h
    · next digits =>
      dsimp only at h
      split at h
      · next hcond =>
        cases h
        exact ⟨digits, rfl, hcond.1, (UInt64.toNat_ofNat_of_lt' hcond.2).symm⟩
      · cases h
    · cases h
  · rintro ⟨digits, rfl, hdigits, hindex⟩
    simp [readVariable?, hdigits, hindex, index.toNat_lt]

theorem readConstant?_eq_some_iff {value : Float} :
    readConstant? text = some value ↔ ∃ negative q, Literal.Denotes text negative q ∧
      q < Rank.overflow ∧ Rank.Rounds value (signed negative q) ∧ Rank.signOf value = negative := by
  constructor
  · intro h
    unfold readConstant? at h
    split at h
    · next l hl =>
      split at h
      · next hrank =>
        cases h
        exact ⟨_, _, Literal.denotes_of_read? hl, l.magnitude.rank_lt_infinity_iff.mp hrank,
          (Literal.value_eq_iff hrank).mp rfl⟩
      · cases h
    · cases h
  · rintro ⟨negative, q, hdenotes, hrange, hvalue⟩
    obtain ⟨l, hl, rfl, rfl⟩ := hdenotes.exists_read?
    have hrank := l.magnitude.rank_lt_infinity_iff.mpr hrange
    rw [readConstant?, hl]
    dsimp only
    rw [if_pos hrank, (Literal.value_eq_iff hrank).mpr hvalue]

theorem readVariable?_eq_none_iff :
    readVariable? text = none ↔ ∀ n, Names text n → UInt64.size ≤ n := by
  rw [Option.eq_none_iff_forall_ne_some]
  constructor
  · intro h n hn
    refine Nat.le_of_not_lt fun hlt => h (.ofNat n) ?_
    rwa [readVariable?_eq_some_iff, UInt64.toNat_ofNat_of_lt' hlt]
  · intro h index hindex
    exact absurd (h _ (readVariable?_eq_some_iff.mp hindex)) (Nat.not_le.mpr index.toNat_lt)

theorem readConstant?_eq_none_iff : readConstant? text = none ↔
    ∀ negative q, Literal.Denotes text negative q → Rank.overflow ≤ q := by
  constructor
  · intro h negative q hq
    obtain ⟨l, hl, rfl, rfl⟩ := hq.exists_read?
    refine le_of_not_gt fun hlt => ?_
    have hrank := l.magnitude.rank_lt_infinity_iff.mpr hlt
    simp [readConstant?, hl, hrank] at h
  · rw [Option.eq_none_iff_forall_ne_some]
    intro h value hvalue
    obtain ⟨negative, q, hq, hlt, -⟩ := readConstant?_eq_some_iff.mp hvalue
    exact absurd hlt (not_lt.mpr (h negative q hq))

theorem Names.ofText?_eq_none {n : Nat} (h : Names text n) : Operator.ofText? text = none := by
  obtain ⟨digits, rfl, -⟩ := h
  rfl

theorem Names.read?_eq_none {n : Nat} (h : Names text n) : Literal.read? text = none := by
  obtain ⟨digits, rfl, -⟩ := h
  rfl

theorem ofText?_eq_var_iff {index : UInt64} :
    ofText? text = some (.var index) ↔ Names text index.toNat := by
  rw [← readVariable?_eq_some_iff]
  constructor
  · intro h
    unfold ofText? at h
    cases ho : Operator.ofText? text <;> cases hv : readVariable? text <;>
      simp [ho, hv] at h
    rw [h]
  · intro h
    have hop := (readVariable?_eq_some_iff.mp h).ofText?_eq_none
    simp [ofText?, hop, h]

theorem ofText?_eq_const_iff {value : Float} :
    ofText? text = some (.const value) ↔ readConstant? text = some value := by
  constructor
  · exact readConstant?_of_ofText?
  · intro h
    obtain ⟨negative, q, hq, -⟩ := readConstant?_eq_some_iff.mp h
    obtain ⟨l, hl, -⟩ := hq.exists_read?
    simp [ofText?, Operator.ofText?_of_read? hl, readVariable?_of_read? hl, h]

theorem ofText?_eq_none_iff : ofText? text = none ↔
    Operator.ofText? text = none ∧ readVariable? text = none ∧ readConstant? text = none := by
  simp [ofText?]

/-- Every valid term is in one of the three languages, with the value that its text denotes, and
every text of a language is a valid term unless what it denotes is out of range. -/
theorem ofText?_recognizes (text : Text) :
    (∀ op, ofText? text = some (.op op) ↔ text = [op.symbol]) ∧
    (∀ index, ofText? text = some (.var index) ↔ Names text index.toNat) ∧
    (∀ value, ofText? text = some (.const value) ↔ ∃ negative q,
      Literal.Denotes text negative q ∧ q < Rank.overflow ∧
        Rank.Rounds value (signed negative q) ∧ Rank.signOf value = negative) ∧
    (ofText? text = none ↔ (∀ op : Operator, text ≠ [op.symbol]) ∧
      (∀ n, Names text n → UInt64.size ≤ n) ∧
        ∀ negative q, Literal.Denotes text negative q → Rank.overflow ≤ q) ∧
    (∀ n, Names text n → ∀ op : Operator, text ≠ [op.symbol]) ∧
    (∀ negative q, Literal.Denotes text negative q →
      (∀ op : Operator, text ≠ [op.symbol]) ∧ ∀ n, ¬ Names text n) := by
  refine ⟨?_, fun _ => ofText?_eq_var_iff, ?_, ?_, ?_, ?_⟩
  · intro op
    constructor
    · exact eq_symbol_of_ofText?
    · rintro rfl
      exact ofText?_symbol op
  · intro value
    rw [ofText?_eq_const_iff, readConstant?_eq_some_iff]
  · rw [ofText?_eq_none_iff, readVariable?_eq_none_iff, readConstant?_eq_none_iff,
      Operator.ofText?_eq_none_iff]
  · intro n hn
    exact Operator.ofText?_eq_none_iff.mp hn.ofText?_eq_none
  · intro negative q hq
    obtain ⟨l, hl, -⟩ := hq.exists_read?
    refine ⟨Operator.ofText?_eq_none_iff.mp (Operator.ofText?_of_read? hl), ?_⟩
    intro n hn
    rw [hn.read?_eq_none] at hl
    cases hl

end Term

end PolishArithmetic
