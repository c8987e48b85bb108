import PolishArithmetic.Expr.Eval

/-!
The variables of an expression, and the check that all of them have a value. An expression that
passes the check is evaluated without reading a variable that has none.
-/
namespace PolishArithmetic

/-- A variable that no value was given for, and how many values were given. -/
structure MissingValue where
  index : UInt64
  given : Nat
  deriving DecidableEq, Repr

namespace Expr

/-- The greatest index of a variable, if there is a variable at all. -/
def maxVariable? : Expr → Option UInt64
  | .const _ => none
  | .var index => some index
  | .binary _ left right => max left.maxVariable? right.maxVariable?

/-- If variables have no value, the one with the greatest index is named. -/
def missingValue? (values : List Float) (e : Expr) : Option MissingValue :=
  match e.maxVariable? with
  | some index => if values.length ≤ index.toNat then some ⟨index, values.length⟩ else none
  | none => none

theorem toNat_max_index (i j : UInt64) : (max i j).toNat = max i.toNat j.toNat := by
  simp only [Max.max, UInt64.le_iff_toNat_le]
  split <;> rfl

theorem isSome_eval?_of_forall_lt {values : List Float} {e : Expr}
    (h : ∀ i ∈ e.maxVariable?, i.toNat < values.length) : (e.eval? values).isSome := by
  induction e with
  | const value => rfl
  | var index => simp [eval?, evalM, h index rfl]
  | binary op left right ihl ihr =>
    have hl : ∀ i ∈ left.maxVariable?, i.toNat < values.length := by
      intro i hi
      cases hr : right.maxVariable? with
      | none => exact h i (by simp_all [maxVariable?])
      | some j =>
        have := h (max i j) (by simp_all [maxVariable?])
        rw [toNat_max_index] at this
        omega
    have hr : ∀ j ∈ right.maxVariable?, j.toNat < values.length := by
      intro j hj
      cases hl : left.maxVariable? with
      | none => exact h j (by simp_all [maxVariable?])
      | some i =>
        have := h (max i j) (by simp_all [maxVariable?])
        rw [toNat_max_index] at this
        omega
    obtain ⟨x, hx⟩ := Option.isSome_iff_exists.mp (ihl hl)
    obtain ⟨y, hy⟩ := Option.isSome_iff_exists.mp (ihr hr)
    simp only [eval?] at hx hy
    simp [eval?, evalM, hx, hy]

theorem isSome_eval?_of_missingValue?_eq_none {values : List Float} {e : Expr}
    (h : e.missingValue? values = none) : (e.eval? values).isSome := by
  apply isSome_eval?_of_forall_lt
  intro i hi
  rw [Option.mem_def] at hi
  simpa [missingValue?, hi] using h

end Expr

end PolishArithmetic
