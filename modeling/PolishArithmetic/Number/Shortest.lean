import PolishArithmetic.Number.Decimal

/-!
The shortest decimal for a magnitude: of all decimals that read back as the magnitude, one with the
fewest digits, and of those the nearest. Of two equally near ones the greater is taken.
-/
namespace PolishArithmetic

namespace Rank

/-- The magnitude of rank `r` as a fraction, in units of `10 ^ exponent`. -/
def scaled (r : Nat) : Int → Nat × Nat
  | .ofNat k => (units r, Decimal.tenPower k <<< 1074)
  | .negSucc k => (units r * Decimal.tenPower (k + 1), 1 <<< 1074)

/-- The multiple of `10 ^ exponent` nearest to the magnitude among those that read back as it.
If there is one at all, it is one of the two neighbours of the magnitude. -/
def neighbour? (r : Nat) (exponent : Int) : Option Decimal :=
  let (n, d) := scaled r exponent
  let below : Decimal := ⟨n / d, exponent⟩
  let above : Decimal := ⟨n / d + 1, exponent⟩
  if below.rank = r then
    if above.rank = r ∧ (2 * (n / d) + 1) * d ≤ 2 * n then some above else some below
  else if above.rank = r then
    some above
  else
    none

/-- An exponent so great that `10 ^ exponent` exceeds all that rounds to the magnitude. -/
def topExponent (r : Nat) : Int :=
  ((units r).log2 - 1072 : Int) * 30103 / 100000 + 2

/-- Every magnitude is a decimal, since `2 ^ (-1074)` is `5 ^ 1074 * 10 ^ (-1074)`. -/
def exact (r : Nat) : Decimal :=
  ⟨units r * Nat.pow 5 1074, -1074⟩

/-- The decimal on the coarsest grid that has one. The grids tried reach beyond seventeen digits. -/
def shortest (r : Nat) : Decimal :=
  match (List.range 24).findSome? fun (i : Nat) => neighbour? r (topExponent r - i) with
  | some d => d
  | none => exact r

end Rank

end PolishArithmetic
