import PolishArithmetic.Number.Shortest

/-!
Texts of numbers. A style says how the shortest decimal of a number is laid out.
-/
namespace PolishArithmetic

structure Style where
  /-- Whole numbers are written with a point and a zero. -/
  pointZero : Bool
  /-- The decimal exponents of a first digit for which no power of ten is written. -/
  isPositional : Int → Bool

namespace Style

/-- Numbers in canonical texts have neither an exponent nor a needless point. -/
def plain : Style := ⟨false, fun _ => true⟩

/-- Numbers in a description of a tree always show a point or an exponent. -/
def descriptive : Style := ⟨true, fun lead => -4 ≤ lead && lead < 16⟩

def whole (style : Style) (digits : Text) : Text :=
  if style.pointZero then digits ++ ['.', '0'] else digits

def positional (style : Style) (d : Decimal) : Text :=
  match d.exponent with
  | .ofNat k => style.whole (Nat.toDigits 10 d.digits ++ List.replicate k '0')
  | .negSucc k =>
    let places := Nat.toDigits 10 (d.digits % Decimal.tenPower (k + 1))
    Nat.toDigits 10 (d.digits / Decimal.tenPower (k + 1)) ++
      '.' :: (List.replicate (k + 1 - places.length) '0' ++ places)

def integer : Int → Text
  | .ofNat n => Nat.toDigits 10 n
  | .negSucc n => '-' :: Nat.toDigits 10 (n + 1)

def scientific (digits : Text) (lead : Int) : Text :=
  digits.take 1 ++ (if digits.length ≤ 1 then [] else '.' :: digits.drop 1) ++ 'e' :: integer lead

def magnitude (style : Style) (r : Nat) : Text :=
  if r = 0 then
    style.whole ['0']
  else if r = Rank.infinity then
    ['i', 'n', 'f']
  else
    let d := Rank.shortest r
    let digits := Nat.toDigits 10 d.digits
    let lead := d.exponent + digits.length - 1
    if style.isPositional lead then style.positional d else scientific digits lead

def write (style : Style) (x : Float) : Text :=
  let r := Rank.ofFloat x
  if Rank.infinity < r then
    ['N', 'a', 'N']
  else if Rank.signOf x then
    '-' :: style.magnitude r
  else
    style.magnitude r

end Style

end PolishArithmetic
