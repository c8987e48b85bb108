import PolishArithmetic.Text
import PolishArithmetic.Number.Rank

/-!
Decimal numbers, the binary64 magnitude nearest to one, and the texts that denote one: a sign,
digits with a point somewhere among them, and a power of ten, of which only digits are required.
-/
namespace PolishArithmetic

/-- The number `digits * 10 ^ exponent`. -/
structure Decimal where
  digits : Nat
  exponent : Int
  deriving DecidableEq, Repr

namespace Decimal

def tenPower (k : Nat) : Nat :=
  Nat.pow 10 k

/-- The rank nearest to the number, infinity if it is out of range. One unit is `2 ^ (-1074)`. The two
shortcuts keep the powers of ten small: `10 ^ 309` is out of range, and `8 ^ k ≤ 10 ^ k`, so that a
number below half a unit is recognised by the size of its digits in bits. -/
def rank (d : Decimal) : Nat :=
  if d.digits = 0 then
    0
  else
    match d.exponent with
    | .ofNat k =>
      if 309 ≤ k then Rank.infinity
      else min Rank.infinity (Rank.nearest ((d.digits * tenPower k) <<< 1074) 1)
    | .negSucc k =>
      if d.digits.log2 + 1076 ≤ 3 * (k + 1) then 0
      else min Rank.infinity (Rank.nearest (d.digits <<< 1074) (tenPower (k + 1)))

end Decimal

/-- A decimal number as it is written, with a sign that zero may have too. -/
structure Literal where
  negative : Bool
  magnitude : Decimal
  deriving DecidableEq, Repr

namespace Literal

def value (l : Literal) : Float :=
  Rank.toFloat l.negative l.magnitude.rank

/-- Whether a text starts with a minus sign, and what follows its sign, if it has one. -/
def takeSign : Text → Bool × Text
  | '-' :: rest => (true, rest)
  | '+' :: rest => (false, rest)
  | text => (false, text)

def takeDigits (text : Text) : Text × Text :=
  (text.takeWhile Char.isDigit, text.dropWhile Char.isDigit)

def isNumeral (text : Text) : Bool :=
  !text.isEmpty && text.all Char.isDigit

def ofNumeral (digits : Text) : Nat :=
  Nat.ofDigitChars 10 digits 0

/-- The power of ten at the end of a literal, which may be left out. -/
def readExponent? : Text → Option Int
  | [] => some 0
  | mark :: rest =>
    let (negative, digits) := takeSign rest
    if (mark = 'e' ∨ mark = 'E') ∧ isNumeral digits then
      some (if negative then -(ofNumeral digits : Int) else ofNumeral digits)
    else
      none

/-- The digits after the point, if there is one, and what follows them. -/
def takeFraction : Text → Text × Text
  | '.' :: rest => takeDigits rest
  | text => ([], text)

def read? (text : Text) : Option Literal :=
  let (negative, unsigned) := takeSign text
  let (whole, afterWhole) := takeDigits unsigned
  let (fraction, afterFraction) := takeFraction afterWhole
  if whole.isEmpty && fraction.isEmpty then
    none
  else
    (readExponent? afterFraction).map fun exponent =>
      { negative, magnitude := ⟨ofNumeral (whole ++ fraction), exponent - fraction.length⟩ }

end Literal

end PolishArithmetic
