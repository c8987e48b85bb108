import PolishArithmetic.Expr.Basic
import PolishArithmetic.Number.Style

/-!
Texts of expressions: the canonical one, in Polish notation with one space between terms, and a
description of the tree.
-/
namespace PolishArithmetic

def Term.text : Term → Text
  | .op operator => [operator.symbol]
  | .var index => 'x' :: Nat.toDigits 10 index.toNat
  | .const value => Style.plain.write value

namespace Expr

def text : Expr → Text
  | .const value => Term.text (.const value)
  | .var index => Term.text (.var index)
  | .binary op left right => Term.text (.op op) ++ ' ' :: (left.text ++ ' ' :: right.text)

/-- A constructor and its arguments for every node. -/
def outline : Expr → Text
  | .const value => "Constant(".toList ++ Style.descriptive.write value ++ [')']
  | .var index => "Variable(".toList ++ Nat.toDigits 10 index.toNat ++ [')']
  | .binary op left right =>
    "Binary \x7b op: ".toList ++ op.name ++ ", left: ".toList ++ left.outline ++
      ", right: ".toList ++ right.outline ++ " \x7d".toList

/-- The outline of an expression that is ready for evaluation. Where its variables are read from is
left out. -/
def description (e : Expr) : Text :=
  "Evaluator \x7b expr: ".toList ++ e.outline ++ ", .. \x7d".toList

end Expr

end PolishArithmetic
