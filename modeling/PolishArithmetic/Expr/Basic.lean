import PolishArithmetic.Term

/-!
Expressions as trees, and their terms in the order in which Polish notation writes them.
-/
namespace PolishArithmetic

inductive Expr where
  | const (value : Float)
  | var (index : UInt64)
  | binary (op : Operator) (left right : Expr)
  deriving DecidableEq

namespace Expr

/-- The greatest number of operators around one place. -/
def nesting : Expr → Nat
  | .const _ => 0
  | .var _ => 0
  | .binary _ left right => max left.nesting right.nesting + 1

def terms : Expr → List Term
  | .const value => [.const value]
  | .var index => [.var index]
  | .binary op left right => .op op :: (left.terms ++ right.terms)

/-- Equality of trees with numbers compared as numbers: the zeros are equal, and what is not a number
differs even from itself. -/
def sameValues : Expr → Expr → Bool
  | .const x, .const y => x == y
  | .var i, .var j => i == j
  | .binary op left right, .binary op' left' right' =>
    op = op' && left.sameValues left' && right.sameValues right'
  | _, _ => false

end Expr

end PolishArithmetic
