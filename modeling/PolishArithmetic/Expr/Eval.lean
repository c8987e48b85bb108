import PolishArithmetic.Expr.Basic

/-!
Evaluation. The left operand is evaluated before the right one, and every occurrence of a variable is
read by itself, so that reading may have effects: it may fail, or keep a record.
-/
namespace PolishArithmetic.Expr

def evalM {m : Type → Type} [Monad m] (read : UInt64 → m Float) : Expr → m Float
  | .const value => pure value
  | .var index => read index
  | .binary op left right => do
    let x ← left.evalM read
    let y ← right.evalM read
    pure (op.apply x y)

def eval (vars : UInt64 → Float) (e : Expr) : Float :=
  Id.run (e.evalM fun index => pure (vars index))

/-- The value, or nothing if a variable without a value is read. -/
def eval? (values : List Float) (e : Expr) : Option Float :=
  e.evalM fun index => values[index.toNat]?

/-- A source of values that records the indices read, in order. -/
def recording (vars : UInt64 → Float) (index : UInt64) : StateM (List UInt64) Float := do
  modify (· ++ [index])
  return vars index

end PolishArithmetic.Expr
