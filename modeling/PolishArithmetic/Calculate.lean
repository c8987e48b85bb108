import PolishArithmetic.Compile
import PolishArithmetic.Expr.Eval

/-!
Compilation and evaluation of a text in one step. A text that is rejected reads no variable.
-/
namespace PolishArithmetic

def calculate {m : Type → Type} [Monad m] (limit : Nat) (read : UInt64 → m Float) (text : Text) :
    m (Except Rejection Float) :=
  match compile limit text with
  | .ok e => do
    let value ← e.evalM read
    pure (.ok value)
  | .error r => pure (.error r)

end PolishArithmetic
