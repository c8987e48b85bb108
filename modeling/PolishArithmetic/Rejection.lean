import PolishArithmetic.Text

/-!
Why a text is not an expression, and at which byte that shows.
-/
namespace PolishArithmetic

inductive Fault where
  | unexpectedEnd
  | unexpectedContinuation
  | invalidTerm
  | tooDeep (limit : Nat)
  deriving DecidableEq, Repr

def Fault.message : Fault → Text
  | .unexpectedEnd => "unexpected end of expression".toList
  | .unexpectedContinuation => "unexpected continuation of expression".toList
  | .invalidTerm => "invalid term".toList
  | .tooDeep limit =>
    "expression nesting depth exceeds maximum of ".toList ++ Nat.toDigits 10 limit ++
      " levels".toList

structure Rejection where
  fault : Fault
  position : Nat
  deriving DecidableEq, Repr

namespace Rejection

/-- The same rejection seen from a text that starts `bytes` bytes earlier. -/
def shift (bytes : Nat) (r : Rejection) : Rejection :=
  { r with position := r.position + bytes }

def message (r : Rejection) : Text :=
  r.fault.message ++ " at position ".toList ++ Nat.toDigits 10 r.position

end Rejection

end PolishArithmetic
