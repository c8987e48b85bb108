import PolishArithmetic.Compile

/-!
The log of a compilation: every valid term in the order of reading, then how the compilation ended.
-/
namespace PolishArithmetic

inductive Event where
  | classified (sighting : Sighting)
  | compiled (length : Nat)
  | failed (fault : Fault) (length position : Nat)
  deriving DecidableEq, Repr

namespace Event

def level : Event → String
  | .classified _ => "TRACE"
  | .compiled _ => "DEBUG"
  | .failed .. => "DEBUG"

def message : Event → Text
  | .classified _ => "classified term".toList
  | .compiled _ => "compiled expression".toList
  | .failed fault _ _ => "compilation failed: ".toList ++ fault.message

def ofOutcome (text : Text) : Except Rejection Expr → Event
  | .ok _ => .compiled text.byteLength
  | .error r => .failed r.fault text.byteLength r.position

end Event

def compileLog (limit : Nat) (text : Text) : List Event :=
  let reading := readWhole limit text
  reading.sightings.map .classified ++ [.ofOutcome text reading.outcome]

end PolishArithmetic
