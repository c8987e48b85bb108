import PolishArithmetic.Number.Decimal

/-!
The terms of an expression: operators, references to variables, and decimal constants. In a text the
terms stand one space apart.
-/
namespace PolishArithmetic

namespace Text

def firstTerm (text : Text) : Text :=
  text.takeWhile (· ≠ ' ')

/-- What follows the first term and the one space that ends it. -/
def afterTerm (text : Text) : Text :=
  (text.dropWhile (· ≠ ' ')).tail

theorem space_not_mem_firstTerm (text : Text) : ' ' ∉ firstTerm text := by
  intro h
  have := List.all_takeWhile (l := text) (p := (· ≠ ' '))
  simpa using List.all_eq_true.mp this ' ' h

theorem firstTerm_append_afterTerm {text : Text} (h : ' ' ∈ text) :
    firstTerm text ++ ' ' :: afterTerm text = text := by
  induction text with
  | nil => simp at h
  | cons c cs ih =>
    by_cases hc : c = ' '
    · simp [firstTerm, afterTerm, hc]
    · have hcs : ' ' ∈ cs := by
        rcases List.mem_cons.mp h with h | h
        · exact absurd h.symm hc
        · exact h
      simpa [firstTerm, afterTerm, hc] using ih hcs

theorem firstTerm_eq_self {text : Text} (h : ' ' ∉ text) : firstTerm text = text := by
  induction text with
  | nil => rfl
  | cons c cs ih =>
    rw [List.mem_cons, not_or] at h
    simpa [firstTerm, Ne.symm h.1] using ih h.2

theorem afterTerm_eq_nil {text : Text} (h : ' ' ∉ text) : afterTerm text = [] := by
  induction text with
  | nil => rfl
  | cons c cs ih =>
    rw [List.mem_cons, not_or] at h
    simpa [afterTerm, Ne.symm h.1] using ih h.2

theorem length_afterTerm_lt {text : Text} (h : text ≠ []) :
    (afterTerm text).length < text.length := by
  have hpos : 0 < text.length := List.length_pos_iff.mpr h
  have hle := (List.dropWhile_suffix (l := text) (fun c => decide (c ≠ ' '))).length_le
  rw [afterTerm, List.length_tail]
  omega

end Text

inductive Operator where
  | add | sub | mul | div
  deriving DecidableEq, Repr

namespace Operator

def symbol : Operator → Char
  | .add => '+'
  | .sub => '-'
  | .mul => '*'
  | .div => '/'

def name : Operator → Text
  | .add => "Add".toList
  | .sub => "Sub".toList
  | .mul => "Mul".toList
  | .div => "Div".toList

def ofText? : Text → Option Operator
  | ['+'] => some .add
  | ['-'] => some .sub
  | ['*'] => some .mul
  | ['/'] => some .div
  | _ => none

@[simp] theorem ofText?_symbol (op : Operator) : ofText? [op.symbol] = some op := by
  cases op <;> rfl

theorem eq_symbol_of_ofText? {text : Text} {op : Operator} (h : ofText? text = some op) :
    text = [op.symbol] := by
  unfold ofText? at h
  split at h <;> cases h <;> rfl

def apply : Operator → Float → Float → Float
  | .add, x, y => x + y
  | .sub, x, y => x - y
  | .mul, x, y => x * y
  | .div, x, y => x / y

end Operator

inductive Term where
  | op (op : Operator)
  | var (index : UInt64)
  | const (value : Float)
  deriving DecidableEq

namespace Term

/-- A variable is an `x` and its index in decimal digits. -/
def readVariable? : Text → Option UInt64
  | 'x' :: digits =>
    let index := Literal.ofNumeral digits
    if Literal.isNumeral digits ∧ index < UInt64.size then some (.ofNat index) else none
  | _ => none

/-- A literal that no finite number is near to is no constant. -/
def readConstant? (text : Text) : Option Float :=
  match Literal.read? text with
  | some literal =>
    if literal.magnitude.rank < Rank.infinity then some literal.value else none
  | none => none

def ofText? (text : Text) : Option Term :=
  (Operator.ofText? text).map op <|> (readVariable? text).map var <|> (readConstant? text).map const

end Term

end PolishArithmetic
