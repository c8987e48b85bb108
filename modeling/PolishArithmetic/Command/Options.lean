import PolishArithmetic.Compile

/-!
The words of a command line. Values for the variables are given one by one in the order of their
indices; the depth limit and the wish to see the tree may be given once; one word may be the
expression. A word that starts with a minus sign is an option unless it follows `--`.
-/
namespace PolishArithmetic.Command

structure Options where
  values : List Float
  limit : Nat
  showTree : Bool
  expression : Option Text

inductive Setting where
  | value (x : Float)
  | limit (depth : Nat)
  | showTree
  | expression (text : Text)

/-- Values may be infinite or no number at all, and are infinite if they are out of range. -/
def readValue? (text : Text) : Option Float :=
  let (negative, unsigned) := Literal.takeSign text
  let word := unsigned.map Char.toLower
  if word = "inf".toList ∨ word = "infinity".toList then
    some (Rank.toFloat negative Rank.infinity)
  else if word = "nan".toList then
    some (0 / 0)
  else
    (Literal.read? text).map Literal.value

def readLimit? (text : Text) : Option Nat :=
  let digits := match text with
    | '+' :: rest => rest
    | _ => text
  let depth := Literal.ofNumeral digits
  if Literal.isNumeral digits ∧ depth < UInt64.size then some depth else none

/-- A minus sign and a number that starts with a digit and has no sign in its exponent. -/
def isNegativeNumber : Text → Bool
  | '-' :: unsigned =>
    let (whole, afterWhole) := Literal.takeDigits unsigned
    let (_, afterFraction) := Literal.takeFraction afterWhole
    !whole.isEmpty && match afterFraction with
      | [] => true
      | mark :: digits => (mark = 'e' || mark = 'E') && Literal.isNumeral digits
  | _ => false

/-- A lone minus sign is no option. -/
def isOption (word : Text) : Bool :=
  1 < word.length && word.head? = some '-'

inductive Word where
  | operand (text : Text)
  | operandsFollow
  | value (attached : Option Text)
  | limit (attached : Option Text)
  | showTree
  | unknown

/-- A long option, whose name may be followed by `=` and a value. -/
def longOption (name : Text) (attached : Option Text) : Word :=
  if name = "var".toList then .value attached
  else if name = "max-depth".toList then .limit attached
  else if name = "debug-tree".toList ∧ attached = none then .showTree
  else .unknown

def Word.ofText (word : Text) : Word :=
  if !isOption word then
    .operand word
  else
    match word.tail with
    | ['-'] => .operandsFollow
    | '-' :: long =>
      longOption (long.takeWhile (· ≠ '='))
        (match long.dropWhile (· ≠ '=') with
          | [] => none
          | _ :: attached => some attached)
    | ['x'] => .value none
    | 'x' :: '=' :: attached => .value (some attached)
    | 'x' :: attached => .value (some attached)
    | _ => .unknown

/-- The settings that the words stand for, or none if they are not well formed. -/
def readSettings? : List Text → Option (List Setting)
  | [] => some []
  | word :: words =>
    match Word.ofText word with
    | .operand text => (readSettings? words).map (.expression text :: ·)
    | .operandsFollow => some (words.map .expression)
    | .showTree => (readSettings? words).map (.showTree :: ·)
    | .unknown => none
    | .value (some text) => do return .value (← readValue? text) :: (← readSettings? words)
    | .limit (some text) => do return .limit (← readLimit? text) :: (← readSettings? words)
    | .value none =>
      match words with
      | [] => none
      | text :: words =>
        if isOption text && !isNegativeNumber text then none
        else do return .value (← readValue? text) :: (← readSettings? words)
    | .limit none =>
      match words with
      | [] => none
      | text :: words =>
        if isOption text then none
        else do return .limit (← readLimit? text) :: (← readSettings? words)

namespace Setting

def value? : Setting → Option Float
  | .value x => some x
  | _ => none

def limit? : Setting → Option Nat
  | .limit depth => some depth
  | _ => none

def expression? : Setting → Option Text
  | .expression text => some text
  | _ => none

def isShowTree : Setting → Bool
  | .showTree => true
  | _ => false

end Setting

def Options.ofWords? (words : List Text) : Option Options := do
  let settings ← readSettings? words
  let limits := settings.filterMap Setting.limit?
  let expressions := settings.filterMap Setting.expression?
  let shown := settings.countP Setting.isShowTree
  if limits.length ≤ 1 ∧ expressions.length ≤ 1 ∧ shown ≤ 1 then
    some {
      values := settings.filterMap Setting.value?
      limit := limits.head?.getD defaultLimit
      showTree := shown = 1
      expression := expressions.head? }
  else
    none

end PolishArithmetic.Command
