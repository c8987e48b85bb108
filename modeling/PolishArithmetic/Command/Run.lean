import PolishArithmetic.Command.Options
import PolishArithmetic.Expr.Print
import PolishArithmetic.Expr.Variables
import PolishArithmetic.Report
import PolishArithmetic.Text.Lines

/-!
What the command writes and how it ends. An expression on the command line is evaluated by itself;
otherwise every line of the input is one, and a fault in it spoils that line only.
-/
namespace PolishArithmetic

namespace Command

inductive Reply where
  | value (x : Float)
  | rejected (r : Rejection)
  | missing (m : MissingValue)

/-- The value of the expression, all of whose variables have one. -/
def replyTo (values : List Float) (e : Expr) : Reply :=
  match h : e.missingValue? values with
  | some m => .missing m
  | none => .value ((e.eval? values).get (Expr.isSome_eval?_of_missingValue?_eq_none h))

def reply (o : Options) (text : Text) : Reply :=
  match compile o.limit text with
  | .ok e => replyTo o.values e
  | .error r => .rejected r

/-- The tree is shown before its variables are looked at. -/
def shownTree (o : Options) (text : Text) : Text :=
  match compile o.limit text, o.showTree with
  | .ok e, true => "=== Compiled Expression ===\n".toList ++ e.text ++ "\n\n".toList
  | _, _ => []

/-- Lines have at most seventy-eight columns, of which the frame at the left takes four. -/
def missingText (m : MissingValue) : Text :=
  let complaint : Text := "expression references x".toList ++ Nat.toDigits 10 m.index.toNat ++
    " but only ".toList ++ Nat.toDigits 10 m.given ++ " variable value(s) were supplied".toList
  let framed := (Text.fill 74 complaint).zipIdx.flatMap fun (line, i) =>
    (if i = 0 then "  × ".toList else "  │ ".toList) ++ line ++ ['\n']
  "polcalc::missing_variable\n\n".toList ++ framed ++
    "  help: pass one --var per variable, in index order\n\n".toList

structure Outcome where
  output : Text
  errors : Text
  code : Nat
  deriving DecidableEq, Repr

def outputOf (o : Options) (text : Text) : Text :=
  shownTree o text ++
    match reply o text with
    | .value x => Style.plain.write x ++ ['\n']
    | .rejected _ => []
    | .missing _ => []

def errorsOf (o : Options) (text : Text) : Text :=
  match reply o text with
  | .value _ => []
  | .rejected r => r.report true text
  | .missing m => missingText m

def runArgument (o : Options) (text : Text) : Outcome where
  output := outputOf o text
  errors :=
    match reply o text with
    | .missing _ => "Error: ".toList ++ errorsOf o text
    | _ => errorsOf o text
  code :=
    match reply o text with
    | .value _ => 0
    | _ => 1

/-- A line that is not UTF-8 ends the run. -/
def runLines (o : Options) : List Bytes → Outcome
  | [] => ⟨[], [], 0⟩
  | line :: lines =>
    match line.text? with
    | none => ⟨[], "Error:   × stream did not contain valid UTF-8\n\n".toList, 1⟩
    | some text =>
      let others := runLines o lines
      ⟨outputOf o text ++ others.output, errorsOf o text ++ others.errors, others.code⟩

def usage : Outcome :=
  ⟨[], "usage: [-x VALUE]... [--max-depth N] [--debug-tree] [--] [EXPRESSION]\n".toList, 2⟩

/-- Whether the command reads its input, which it does if no expression is given. -/
def readsInput (words : List Text) : Bool :=
  match Options.ofWords? words with
  | some o => o.expression.isNone
  | none => false

def run (words : List Text) (input : Bytes) : Outcome :=
  match Options.ofWords? words with
  | some o =>
    match o.expression with
    | some text => runArgument o text
    | none => runLines o input.lines
  | none => usage

end Command

end PolishArithmetic
