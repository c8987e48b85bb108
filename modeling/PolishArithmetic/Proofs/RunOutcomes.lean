import Mathlib.Data.List.Forall2
import PolishArithmetic.Proofs.InputLines
import PolishArithmetic.Proofs.VariableCheck

/-!
How a run ends and all that it writes. For a single expression there are three outcomes: its value,
the report of a rejection, or the notice of a missing value. No run fails without a word among the
errors, and only a line that is not UTF-8 makes a run over many lines fail.
-/
namespace PolishArithmetic

theorem Rejection.report_ne_nil (r : Rejection) (coloured : Bool) (source : Text) :
    r.report coloured source ≠ [] := by
  unfold report
  split
  · simp
  · cases coloured <;> simp [Report.drawing, Report.heading, Report.title, Piece.inked, Piece.write]

namespace Command

variable {o : Options} {text : Text} {e : Expr} {r : Rejection} {m : MissingValue} {x : Float}

theorem shownTree_of_error (h : compile o.limit text = .error r) : shownTree o text = [] := by
  simp [shownTree, h]

theorem shownTree_of_ok (h : compile o.limit text = .ok e) :
    shownTree o text =
      if o.showTree then "=== Compiled Expression ===\n".toList ++ e.text ++ "\n\n".toList
      else [] := by
  cases hshow : o.showTree <;> simp [shownTree, h, hshow]

theorem runArgument_of_error (h : compile o.limit text = .error r) :
    runArgument o text = ⟨[], r.report true text, 1⟩ := by
  simp [runArgument, outputOf, errorsOf, reply, h, shownTree_of_error h]

theorem runArgument_of_missing (h : compile o.limit text = .ok e)
    (hm : e.missingValue? o.values = some m) :
    runArgument o text = ⟨shownTree o text, "Error: ".toList ++ missingText m, 1⟩ := by
  simp [runArgument, outputOf, errorsOf, reply, h, replyTo_of_missing hm]

theorem runArgument_of_value (h : compile o.limit text = .ok e) (hx : e.eval? o.values = some x) :
    runArgument o text = ⟨shownTree o text ++ Style.plain.write x ++ ['\n'], [], 0⟩ := by
  simp [runArgument, outputOf, errorsOf, reply, h, replyTo_of_eval? hx]

/-- A run over one expression succeeds exactly if it writes no errors, and then it writes the
value. -/
theorem code_runArgument_eq_zero_iff (o : Options) (text : Text) :
    ((runArgument o text).code = 0 ↔ (runArgument o text).errors = []) ∧
    ((runArgument o text).code = 0 ↔
      ∃ e x, compile o.limit text = .ok e ∧ e.eval? o.values = some x) := by
  cases h : compile o.limit text with
  | error r => simp [runArgument_of_error h, r.report_ne_nil]
  | ok e =>
    cases hm : e.missingValue? o.values with
    | none =>
      obtain ⟨x, hx, -⟩ := exists_replyTo_eq_value hm
      simp [runArgument_of_value h hx, hx]
    | some m => simp [runArgument_of_missing h hm, Expr.eval?_of_missing hm]

theorem code_runLines_eq_zero_iff (o : Options) (lines : List Bytes) :
    (runLines o lines).code = 0 ↔ ∀ line ∈ lines, line.text?.isSome := by
  induction lines with
  | nil => simp [runLines]
  | cons line lines ih => cases hline : line.text? <;> simp [runLines, hline, ih]

/-- The line holds an expression that has this value. -/
def HasValue (o : Options) (line : Bytes) (x : Float) : Prop :=
  ∃ text e, line.text? = some text ∧ compile o.limit text = .ok e ∧ e.eval? o.values = some x

/-- Lines that all have a value give one value a line, in their order. -/
theorem runLines_of_values {lines : List Bytes} {values : List Float} (hplain : o.showTree = false)
    (h : List.Forall₂ (HasValue o) lines values) :
    runLines o lines = ⟨values.flatMap fun x => Style.plain.write x ++ ['\n'], [], 0⟩ := by
  induction h with
  | nil => rfl
  | cons hvalue _ ih =>
    obtain ⟨text, e, hline, he, hx⟩ := hvalue
    simp [runLines, hline, ih, outputOf, errorsOf, reply, he, replyTo_of_eval? hx, hplain,
      shownTree_of_ok he]

/-- Words that cannot be read are told from every other failure by the way the run ends. -/
theorem code_run_eq_two_iff (words : List Text) (input : Bytes) :
    (run words input).code = 2 ↔ Options.ofWords? words = none := by
  have hargument (o : Options) (text : Text) : (runArgument o text).code ≠ 2 := by
    cases hreply : reply o text <;> simp [runArgument, hreply]
  have hlines (o : Options) (lines : List Bytes) : (runLines o lines).code ≠ 2 := by
    induction lines with
    | nil => simp [runLines]
    | cons line lines ih => cases hline : line.text? <;> simp [runLines, hline, ih]
  cases hwords : Options.ofWords? words with
  | none => simp [run, hwords, usage]
  | some o =>
    cases htext : o.expression with
    | none => simp [run, hwords, htext, hlines]
    | some text => simp [run, hwords, htext, hargument]

end Command

end PolishArithmetic
