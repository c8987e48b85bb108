import PolishArithmetic.Calculate
import PolishArithmetic.Proofs.Grammar
import PolishArithmetic.Proofs.Terms

/-!
Evaluation of a text without a tree. The variables are read from left to right, and then the terms
are worked through from right to left on a stack. This gives the value of the compiled tree, with the
same reads in the same order.
-/
namespace PolishArithmetic

/-- The left operand is on top of the stack. -/
def Operator.onStack? (op : Operator) : List Float → Option (List Float)
  | left :: right :: stack => some (op.apply left right :: stack)
  | _ => none

/-- The stack after all the terms, the last of which comes first. The variables among the terms stand
for the values, of which the first is for the first variable. -/
def stackAfter? : List Term → List Float → Option (List Float)
  | [], [] => some []
  | .const x :: terms, values => (stackAfter? terms values).map (x :: ·)
  | .var _ :: terms, x :: values => (stackAfter? terms values).map (x :: ·)
  | .op op :: terms, values => (stackAfter? terms values).bind op.onStack?
  | _, _ => none

/-- The value of a text in which the variables stand for the values, from left to right. -/
def interpret? (text : Text) (values : List Float) : Option Float := do
  let terms ← text.terms.mapM Term.ofText?
  match ← stackAfter? terms values with
  | [value] => some value
  | _ => none

/-- The source `read` with a record of the indices that it is asked for. -/
def noting {σ : Type} (read : UInt64 → StateM σ Float) (index : UInt64) :
    StateM (List UInt64 × σ) Float := do
  let (asked, s) ← get
  let (value, s') := (read index).run s
  set (asked ++ [index], s')
  return value

section

variable {σ : Type} {read : UInt64 → StateM σ Float}

theorem run_bind_of_run {α β : Type} {first : StateM σ α} {next : α → StateM σ β} {s s' : σ}
    {a : α} (h : first.run s = (a, s')) : (first >>= next).run s = (next a).run s' := by
  rw [StateT.run_bind, h]
  rfl

/-- A record changes neither the values nor what becomes of the source. -/
theorem run_mapM_noting {indices : List UInt64} {s s' : σ} {values : List Float}
    (h : (indices.mapM read).run s = (values, s')) (asked : List UInt64) :
    (indices.mapM (noting read)).run (asked, s) = (values, asked ++ indices, s') := by
  induction indices generalizing asked s values with
  | nil =>
    cases h
    rw [List.append_nil]
    rfl
  | cons index indices ih =>
    rcases hx : (read index).run s with ⟨x, s₁⟩
    rcases hxs : (indices.mapM read).run s₁ with ⟨xs, s₂⟩
    have hnoting : (noting read index).run (asked, s) = (x, asked ++ [index], s₁) := by
      change (((read index).run s).1, asked ++ [index], ((read index).run s).2) = _
      rw [hx]
    rw [List.mapM_cons, run_bind_of_run hx, run_bind_of_run hxs] at h
    cases h
    rw [List.mapM_cons, run_bind_of_run hnoting, run_bind_of_run (ih hxs (asked ++ [index])),
      List.append_assoc]
    rfl

/-- The value of the tree is put on the stack that the terms after its own leave, whatever they are. -/
theorem Expr.run_evalM (read : UInt64 → StateM σ Float) (e : Expr) (s : σ) :
    ∃ values value s', (e.indices.mapM read).run s = (values, s') ∧
      (e.evalM read).run s = (value, s') ∧
      ∀ terms rest, stackAfter? (e.terms ++ terms) (values ++ rest) =
        (stackAfter? terms rest).map (value :: ·) := by
  induction e generalizing s with
  | const x =>
    refine ⟨[], x, s, rfl, rfl, fun terms rest => ?_⟩
    simp [Expr.terms, stackAfter?]
  | var index =>
    rcases hx : (read index).run s with ⟨x, s'⟩
    refine ⟨[x], x, s', ?_, hx, fun terms rest => ?_⟩
    · change ([index].mapM read).run s = _
      rw [List.mapM_cons, run_bind_of_run hx]
      rfl
    · simp [Expr.terms, stackAfter?]
  | binary op left right ihl ihr =>
    obtain ⟨values, x, s₁, hl, hx, hleft⟩ := ihl s
    obtain ⟨values', y, s₂, hr, hy, hright⟩ := ihr s₁
    refine ⟨values ++ values', op.apply x y, s₂, ?_, ?_, fun terms rest => ?_⟩
    · rw [indices_binary, List.mapM_append, run_bind_of_run hl, run_bind_of_run hr]
      rfl
    · rw [evalM, run_bind_of_run hx, run_bind_of_run hy]
      rfl
    -- The machine has the right operand's value first, so that the left one's is on top of it.
    · have hterms : (Expr.binary op left right).terms ++ terms =
          .op op :: (left.terms ++ (right.terms ++ terms)) := by
        simp [Expr.terms]
      rw [hterms, stackAfter?, List.append_assoc, hleft, hright]
      cases stackAfter? terms rest <;> rfl

/-- Evaluation with a record reads the variables of the tree in preorder. -/
theorem Expr.run_evalM_noting (read : UInt64 → StateM σ Float) (e : Expr) (asked : List UInt64)
    (s : σ) :
    ∃ values value s', (e.indices.mapM read).run s = (values, s') ∧
      stackAfter? e.terms values = some [value] ∧ (e.evalM read).run s = (value, s') ∧
      (e.evalM (noting read)).run (asked, s) = (value, asked ++ e.indices, s') := by
  obtain ⟨values, value, s', hvalues, hvalue, hstack⟩ := e.run_evalM read s
  obtain ⟨_, value', _, hvalues', hvalue', hstack'⟩ := e.run_evalM (noting read) (asked, s)
  rw [run_mapM_noting hvalues] at hvalues'
  cases hvalues'
  have hone : stackAfter? e.terms values = some [value] := by
    simpa [stackAfter?] using hstack [] []
  have hsame : value' = value := by
    simpa [stackAfter?, hone] using (hstack' [] []).symm
  exact ⟨values, value, s', hvalues, hone, hvalue, hsame ▸ hvalue'⟩

/-- The state `put asked` is any that holds the record `asked`. -/
theorem Expr.run_evalM_of_record {vars : UInt64 → Float} {put : List UInt64 → σ}
    (h : ∀ index asked, (read index).run (put asked) = (vars index, put (asked ++ [index])))
    (e : Expr) (asked : List UInt64) :
    (e.evalM read).run (put asked) = (e.eval vars, put (asked ++ e.indices)) := by
  induction e generalizing asked with
  | const value =>
    rw [indices_const, List.append_nil]
    rfl
  | var index => exact h index asked
  | binary op left right ihl ihr =>
    rw [evalM, run_bind_of_run (ihl asked), run_bind_of_run (ihr _), indices_binary,
      List.append_assoc]
    rfl

theorem Expr.run_evalM_recording (vars : UInt64 → Float) (e : Expr) (asked : List UInt64) :
    (e.evalM (recording vars)).run asked = (e.eval vars, asked ++ e.indices) :=
  @run_evalM_of_record _ (recording vars) vars id (fun _ _ => rfl) e asked

/-- Beside the state of a source that answers without effects the record is the plain one. -/
theorem Expr.run_evalM_noting_pure (vars : UInt64 → Float) (e : Expr) (asked : List UInt64)
    (s : σ) :
    (e.evalM (noting fun index => pure (vars index))).run (asked, s) =
      (((e.evalM (recording vars)).run asked).1, ((e.evalM (recording vars)).run asked).2, s) := by
  rw [run_evalM_recording]
  exact @run_evalM_of_record _ (noting fun index => pure (vars index)) vars (·, s)
    (fun _ _ => rfl) e asked

theorem interpret?_of_compile {limit : Nat} {text : Text} {e : Expr} {value : Float}
    {values : List Float} (h : compile limit text = .ok e)
    (hstack : stackAfter? e.terms values = some [value]) : interpret? text values = some value := by
  have hterms : text.terms.mapM Term.ofText? = some e.terms := by
    calc text.terms.mapM Term.ofText?
        = (text.terms.map Term.ofText?).mapM id := by rw [List.mapM_map]; rfl
      _ = (e.terms.map some).mapM id := by rw [map_ofText?_terms h]
      _ = some e.terms := by
        rw [List.mapM_map]
        simpa using List.mapM_pure (m := Option) (l := e.terms) (f := id)
  simp [interpret?, hterms, hstack]

end

/-- Every evaluation reads the variables of the text from left to right, each occurrence once, and
gives the value of the text on a stack. A text that is rejected reads nothing. -/
theorem calculate_eq_interpret {σ : Type} (limit : Nat) (read : UInt64 → StateM σ Float)
    (text : Text) (s : σ) :
    (∀ e, compile limit text = .ok e → ∃ values value s',
      (text.indices.mapM read).run s = (values, s') ∧ interpret? text values = some value ∧
      (e.evalM read).run s = (value, s') ∧
      (calculate limit (noting read) text).run ([], s) = (.ok value, text.indices, s')) ∧
    ∀ r, compile limit text = .error r →
      (calculate limit (noting read) text).run ([], s) = (.error r, [], s) := by
  constructor
  · intro e he
    obtain ⟨values, value, s', hvalues, hstack, hvalue, hnoting⟩ := e.run_evalM_noting read [] s
    rw [indices_of_compile he]
    simp only [calculate, he]
    exact ⟨values, value, s', hvalues, interpret?_of_compile he hstack, hvalue,
      run_bind_of_run hnoting⟩
  · intro r hr
    simp only [calculate, hr]
    rfl

/-- A source that counts its answers, asked twice for the same variable. -/
theorem calculate_eq_interpret_counting :
    let counting (_ : UInt64) : StateM Float Float := modifyGet fun x => (x, x + 1)
    let text : Text := "- x7 x7".toList
    compile 1 text = .ok (.binary .sub (.var 7) (.var 7)) ∧
      (calculate 1 (noting counting) text).run ([], 1) = (.ok (1 - (1 + 1)), [7, 7], 1 + 1 + 1) := by
  intro counting text
  have hvar : Derives "x7".toList (.var 7) := .var (by decide) (by decide)
  have hc : compile 1 text = .ok (.binary .sub (.var 7) (.var 7)) :=
    (Derives.binary (Term.ofText?_symbol .sub) hvar hvar).compile (by decide)
  obtain ⟨values, value, s', hvalues, hvalue, -, hnoting⟩ :=
    (calculate_eq_interpret 1 counting text 1).1 _ hc
  have hindices : text.indices = [7, 7] := indices_of_compile hc
  rw [hindices] at hvalues hnoting
  cases hvalues
  rw [interpret?_of_compile hc rfl] at hvalue
  cases hvalue
  exact ⟨hc, hnoting⟩

end PolishArithmetic
