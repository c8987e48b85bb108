import PolishArithmetic.Expr.Eval
import PolishArithmetic.Proofs.Grammar

/-!
An expression in place of a variable. In a text the terms that are the variable are replaced, in a
tree the leaves. The text that results compiles to the tree that results, and that tree has the
value that the first one has if the value of the expression is read for the variable.
-/
namespace PolishArithmetic

namespace Expr

/-- The tree with `part` for every leaf that is the variable. -/
def substitute (e : Expr) (index : UInt64) (part : Expr) : Expr :=
  match e with
  | .const value => .const value
  | .var i => if i = index then part else .var i
  | .binary op left right => .binary op (left.substitute index part) (right.substitute index part)

theorem nesting_substitute_le (e : Expr) (index : UInt64) (part : Expr) :
    (e.substitute index part).nesting ≤ e.nesting + part.nesting := by
  induction e with
  | const => exact Nat.zero_le _
  | var i =>
    rw [substitute]
    split
    · exact Nat.le_add_left _ _
    · exact Nat.zero_le _
  | binary op left right ihl ihr =>
    simp only [substitute, nesting]
    omega

theorem eval_substitute (vars : UInt64 → Float) (e : Expr) (index : UInt64) (part : Expr) :
    (e.substitute index part).eval vars =
      e.eval fun i => if i = index then part.eval vars else vars i := by
  induction e with
  | const => rfl
  | var i =>
    rw [substitute]
    split <;> next h => simp [eval, evalM, h]
  | binary op left right ihl ihr =>
    rw [eval] at ihl ihr ⊢
    simp [substitute, eval, evalM, ihl, ihr]

end Expr

namespace Text

/-- The text with `part` for every term that is the variable, however many digits it has. -/
def substitute (text : Text) (index : UInt64) (part : Text) : Text :=
  [' '].intercalate ((text.splitOn ' ').map fun term =>
    if Term.ofText? term = some (.var index) then part else term)

variable {s t part : Text} {index : UInt64}

theorem splitOn_append_space (s t : Text) :
    (s ++ ' ' :: t).splitOn ' ' = s.splitOn ' ' ++ t.splitOn ' ' :=
  List.splitOnP_append_cons s t rfl

theorem intercalate_append {parts parts' : List Text} (h : parts ≠ []) (h' : parts' ≠ []) :
    [' '].intercalate (parts ++ parts') =
      [' '].intercalate parts ++ ' ' :: [' '].intercalate parts' := by
  induction parts with
  | nil => exact absurd rfl h
  | cons p ps ih =>
    by_cases hps : ps = []
    · subst hps
      rw [List.singleton_append, List.intercalate_cons_of_ne_nil h', List.intercalate_singleton]
      simp
    · have hboth := List.append_ne_nil_of_left_ne_nil hps parts'
      rw [List.cons_append, List.intercalate_cons_of_ne_nil hboth, ih hps,
        List.intercalate_cons_of_ne_nil hps]
      simp

theorem substitute_append_space (s t : Text) (index : UInt64) (part : Text) :
    (s ++ ' ' :: t).substitute index part =
      s.substitute index part ++ ' ' :: t.substitute index part := by
  rw [substitute, splitOn_append_space, List.map_append, intercalate_append]
  · rfl
  all_goals exact mt List.map_eq_nil_iff.mp (List.splitOn_ne_nil _ _)

theorem substitute_term (h : ' ' ∉ s) : s.substitute index part =
    if Term.ofText? s = some (.var index) then part else s := by
  rw [substitute, List.splitOn_eq_singleton h, List.map_singleton, List.intercalate_singleton]

theorem substitute_nil (index : UInt64) (part : Text) : substitute [] index part = [] := by
  rw [substitute_term List.not_mem_nil, Term.ofText?_nil, if_neg (Option.some_ne_none _).symm]

end Text

/-- The parts of a text are derived as before, except for those that are replaced. -/
theorem Derives.substitute {s part : Text} {e f : Expr} (index : UInt64) (h : Derives s e)
    (hpart : Derives part f) : Derives (s.substitute index part) (e.substitute index f) := by
  induction h with
  | const hspace hterm =>
    rw [Text.substitute_term hspace, if_neg (by rw [hterm]; nofun)]
    exact .const hspace hterm
  | @var term i hspace hterm =>
    rw [Text.substitute_term hspace, hterm, Expr.substitute]
    by_cases hi : i = index
    · rw [if_pos hi, if_pos (by rw [hi])]
      exact hpart
    · rw [if_neg hi, if_neg (by simpa using hi)]
      exact .var hspace hterm
  | @binary term s t op left right hterm _ _ ihl ihr =>
    have hspace : ' ' ∉ term := Term.eq_symbol_of_ofText? hterm ▸ op.space_not_mem_symbol
    rw [Text.substitute_append_space, Text.substitute_append_space, Text.substitute_term hspace,
      if_neg (by rw [hterm]; nofun)]
    exact .binary hterm ihl ihr

/-- An expression may be put in place of a variable before or after compilation, and its value in
place of the variable's. -/
theorem compile_substitute {limit limit' : Nat} {text part : Text} {e f : Expr} (index : UInt64)
    (he : compile limit text = .ok e) (hf : compile limit' part = .ok f)
    (hlast : part.getLast? ≠ some ' ') :
    (∀ wide, e.nesting + f.nesting ≤ wide →
      compile wide (text.substitute index part) = .ok (e.substitute index f)) ∧
    ∀ vars, (e.substitute index f).eval vars =
      e.eval fun i => if i = index then f.eval vars else vars i := by
  constructor
  · intro wide hwide
    have hpart := derives_of_compile hf hlast
    obtain ⟨-, s, hs, hsplit⟩ := compile_eq_ok_iff.mp he
    refine compile_eq_ok_iff.mpr ⟨?_, _, hs.substitute index hpart, ?_⟩
    · exact Nat.le_trans (e.nesting_substitute_le index f) hwide
    · rcases hsplit with rfl | ⟨rfl, -⟩
      · rw [Text.substitute_append_space, Text.substitute_nil]
        exact Text.splits_append _ []
      · exact Text.splits_self _
  · intro vars
    exact e.eval_substitute vars index f

/-- The variable is written with zeros in front, and the text ends with a space. -/
theorem compile_substitute_leading_zeros :
    let text : Text := "- x007 x2 ".toList
    let part : Text := "* x7 x1".toList
    compile 1 text = .ok (.binary .sub (.var 7) (.var 2)) ∧
      compile 1 part = .ok (.binary .mul (.var 7) (.var 1)) ∧
      text.substitute 7 part = "- * x7 x1 x2 ".toList ∧
      compile 2 (text.substitute 7 part) =
        .ok (.binary .sub (.binary .mul (.var 7) (.var 1)) (.var 2)) := by
  intro text part
  have hx : Derives "x7".toList (.var 7) := .var (by decide) (by decide)
  have hx' : Derives "x007".toList (.var 7) := .var (by decide) (by decide)
  have hy : Derives "x1".toList (.var 1) := .var (by decide) (by decide)
  have hz : Derives "x2".toList (.var 2) := .var (by decide) (by decide)
  have he : compile 1 text = .ok (.binary .sub (.var 7) (.var 2)) :=
    compile_eq_ok_iff.mpr ⟨by decide, _, .binary (Term.ofText?_symbol .sub) hx' hz, Or.inl rfl⟩
  have hf : compile 1 part = .ok (.binary .mul (.var 7) (.var 1)) :=
    (Derives.binary (Term.ofText?_symbol .mul) hx hy).compile (by decide)
  have h := (compile_substitute 7 he hf (by decide)).1 2 (by decide)
  exact ⟨he, hf, by decide, h⟩

end PolishArithmetic
