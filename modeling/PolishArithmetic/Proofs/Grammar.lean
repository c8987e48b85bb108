import PolishArithmetic.Proofs.Descent

/-!
The grammar of expressions. The texts that compile are the ones that the grammar derives, with or
without one space at the end, and the tree is the one that is derived.
-/
namespace PolishArithmetic

/-- An expression is a variable, a constant, or an operator and two expressions one space apart. -/
inductive Derives : Text → Expr → Prop
  | const {term : Text} {value : Float} (hspace : ' ' ∉ term)
      (hterm : Term.ofText? term = some (.const value)) : Derives term (.const value)
  | var {term : Text} {index : UInt64} (hspace : ' ' ∉ term)
      (hterm : Term.ofText? term = some (.var index)) : Derives term (.var index)
  | binary {term s t : Text} {op : Operator} {left right : Expr}
      (hterm : Term.ofText? term = some (.op op)) (hleft : Derives s left)
      (hright : Derives t right) :
      Derives (term ++ ' ' :: (s ++ ' ' :: t)) (.binary op left right)

namespace Term

theorem eq_symbol_of_ofText? {text : Text} {op : Operator} (h : ofText? text = some (.op op)) :
    text = [op.symbol] := by
  unfold ofText? at h
  cases ho : Operator.ofText? text with
  | some op' =>
    rw [ho] at h
    cases h
    exact Operator.eq_symbol_of_ofText? ho
  | none => simp [ho] at h

theorem ofText?_symbol (op : Operator) : ofText? [op.symbol] = some (.op op) := by
  simp [ofText?]

end Term

namespace Operator

theorem space_not_mem_symbol (op : Operator) : ' ' ∉ [op.symbol] := by
  cases op <;> decide

@[simp] theorem utf8Size_symbol (op : Operator) : op.symbol.utf8Size = 1 := by
  cases op <;> rfl

end Operator

namespace Text

@[simp] theorem utf8Size_space : ' '.utf8Size = 1 := rfl

@[simp] theorem firstTerm_symbol (op : Operator) (rest : Text) :
    firstTerm (op.symbol :: ' ' :: rest) = [op.symbol] :=
  firstTerm_append_space op.space_not_mem_symbol rest

@[simp] theorem afterTerm_symbol (op : Operator) (rest : Text) :
    afterTerm (op.symbol :: ' ' :: rest) = rest :=
  afterTerm_append_space op.space_not_mem_symbol rest

theorem byteLength_symbol (op : Operator) (rest : Text) :
    byteLength (op.symbol :: ' ' :: rest) = byteLength rest + 2 := by
  rw [byteLength_cons, byteLength_cons, Operator.utf8Size_symbol, utf8Size_space]
  omega

theorem byteLength_append_space (s rest : Text) :
    byteLength (s ++ ' ' :: rest) = byteLength rest + (byteLength s + 1) := by
  rw [byteLength_append, byteLength_cons, utf8Size_space]
  omega

theorem byteLength_symbol_append (op : Operator) (s rest : Text) :
    byteLength (op.symbol :: ' ' :: (s ++ ' ' :: rest)) = byteLength rest + (byteLength s + 3) := by
  rw [byteLength_symbol, byteLength_append_space]
  omega

end Text

theorem Derives.leaf {term : Term} {text : Text} {e : Expr} (hspace : ' ' ∉ text)
    (hterm : Term.ofText? text = some term) (hleaf : term.leaf? = some e) : Derives text e := by
  cases term with
  | op op => cases hleaf
  | var index => cases hleaf; exact .var hspace hterm
  | const value => cases hleaf; exact .const hspace hterm

section

variable {limit depth : Nat} {text rest s : Text} {log : List Sighting} {e : Expr}

theorem Yields.derives (h : Yields limit depth text log e rest) :
    e.nesting ≤ limit - depth ∧ ∃ s, Derives s e ∧ text.Splits s rest := by
  induction h with
  | @leaf depth text term e hterm hleaf =>
    refine ⟨?_, text.firstTerm, ?_, text.splits_firstTerm⟩
    · cases term <;> cases hleaf <;> exact Nat.zero_le _
    · exact .leaf text.space_not_mem_firstTerm hterm hleaf
  | @binary depth text mid rest op left right _ _ hterm hdepth hl hr ihl ihr =>
    obtain ⟨hnl, s, hs, hsplit⟩ := ihl
    obtain ⟨hnr, t, ht, hsplit'⟩ := ihr
    refine ⟨?_, _, .binary hterm hs ht, ?_⟩
    · simp only [Expr.nesting]
      omega
    · exact text.splits_firstTerm.append (hsplit.append hsplit' hr.text_ne_nil) hl.text_ne_nil

/-- A derived text is read as it is, whatever follows the space after it. -/
theorem Derives.yields (h : Derives s e) (hsplit : text.Splits s rest)
    (hn : e.nesting ≤ limit - depth) : ∃ log, Yields limit depth text log e rest := by
  induction h generalizing text rest depth with
  | const hspace hterm =>
    rw [← hsplit.firstTerm_eq hspace] at hterm
    rw [← hsplit.afterTerm_eq hspace]
    exact ⟨_, .leaf hterm rfl⟩
  | var hspace hterm =>
    rw [← hsplit.firstTerm_eq hspace] at hterm
    rw [← hsplit.afterTerm_eq hspace]
    exact ⟨_, .leaf hterm rfl⟩
  | @binary term s t op left right hterm hl hr ihl ihr =>
    have hspace : ' ' ∉ term := Term.eq_symbol_of_ofText? hterm ▸ op.space_not_mem_symbol
    obtain ⟨mid, rfl, hmid⟩ := hsplit.of_append
    obtain ⟨mid', rfl, hmid'⟩ := hmid.of_append
    simp only [Expr.nesting] at hn
    obtain ⟨log, hyl⟩ : ∃ log, Yields limit (depth + 1) (s ++ ' ' :: mid') log left mid' :=
      ihl (Text.splits_append s mid') (by omega)
    obtain ⟨log', hyr⟩ : ∃ log, Yields limit (depth + 1) mid' log right rest :=
      ihr hmid' (by omega)
    rw [← Text.firstTerm_append_space hspace (s ++ ' ' :: mid')] at hterm
    rw [← Text.afterTerm_append_space hspace (s ++ ' ' :: mid')] at hyl
    exact ⟨_, .binary hterm (by omega) hyl hyr⟩

/-- A rejection in the left operand is two bytes further from the operator. -/
theorem Stops.under_left {r : Rejection} (op : Operator) (hdepth : depth < limit)
    (h : Stops limit (depth + 1) rest log r) :
    ∃ log, Stops limit depth (op.symbol :: ' ' :: rest) log (r.shift 2) := by
  have hterm : Term.ofText? (Text.firstTerm (op.symbol :: ' ' :: rest)) = some (.op op) := by
    rw [Text.firstTerm_symbol, Term.ofText?_symbol]
  rw [← Text.afterTerm_symbol op rest] at h
  have hs := Stops.left hterm hdepth h
  rw [Text.afterTerm_symbol, Text.byteLength_symbol, Nat.add_sub_cancel_left] at hs
  exact ⟨_, hs⟩

theorem Stops.under_right {r : Rejection} {left : Expr} (op : Operator) (hdepth : depth < limit)
    (hs : Derives s left) (hn : left.nesting ≤ limit - (depth + 1))
    (h : Stops limit (depth + 1) rest log r) :
    ∃ log, Stops limit depth (op.symbol :: ' ' :: (s ++ ' ' :: rest)) log
      (r.shift (s.byteLength + 3)) := by
  have hterm : Term.ofText? (Text.firstTerm (op.symbol :: ' ' :: (s ++ ' ' :: rest))) =
      some (.op op) := by
    rw [Text.firstTerm_symbol, Term.ofText?_symbol]
  obtain ⟨log', hl⟩ := hs.yields (Text.splits_append s rest) hn
  rw [← Text.afterTerm_symbol op (s ++ ' ' :: rest)] at hl
  have hr := Stops.right hterm hdepth hl h
  rw [Text.byteLength_symbol_append, Nat.add_sub_cancel_left] at hr
  exact ⟨_, hr⟩

theorem yields_iff_derives : (∃ log, Yields limit depth text log e rest) ↔
    e.nesting ≤ limit - depth ∧ ∃ s, Derives s e ∧ text.Splits s rest := by
  constructor
  · rintro ⟨log, h⟩
    exact h.derives
  · rintro ⟨hn, s, hs, hsplit⟩
    exact hs.yields hsplit hn

theorem compile_eq_ok_iff :
    compile limit text = .ok e ↔ e.nesting ≤ limit ∧ ∃ s, Derives s e ∧ text.Splits s [] := by
  rw [compile_eq_ok_iff_yields, yields_iff_derives, Nat.sub_zero]

/-- What follows a derived text and a space is one thing too many, whatever it is. -/
theorem Derives.compile_append (h : Derives s e) (hn : e.nesting ≤ limit) (hrest : rest ≠ []) :
    compile limit (s ++ ' ' :: rest) = .error ⟨.unexpectedContinuation, s.byteLength + 1⟩ := by
  obtain ⟨log, hy⟩ : ∃ log, Yields limit 0 (s ++ ' ' :: rest) log e rest :=
    h.yields (Text.splits_append s rest) hn
  rw [compile_eq_error_iff.mpr (.inr ⟨log, e, rest, hy, hrest, rfl⟩), Text.byteLength_append_space,
    Nat.add_sub_cancel_left]

theorem Derives.compile (h : Derives text e) (hn : e.nesting ≤ limit) :
    compile limit text = .ok e :=
  compile_eq_ok_iff.mpr ⟨hn, text, h, text.splits_self⟩

/-- A text without a space at its end is derived as it is. -/
theorem derives_of_compile (h : compile limit text = .ok e) (hlast : text.getLast? ≠ some ' ') :
    Derives text e := by
  obtain ⟨-, s, hs, rfl | ⟨rfl, -⟩⟩ := compile_eq_ok_iff.mp h
  · exact absurd List.getLast?_concat hlast
  · exact hs

theorem Derives.unique {e' : Expr} (h : Derives text e) (h' : Derives text e') : e = e' := by
  have hc := h.compile (Nat.le_max_left e.nesting e'.nesting)
  rw [h'.compile (Nat.le_max_right e.nesting e'.nesting)] at hc
  exact (Except.ok.inj hc).symm

end

/-- The texts that compile are the derived ones, nested no deeper than the limit, and these with one
space more. No text derives two trees. -/
theorem compile_ok_iff_derives (limit : Nat) (text : Text) :
    (∀ e, compile limit text = .ok e ↔
      e.nesting ≤ limit ∧ (Derives text e ∨ ∃ s, text = s ++ [' '] ∧ Derives s e)) ∧
    ∀ e e', Derives text e → Derives text e' → e = e' := by
  constructor
  · intro e
    rw [compile_eq_ok_iff]
    apply and_congr_right
    intro _
    constructor
    · rintro ⟨s, hs, rfl | ⟨rfl, -⟩⟩
      · exact .inr ⟨s, rfl, hs⟩
      · exact .inl hs
    · rintro (h | ⟨s, rfl, hs⟩)
      · exact ⟨text, h, text.splits_self⟩
      · exact ⟨s, hs, Text.splits_append s []⟩
  · intro e e' h h'
    exact h.unique h'

end PolishArithmetic
