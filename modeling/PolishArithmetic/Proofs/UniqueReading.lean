import PolishArithmetic.Proofs.Canonical

/-!
Canonical texts can be read in one way only. This holds of every tree, also of those whose texts do
not compile, so it is shown on the texts alone: the first term of a text tells what kind of node the
tree is, and the text of an operand tells where the next one starts.
-/
namespace PolishArithmetic

namespace Term

/-- A term is read back from its text, or it is one of the constants that are no numbers. -/
theorem ofText?_text_or (term : Term) : ofText? term.text = some term ∨
    ofText? term.text = none ∧ ∃ value, term = .const value ∧ ¬ value.isFinite := by
  cases term with
  | op op => exact .inl (ofText?_symbol op)
  | var index => exact .inl (ofText?_text_var index)
  | const value =>
    by_cases h : value.isFinite
    · exact .inl (ofText?_text_const h)
    · obtain ⟨-, -, hnone⟩ := rejected_of_mem_words (Style.write_mem_words h)
      exact .inr ⟨hnone, value, rfl, h⟩

theorem text_injective : Function.Injective text := by
  intro term term' h
  rcases ofText?_text_or term with ht | ⟨ht, x, rfl, hx⟩ <;>
    rcases ofText?_text_or term' with ht' | ⟨ht', y, rfl, hy⟩
  · simpa [h, ht'] using ht.symm
  · simp [h, ht'] at ht
  · simp [← h, ht] at ht'
  · rw [Style.eq_of_write_eq hx hy h]

end Term

namespace Expr

/-- The term that the text of a tree starts with. -/
def root : Expr → Term
  | .const value => .const value
  | .var index => .var index
  | .binary op _ _ => .op op

variable {e f : Expr} {u v : Text}

theorem firstTerm_text_append (e : Expr) (hu : u = [] ∨ u.head? = some ' ') :
    Text.firstTerm (e.text ++ u) = e.root.text := by
  cases e with
  | const value => exact Text.IsRun.firstTerm_eq ⟨Term.space_not_mem_text (.const value), hu⟩
  | var index => exact Text.IsRun.firstTerm_eq ⟨Term.space_not_mem_text (.var index), hu⟩
  | binary op left right => simp [text, Term.text, root]

theorem root_eq_of_text_append_eq (hu : u = [] ∨ u.head? = some ' ')
    (hv : v = [] ∨ v.head? = some ' ') (h : e.text ++ u = f.text ++ v) : e.root = f.root := by
  apply Term.text_injective
  rw [← firstTerm_text_append e hu, ← firstTerm_text_append f hv, h]

/-- The induction is on the first tree, for any second tree and any texts behind the two: behind a
left operand these are the texts of the right operands. -/
theorem eq_of_text_append_eq (hu : u = [] ∨ u.head? = some ' ')
    (hv : v = [] ∨ v.head? = some ' ') (h : e.text ++ u = f.text ++ v) : e = f ∧ u = v := by
  induction e generalizing f u v with
  | const value =>
    have hroot := root_eq_of_text_append_eq hu hv h
    cases f <;> cases hroot
    exact ⟨rfl, List.append_cancel_left h⟩
  | var index =>
    have hroot := root_eq_of_text_append_eq hu hv h
    cases f <;> cases hroot
    exact ⟨rfl, List.append_cancel_left h⟩
  | binary op left right ihl ihr =>
    have hroot := root_eq_of_text_append_eq hu hv h
    cases f with
    | const | var => cases hroot
    | binary op' left' right' =>
      cases hroot
      have hoperands : left.text ++ ' ' :: (right.text ++ u) =
          left'.text ++ ' ' :: (right'.text ++ v) := by simpa [text, Term.text] using h
      obtain ⟨rfl, hright⟩ := ihl (.inr rfl) (.inr rfl) hoperands
      obtain ⟨rfl, huv⟩ := ihr hu hv (List.tail_eq_of_cons_eq hright)
      exact ⟨rfl, huv⟩

end Expr

/-- Of a canonical text with more terms behind it both the tree and the rest are known. So no canonical
text is a start of another, and trees that are equal as far as their values go, since they differ in
the sign of a zero only, have different texts. Constants are equal if their bits are, or if both are
no numbers. -/
theorem canonical_text_unique :
    (∀ (e f : Expr) (u v : Text), (u = [] ∨ u.head? = some ' ') → (v = [] ∨ v.head? = some ' ') →
      (e.text ++ u = f.text ++ v ↔ e = f ∧ u = v)) ∧
    (∀ (e f : Expr) (u : Text), (u = [] ∨ u.head? = some ' ') → f.text = e.text ++ u → u = []) ∧
    (∀ e f : Expr, e.sameValues f = true → e ≠ f → e.text ≠ f.text) ∧
    ∀ b b' : UInt64, Expr.const (.ofBits b) = Expr.const (.ofBits b') ↔
      b = b' ∨ (Float.ofBits b).isNaN ∧ (Float.ofBits b').isNaN := by
  have hunique {e f : Expr} {u : Text} (hu : u = [] ∨ u.head? = some ' ')
      (h : e.text ++ u = f.text) : e = f ∧ u = [] :=
    Expr.eq_of_text_append_eq hu (.inl rfl) (by simpa using h)
  refine ⟨fun e f u v hu hv => ⟨Expr.eq_of_text_append_eq hu hv, ?_⟩, fun e f u hu h => ?_,
    fun e f _ hne h => ?_, fun b b' => ?_⟩
  · rintro ⟨rfl, rfl⟩
    rfl
  · exact (hunique hu h.symm).2
  · exact hne (hunique (.inl rfl) (by simpa using h)).1
  · rw [Expr.const.injEq]
    exact Rank.ofBits_eq_iff

/-- The sign of a zero shows in the text, also beside an infinity and in front of more terms. -/
theorem canonical_text_unique_zeros :
    let e : Expr := .binary .sub (.const (.ofBits 0)) (.const (.ofBits 0x7FF0000000000000))
    let f : Expr :=
      .binary .sub (.const (.ofBits 0x8000000000000000)) (.const (.ofBits 0x7FF0000000000000))
    e.sameValues f = true ∧ e ≠ f ∧ e.text ≠ f.text ∧ e.text ++ " x7".toList ≠ f.text := by
  intro e f
  obtain ⟨hunique, -, hzeros, -⟩ := canonical_text_unique
  have hsame : e.sameValues f = true := by decide
  have hne : e ≠ f := by decide
  refine ⟨hsame, hne, hzeros e f hsame hne, fun h => hne ?_⟩
  have hrest : " x7".toList = [] ∨ " x7".toList.head? = some ' ' := by decide
  have htext : e.text ++ " x7".toList = f.text ++ [] := by simpa using h
  exact ((hunique e f _ [] hrest (.inl rfl)).mp htext).1

end PolishArithmetic
