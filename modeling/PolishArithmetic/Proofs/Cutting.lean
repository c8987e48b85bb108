import PolishArithmetic.Term

/-!
How a text splits into a first part and what follows it. The space between the two belongs to
neither, and is left out where nothing follows.
-/
namespace PolishArithmetic.Text

@[simp] theorem byteLength_eq_zero {text : Text} : byteLength text = 0 ↔ text = [] := by
  cases text with
  | nil => simp
  | cons c cs =>
    have := c.utf8Size_pos
    simp only [byteLength_cons, reduceCtorEq, iff_false]
    omega

/-- The first term and the one space that ends it. -/
def upToNext (text : Text) : Text :=
  firstTerm text ++ (text.dropWhile (· ≠ ' ')).take 1

theorem upToNext_append_afterTerm (text : Text) : upToNext text ++ afterTerm text = text := by
  have htail (t : Text) : t.take 1 ++ t.tail = t := by cases t <;> rfl
  rw [upToNext, afterTerm, List.append_assoc, htail]
  exact List.takeWhile_append_dropWhile

theorem afterTerm_isSuffix (text : Text) : afterTerm text <:+ text :=
  ⟨upToNext text, upToNext_append_afterTerm text⟩

theorem byteLength_le_of_isSuffix {text rest : Text} (h : rest <:+ text) :
    byteLength rest ≤ byteLength text := by
  obtain ⟨before, rfl⟩ := h
  simp

/-- The text is `part`, a space and `rest`, or `part` alone. -/
def Splits (text part rest : Text) : Prop :=
  text = part ++ ' ' :: rest ∨ text = part ∧ rest = []

theorem splits_append (part rest : Text) : Splits (part ++ ' ' :: rest) part rest :=
  .inl rfl

theorem splits_self (part : Text) : Splits part part [] :=
  .inr ⟨rfl, rfl⟩

theorem splits_firstTerm (text : Text) : Splits text (firstTerm text) (afterTerm text) := by
  by_cases h : ' ' ∈ text
  · exact .inl (firstTerm_append_afterTerm h).symm
  · exact .inr ⟨(firstTerm_eq_self h).symm, afterTerm_eq_nil h⟩

theorem forall_mem_ne_space {part : Text} (h : ' ' ∉ part) :
    ∀ c ∈ part, decide (c ≠ ' ') = true := by
  intro c hc
  exact decide_eq_true fun he => h (he ▸ hc)

@[simp] theorem firstTerm_append_space {part : Text} (h : ' ' ∉ part) (rest : Text) :
    firstTerm (part ++ ' ' :: rest) = part := by
  rw [firstTerm, List.takeWhile_append_of_pos (forall_mem_ne_space h)]
  simp

@[simp] theorem afterTerm_append_space {part : Text} (h : ' ' ∉ part) (rest : Text) :
    afterTerm (part ++ ' ' :: rest) = rest := by
  rw [afterTerm, List.dropWhile_append_of_pos (forall_mem_ne_space h)]
  simp

/-- There is no space in `run`, which goes on up to the next space or to the end of the text. -/
def IsRun (run after : Text) : Prop :=
  ' ' ∉ run ∧ (after = [] ∨ after.head? = some ' ')

theorem IsRun.firstTerm_eq {run after : Text} (h : IsRun run after) :
    firstTerm (run ++ after) = run := by
  obtain ⟨hspace, rfl | hafter⟩ := h
  · rw [List.append_nil, firstTerm_eq_self hspace]
  · obtain ⟨after, rfl⟩ := List.head?_eq_some_iff.mp hafter
    exact firstTerm_append_space hspace after

theorem exists_isRun_firstTerm (text : Text) :
    ∃ after, text = firstTerm text ++ after ∧ IsRun (firstTerm text) after := by
  rcases splits_firstTerm text with h | ⟨h, -⟩
  · exact ⟨' ' :: afterTerm text, h, space_not_mem_firstTerm text, .inr rfl⟩
  · exact ⟨[], by rwa [List.append_nil], space_not_mem_firstTerm text, .inl rfl⟩

namespace Splits

variable {text part rest part' rest' : Text}

theorem firstTerm_eq (h : Splits text part rest) (hp : ' ' ∉ part) : firstTerm text = part := by
  rcases h with rfl | ⟨rfl, -⟩
  · exact firstTerm_append_space hp rest
  · exact firstTerm_eq_self hp

theorem afterTerm_eq (h : Splits text part rest) (hp : ' ' ∉ part) : afterTerm text = rest := by
  rcases h with rfl | ⟨rfl, rfl⟩
  · exact afterTerm_append_space hp rest
  · exact afterTerm_eq_nil hp

theorem eq_append (h : Splits text part rest) (hr : rest ≠ []) : text = part ++ ' ' :: rest := by
  rcases h with h | ⟨-, h⟩
  · exact h
  · exact absurd h hr

/-- A part of which a first part is cut off in turn. -/
theorem append (h : Splits text part rest) (h' : Splits rest part' rest') (hr : rest ≠ []) :
    Splits text (part ++ ' ' :: part') rest' := by
  rw [h.eq_append hr]
  rcases h' with rfl | ⟨rfl, rfl⟩
  · exact .inl (by simp)
  · exact splits_self _

/-- Of a part that is cut in two, the second half is followed by the same rest. -/
theorem of_append (h : Splits text (part ++ ' ' :: part') rest) :
    ∃ mid, text = part ++ ' ' :: mid ∧ Splits mid part' rest := by
  rcases h with rfl | ⟨rfl, rfl⟩
  · exact ⟨part' ++ ' ' :: rest, by simp, splits_append _ _⟩
  · exact ⟨part', rfl, splits_self _⟩

end Splits

end PolishArithmetic.Text
