import PolishArithmetic.Proofs.Terms

/-!
Where the terms of a text are. Cutting terms off the front leaves the text from a later term on, and
what was cut off is the text in front of that term. A reading has cut off as many as it has logged.
-/
namespace PolishArithmetic

namespace Text

/-- The text from its term `i` on. -/
def fromTerm (text : Text) : Nat → Text
  | 0 => text
  | i + 1 => fromTerm text.afterTerm i

/-- The text in front of its term `i`. -/
def upToTerm (text : Text) : Nat → Text
  | 0 => []
  | i + 1 => text.upToNext ++ upToTerm text.afterTerm i

/-- The byte at which term `i` starts. -/
def offset (text : Text) (i : Nat) : Nat :=
  (text.upToTerm i).byteLength

@[simp] theorem fromTerm_zero (text : Text) : text.fromTerm 0 = text := rfl

@[simp] theorem fromTerm_succ (text : Text) (i : Nat) :
    text.fromTerm (i + 1) = text.afterTerm.fromTerm i := rfl

@[simp] theorem upToTerm_zero (text : Text) : text.upToTerm 0 = [] := rfl

@[simp] theorem upToTerm_succ (text : Text) (i : Nat) :
    text.upToTerm (i + 1) = text.upToNext ++ text.afterTerm.upToTerm i := rfl

theorem upToTerm_append_fromTerm (text : Text) (i : Nat) :
    text.upToTerm i ++ text.fromTerm i = text := by
  induction i generalizing text with
  | zero => rfl
  | succ i ih =>
    rw [upToTerm_succ, fromTerm_succ, List.append_assoc, ih, upToNext_append_afterTerm]

theorem fromTerm_add (text : Text) (i j : Nat) :
    text.fromTerm (i + j) = (text.fromTerm i).fromTerm j := by
  induction i generalizing text with
  | zero => rw [Nat.zero_add, fromTerm_zero]
  | succ i ih => rw [Nat.add_right_comm, fromTerm_succ, fromTerm_succ, ih]

theorem upToTerm_add (text : Text) (i j : Nat) :
    text.upToTerm (i + j) = text.upToTerm i ++ (text.fromTerm i).upToTerm j := by
  induction i generalizing text with
  | zero => rw [Nat.zero_add, upToTerm_zero, fromTerm_zero, List.nil_append]
  | succ i ih => rw [Nat.add_right_comm, upToTerm_succ, upToTerm_succ, fromTerm_succ, ih,
      List.append_assoc]

theorem offset_add_byteLength (text : Text) (i : Nat) :
    text.offset i + (text.fromTerm i).byteLength = text.byteLength := by
  rw [offset, ← byteLength_append, upToTerm_append_fromTerm]

theorem terms_eq_nil_iff {text : Text} : text.terms = [] ↔ text = [] := by
  by_cases h : text = []
  · simp [h]
  · simp [terms_of_ne_nil h, h]

theorem terms_fromTerm (text : Text) (i : Nat) :
    (text.fromTerm i).terms = text.terms.drop i := by
  induction i generalizing text with
  | zero => rfl
  | succ i ih =>
    rw [fromTerm_succ, ih]
    by_cases h : text = []
    · subst h
      rw [afterTerm_eq_nil List.not_mem_nil, terms_nil, List.drop_nil, List.drop_nil]
    · rw [terms_of_ne_nil h, List.drop_succ_cons]

theorem fromTerm_eq_nil_iff {text : Text} {i : Nat} :
    text.fromTerm i = [] ↔ text.terms.length ≤ i := by
  rw [← terms_eq_nil_iff, terms_fromTerm, List.drop_eq_nil_iff]

theorem fromTerm_ne_nil {text : Text} {i : Nat} (h : i < text.terms.length) :
    text.fromTerm i ≠ [] :=
  mt fromTerm_eq_nil_iff.mp (Nat.not_le.mpr h)

theorem getElem?_terms {text : Text} {i : Nat} (h : i < text.terms.length) :
    text.terms[i]? = some (text.fromTerm i).firstTerm := by
  rw [← List.head?_drop, ← terms_fromTerm, terms_of_ne_nil (fromTerm_ne_nil h), List.head?_cons]

end Text

section

variable {limit depth : Nat} {text rest : Text} {log : List Sighting} {e : Expr} {r : Rejection}

theorem Yields.fromTerm_eq (h : Yields limit depth text log e rest) :
    text.fromTerm log.length = rest := by
  induction h with
  | leaf => rfl
  | binary _ _ _ _ ihl ihr =>
    rw [List.length_cons, List.length_append, Text.fromTerm_succ, Text.fromTerm_add, ihl, ihr]

/-- A term of what follows an expression is later in the whole text by the terms of the expression. -/
theorem Yields.offset_add (h : Yields limit depth text log e rest) (i : Nat) :
    text.offset (log.length + i) = text.byteLength - rest.byteLength + rest.offset i := by
  have hlen := text.offset_add_byteLength log.length
  rw [h.fromTerm_eq] at hlen
  rw [Text.offset, Text.upToTerm_add, h.fromTerm_eq, Text.byteLength_append, ← Text.offset,
    ← Text.offset]
  omega

end

end PolishArithmetic
