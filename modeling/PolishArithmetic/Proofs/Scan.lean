import PolishArithmetic.Proofs.Descent

/-!
Compilation in one pass. A machine walks the text from the first byte to the last, at positions of
the whole text, and keeps the operators whose operands are not complete on a stack. It gives the
result of the recursive descent, in which every call counts from the start of its own text.
-/
namespace PolishArithmetic

/-- A place between two characters of a text. -/
structure Cursor (source : Text) where
  before : Text
  rest : Text
  before_append_rest : before ++ rest = source

namespace Cursor

variable {source : Text}

def start (source : Text) : Cursor source := ⟨[], source, rfl⟩

def position (c : Cursor source) : Nat := c.before.byteLength

/-- The place after the first term of the rest and the one space that ends it. -/
def next (c : Cursor source) : Cursor source where
  before := c.before ++ c.rest.upToNext
  rest := c.rest.afterTerm
  before_append_rest := by
    rw [List.append_assoc, Text.upToNext_append_afterTerm, c.before_append_rest]

@[simp] theorem rest_next (c : Cursor source) : c.next.rest = c.rest.afterTerm := rfl

theorem position_add_byteLength (c : Cursor source) :
    c.position + c.rest.byteLength = source.byteLength := by
  rw [position, ← Text.byteLength_append, c.before_append_rest]

theorem position_eq_iff {c : Cursor source} : c.position = source.byteLength ↔ c.rest = [] := by
  rw [← Text.byteLength_eq_zero, ← c.position_add_byteLength]
  omega

theorem position_lt_iff {c : Cursor source} : c.position < source.byteLength ↔ c.rest ≠ [] := by
  rw [Ne, ← position_eq_iff, ← c.position_add_byteLength]
  omega

theorem eq_of_rest_eq {c c' : Cursor source} (h : c.rest = c'.rest) : c = c' := by
  obtain ⟨before, rest, hs⟩ := c
  obtain ⟨before', rest', hs'⟩ := c'
  cases h
  have := List.append_cancel_right (hs.trans hs'.symm)
  subst this
  rfl

/-- Every end of the rest starts at a place of its own. -/
theorem exists_rest_eq {c : Cursor source} {rest : Text} (h : rest <:+ c.rest) :
    ∃ c' : Cursor source, c'.rest = rest := by
  obtain ⟨passed, hp⟩ := h
  exact ⟨⟨c.before ++ passed, rest, by rw [List.append_assoc, hp, c.before_append_rest]⟩, rfl⟩

theorem length_rest_next_lt {c : Cursor source} (h : c.position ≠ source.byteLength) :
    c.next.rest.length < c.rest.length :=
  Text.length_afterTerm_lt fun he => h (position_eq_iff.mpr he)

end Cursor

/-- An operator whose operands are not complete, with its left one if that is. -/
structure Frame where
  op : Operator
  left? : Option Expr

namespace Scan

/-- Hands a complete operand to the innermost operator, which is complete too if that was its right
one. Without an operator left the operand is the whole expression. -/
def close : Expr → List Frame → Expr ⊕ List Frame
  | e, [] => .inl e
  | e, ⟨op, none⟩ :: stack => .inr (⟨op, some e⟩ :: stack)
  | e, ⟨op, some left⟩ :: stack => close (.binary op left e) stack

structure State (source : Text) where
  stack : List Frame
  cursor : Cursor source

variable {source : Text}

/-- What the machine does next with a complete operand that ends at the cursor. -/
def settle (e : Expr) (stack : List Frame) (c : Cursor source) :
    State source ⊕ Except Rejection Expr :=
  match close e stack with
  | .inr stack => .inl ⟨stack, c⟩
  | .inl e =>
    .inr (if c.position < source.byteLength then
        .error ⟨.unexpectedContinuation, c.position⟩
      else
        .ok e)

/-- Reads one term, and ends or is in the next state. -/
def step (limit : Nat) (s : State source) : State source ⊕ Except Rejection Expr :=
  if s.cursor.position = source.byteLength then
    .inr (.error ⟨.unexpectedEnd, source.byteLength⟩)
  else
    match Term.ofText? s.cursor.rest.firstTerm with
    | none => .inr (.error ⟨.invalidTerm, s.cursor.position⟩)
    | some (.op op) =>
      if limit ≤ s.stack.length then
        .inr (.error ⟨.tooDeep limit, s.cursor.position⟩)
      else
        .inl ⟨⟨op, none⟩ :: s.stack, s.cursor.next⟩
    | some (.var index) => settle (.var index) s.stack s.cursor.next
    | some (.const value) => settle (.const value) s.stack s.cursor.next

theorem cursor_of_settle {e : Expr} {stack : List Frame} {c : Cursor source} {s : State source}
    (h : settle e stack c = .inl s) : s.cursor = c := by
  unfold settle at h
  split at h
  · cases h
    rfl
  · cases h

/-- The machine goes on only past a term that it has read. -/
theorem cursor_of_step {limit : Nat} {s s' : State source} (h : step limit s = .inl s') :
    s.cursor.position ≠ source.byteLength ∧ s'.cursor = s.cursor.next := by
  unfold step at h
  split at h
  · cases h
  · next hp =>
    refine ⟨hp, ?_⟩
    split at h
    · cases h
    · split at h
      · cases h
      · cases h
        rfl
    · exact cursor_of_settle h
    · exact cursor_of_settle h

def run (limit : Nat) (s : State source) : Except Rejection Expr :=
  match _h : step limit s with
  | .inl s' => run limit s'
  | .inr result => result
termination_by s.cursor.rest.length
decreasing_by
  obtain ⟨hp, hc⟩ := cursor_of_step _h
  rw [hc]
  exact Cursor.length_rest_next_lt hp

/-- The result of a run that has come this far. -/
def finish (limit : Nat) : State source ⊕ Except Rejection Expr → Except Rejection Expr
  | .inl s => run limit s
  | .inr result => result

theorem run_eq_finish_step (limit : Nat) (s : State source) :
    run limit s = finish limit (step limit s) := by
  rw [run]
  split <;> next h => rw [h]; rfl

section

variable {limit depth : Nat} {text rest : Text} {log : List Sighting} {e : Expr} {r : Rejection}
variable {stack : List Frame} {c c' : Cursor source}

theorem step_of_leaf {term : Term} (hterm : Term.ofText? c.rest.firstTerm = some term)
    (hleaf : term.leaf? = some e) : step limit ⟨stack, c⟩ = settle e stack c.next := by
  have hp := mt Cursor.position_eq_iff.mp (Text.ne_nil_of_firstTerm hterm)
  rw [step, if_neg hp]
  cases term <;> cases hleaf <;> simp only [hterm]

theorem step_of_op {op : Operator} (hterm : Term.ofText? c.rest.firstTerm = some (.op op))
    (hdepth : stack.length < limit) :
    step limit ⟨stack, c⟩ = .inl ⟨⟨op, none⟩ :: stack, c.next⟩ := by
  have hp := mt Cursor.position_eq_iff.mp (Text.ne_nil_of_firstTerm hterm)
  rw [step, if_neg hp]
  simp only [hterm, if_neg (Nat.not_le.mpr hdepth)]

/-- The machine closes a stack of operators over the expression that the descent reads. -/
theorem run_of_yields (h : Yields limit depth text log e rest) (hdepth : stack.length = depth)
    (hc : c.rest = text) (hc' : c'.rest = rest) :
    run limit ⟨stack, c⟩ = finish limit (settle e stack c') := by
  induction h generalizing stack c c' with
  | leaf hterm hleaf =>
    subst hc
    rw [run_eq_finish_step, step_of_leaf hterm hleaf,
      Cursor.eq_of_rest_eq (c.rest_next.trans hc'.symm)]
  | @binary depth text mid rest op left right _ _ hterm hlt hl hr ihl ihr =>
    subst hc hdepth
    have hsuffix := hl.isSuffix.trans c.rest.afterTerm_isSuffix
    obtain ⟨cmid, hmid⟩ := Cursor.exists_rest_eq hsuffix
    calc run limit ⟨stack, c⟩
        = run limit ⟨⟨op, none⟩ :: stack, c.next⟩ := by
          rw [run_eq_finish_step, step_of_op hterm hlt, finish]
      _ = run limit ⟨⟨op, some left⟩ :: stack, cmid⟩ := ihl rfl c.rest_next hmid
      _ = finish limit (settle (.binary op left right) stack c') := ihr rfl hmid hc'

theorem run_of_stops (h : Stops limit depth text log r) (hdepth : stack.length = depth)
    (hc : c.rest = text) : run limit ⟨stack, c⟩ = .error (r.shift c.position) := by
  have hlen := c.position_add_byteLength
  induction h generalizing stack c with
  | ended =>
    have hp := Cursor.position_eq_iff.mpr hc
    rw [run_eq_finish_step, step, if_pos hp, finish]
    simp [Rejection.shift, hp]
  | invalid hne hterm =>
    subst hc
    rw [run_eq_finish_step, step, if_neg (mt Cursor.position_eq_iff.mp hne)]
    simp [hterm, finish, Rejection.shift]
  | deep hterm hlt =>
    subst hc hdepth
    have hp := mt Cursor.position_eq_iff.mp (Text.ne_nil_of_firstTerm hterm)
    rw [run_eq_finish_step, step, if_neg hp]
    simp [hterm, hlt, finish, Rejection.shift]
  | left hterm hlt hl ihl =>
    subst hc hdepth
    have hnext := c.next.position_add_byteLength
    have hle := Text.byteLength_le_of_isSuffix c.rest.afterTerm_isSuffix
    rw [Cursor.rest_next] at hnext
    rw [run_eq_finish_step, step_of_op hterm hlt, finish, ihl rfl c.rest_next hnext,
      Rejection.shift_shift]
    congr 2
    omega
  | @right depth text mid op left _ _ r hterm hlt hl hr ihr =>
    subst hc hdepth
    have hsuffix := hl.isSuffix.trans c.rest.afterTerm_isSuffix
    have hle := Text.byteLength_le_of_isSuffix hsuffix
    obtain ⟨cmid, rfl⟩ := Cursor.exists_rest_eq hsuffix
    have hmid := cmid.position_add_byteLength
    calc run limit ⟨stack, c⟩
        = run limit ⟨⟨op, none⟩ :: stack, c.next⟩ := by
          rw [run_eq_finish_step, step_of_op hterm hlt, finish]
      _ = run limit ⟨⟨op, some left⟩ :: stack, cmid⟩ := run_of_yields hl rfl c.rest_next rfl
      _ = .error (r.shift cmid.position) := ihr rfl rfl hmid
      _ = _ := by
        rw [Rejection.shift_shift]
        congr 2
        omega

end

end Scan

/-- Walks the text once, with no operator open at the start. -/
def scan (limit : Nat) (source : Text) : Except Rejection Expr :=
  Scan.run limit ⟨[], Cursor.start source⟩

/-- The descent and the machine agree on every text: on the tree, or on the fault and its byte. -/
theorem compile_eq_scan (limit : Nat) (text : Text) : compile limit text = scan limit text := by
  have hlen := (Cursor.start text).position_add_byteLength
  rcases yields_or_stops limit 0 text with ⟨log, e, rest, h⟩ | ⟨log, r, h⟩
  · obtain ⟨c, rfl⟩ := Cursor.exists_rest_eq (c := Cursor.start text) h.isSuffix
    have hc := c.position_add_byteLength
    have hrun : scan limit text = Scan.finish limit (Scan.settle e [] c) :=
      Scan.run_of_yields h rfl rfl rfl
    rw [hrun, Scan.settle, Scan.close, Scan.finish]
    by_cases hrest : c.rest = []
    · rw [if_neg (mt Cursor.position_lt_iff.mp (not_not_intro hrest))]
      exact compile_eq_ok_iff_yields.mpr ⟨log, hrest ▸ h⟩
    · rw [if_pos (Cursor.position_lt_iff.mpr hrest),
        compile_eq_error_iff.mpr (.inr ⟨log, e, c.rest, h, hrest, rfl⟩)]
      congr 2
      omega
  · have hrun : scan limit text = .error (r.shift 0) := Scan.run_of_stops h rfl rfl
    rw [hrun, compile_eq_error_iff.mpr (.inl ⟨log, h⟩), Rejection.shift_zero]

end PolishArithmetic
