import PolishArithmetic.Compile
import PolishArithmetic.Proofs.Cutting

/-!
What a call of `descend` does, as rules. A call yields an expression and the text after it, or it
stops at a rejection; either way it logs the terms that it has met. The rules name every way in
which a call can end, and `descend` obeys them and no others.
-/
namespace PolishArithmetic

namespace Rejection

@[simp] theorem shift_zero (r : Rejection) : r.shift 0 = r := rfl

theorem shift_shift (r : Rejection) (m n : Nat) : (r.shift m).shift n = r.shift (m + n) := by
  simp [shift, Nat.add_assoc]

end Rejection

/-- The expression that a term is by itself. -/
def Term.leaf? : Term → Option Expr
  | .op _ => none
  | .var index => some (.var index)
  | .const value => some (.const value)

theorem Term.ofText?_nil : Term.ofText? [] = none := by
  decide

theorem Text.ne_nil_of_firstTerm {text : Text} {term : Term}
    (h : Term.ofText? text.firstTerm = some term) : text ≠ [] := by
  rintro rfl
  exact Option.some_ne_none term (h.symm.trans Term.ofText?_nil)

/-- Before `text` there are `depth` open operators. -/
inductive Yields (limit : Nat) : Nat → Text → List Sighting → Expr → Text → Prop
  | leaf {depth : Nat} {text : Text} {term : Term} {e : Expr}
      (hterm : Term.ofText? text.firstTerm = some term) (hleaf : term.leaf? = some e) :
      Yields limit depth text [⟨text.firstTerm, depth⟩] e text.afterTerm
  | binary {depth : Nat} {text mid rest : Text} {op : Operator} {left right : Expr}
      {log log' : List Sighting}
      (hterm : Term.ofText? text.firstTerm = some (.op op)) (hdepth : depth < limit)
      (hleft : Yields limit (depth + 1) text.afterTerm log left mid)
      (hright : Yields limit (depth + 1) mid log' right rest) :
      Yields limit depth text (⟨text.firstTerm, depth⟩ :: (log ++ log')) (.binary op left right)
        rest

/-- A rejection inside an operand is seen from the start of the text that the operand is part of. -/
inductive Stops (limit : Nat) : Nat → Text → List Sighting → Rejection → Prop
  | ended {depth : Nat} : Stops limit depth [] [] ⟨.unexpectedEnd, 0⟩
  | invalid {depth : Nat} {text : Text} (hne : text ≠ [])
      (hterm : Term.ofText? text.firstTerm = none) :
      Stops limit depth text [] ⟨.invalidTerm, 0⟩
  | deep {depth : Nat} {text : Text} {op : Operator}
      (hterm : Term.ofText? text.firstTerm = some (.op op)) (hdepth : limit ≤ depth) :
      Stops limit depth text [⟨text.firstTerm, depth⟩] ⟨.tooDeep limit, 0⟩
  | left {depth : Nat} {text : Text} {op : Operator} {log : List Sighting} {r : Rejection}
      (hterm : Term.ofText? text.firstTerm = some (.op op)) (hdepth : depth < limit)
      (hleft : Stops limit (depth + 1) text.afterTerm log r) :
      Stops limit depth text (⟨text.firstTerm, depth⟩ :: log)
        (r.shift (text.byteLength - text.afterTerm.byteLength))
  | right {depth : Nat} {text mid : Text} {op : Operator} {left : Expr}
      {log log' : List Sighting} {r : Rejection}
      (hterm : Term.ofText? text.firstTerm = some (.op op)) (hdepth : depth < limit)
      (hleft : Yields limit (depth + 1) text.afterTerm log left mid)
      (hright : Stops limit (depth + 1) mid log' r) :
      Stops limit depth text (⟨text.firstTerm, depth⟩ :: (log ++ log'))
        (r.shift (text.byteLength - mid.byteLength))

section

variable {limit depth : Nat} {text rest : Text} {log : List Sighting} {e : Expr} {r : Rejection}

theorem Yields.text_ne_nil (h : Yields limit depth text log e rest) : text ≠ [] := by
  cases h with
  | leaf hterm _ => exact Text.ne_nil_of_firstTerm hterm
  | binary hterm _ _ _ => exact Text.ne_nil_of_firstTerm hterm

theorem Yields.length_rest_lt (h : Yields limit depth text log e rest) :
    rest.length < text.length := by
  induction h with
  | leaf hterm _ => exact Text.length_afterTerm_lt (Text.ne_nil_of_firstTerm hterm)
  | binary hterm _ _ _ ihl ihr =>
    have := Text.length_afterTerm_lt (Text.ne_nil_of_firstTerm hterm)
    omega

theorem Yields.isSuffix (h : Yields limit depth text log e rest) : rest <:+ text := by
  induction h with
  | leaf _ _ => exact Text.afterTerm_isSuffix _
  | binary _ _ _ _ ihl ihr => exact (ihr.trans ihl).trans (Text.afterTerm_isSuffix _)

theorem descend_of_yields (h : Yields limit depth text log e rest) :
    descend limit depth text = ⟨log, .ok ⟨e, rest, h.length_rest_lt⟩⟩ := by
  induction h with
  | @leaf depth text term e hterm hleaf =>
    rw [descend, dif_neg (Text.ne_nil_of_firstTerm hterm)]
    cases term <;> cases hleaf <;> simp only [hterm] <;> rfl
  | binary hterm hdepth _ _ ihl ihr =>
    rw [descend, dif_neg (Text.ne_nil_of_firstTerm hterm)]
    simp [hterm, Nat.not_le.mpr hdepth, ihl, ihr]

theorem descend_of_stops (h : Stops limit depth text log r) :
    descend limit depth text = ⟨log, .error r⟩ := by
  induction h with
  | ended =>
    rw [descend, dif_pos rfl]
    rfl
  | invalid hne hterm =>
    rw [descend, dif_neg hne]
    simp only [hterm]
    rfl
  | deep hterm hdepth =>
    rw [descend, dif_neg (Text.ne_nil_of_firstTerm hterm)]
    simp [hterm, hdepth, Reading.reject]
  | left hterm hdepth _ ihl =>
    rw [descend, dif_neg (Text.ne_nil_of_firstTerm hterm)]
    simp [hterm, Nat.not_le.mpr hdepth, ihl]
  | right hterm hdepth hleft _ ihr =>
    rw [descend, dif_neg (Text.ne_nil_of_firstTerm hterm)]
    simp [hterm, Nat.not_le.mpr hdepth, descend_of_yields hleft, ihr]

theorem yields_or_stops (limit depth : Nat) (text : Text) :
    (∃ log e rest, Yields limit depth text log e rest) ∨ ∃ log r, Stops limit depth text log r := by
  induction depth, text using descend.induct limit with
  | case1 depth => exact .inr ⟨_, _, .ended⟩
  | case2 depth text hne _ hterm => exact .inr ⟨_, _, .invalid hne hterm⟩
  | case3 depth text hne _ term hterm ihl ihr =>
    cases term with
    | const value => exact .inl ⟨_, _, _, .leaf hterm rfl⟩
    | var index => exact .inl ⟨_, _, _, .leaf hterm rfl⟩
    | op op =>
      by_cases hdepth : limit ≤ depth
      · exact .inr ⟨_, _, .deep hterm hdepth⟩
      · rw [Nat.not_le] at hdepth
        rcases ihl with ⟨_, left, mid, hl⟩ | ⟨_, _, hl⟩
        · rcases ihr ⟨left, mid, hl.length_rest_lt⟩ with ⟨_, _, _, hr⟩ | ⟨_, _, hr⟩
          · exact .inl ⟨_, _, _, .binary hterm hdepth hl hr⟩
          · exact .inr ⟨_, _, .right hterm hdepth hl hr⟩
        · exact .inr ⟨_, _, .left hterm hdepth hl⟩

theorem readWhole_of_yields (h : Yields limit 0 text log e []) :
    readWhole limit text = ⟨log, .ok e⟩ := by
  simp [readWhole, descend_of_yields h]

theorem readWhole_of_rest (h : Yields limit 0 text log e rest) (hrest : rest ≠ []) :
    readWhole limit text =
      ⟨log, .error ⟨.unexpectedContinuation, text.byteLength - rest.byteLength⟩⟩ := by
  simp [readWhole, descend_of_yields h, hrest, Reading.reject, Rejection.shift]

theorem readWhole_of_stops (h : Stops limit 0 text log r) :
    readWhole limit text = ⟨log, .error r⟩ := by
  simp [readWhole, descend_of_stops h]

theorem compile_eq_ok_iff_yields :
    compile limit text = .ok e ↔ ∃ log, Yields limit 0 text log e [] := by
  constructor
  · intro h
    rw [compile] at h
    rcases yields_or_stops limit 0 text with ⟨log, e', rest, hy⟩ | ⟨log, r, hs⟩
    · by_cases hrest : rest = []
      · subst hrest
        rw [readWhole_of_yields hy] at h
        cases h
        exact ⟨log, hy⟩
      · rw [readWhole_of_rest hy hrest] at h
        cases h
    · rw [readWhole_of_stops hs] at h
      cases h
  · rintro ⟨log, h⟩
    rw [compile, readWhole_of_yields h]

/-- A text is rejected where its reading stops, or where more follows a whole expression. -/
theorem compile_eq_error_iff :
    compile limit text = .error r ↔ (∃ log, Stops limit 0 text log r) ∨
      ∃ log e rest, Yields limit 0 text log e rest ∧ rest ≠ [] ∧
        r = ⟨.unexpectedContinuation, text.byteLength - rest.byteLength⟩ := by
  constructor
  · intro h
    rw [compile] at h
    rcases yields_or_stops limit 0 text with ⟨log, e, rest, hy⟩ | ⟨log, r', hs⟩
    · by_cases hrest : rest = []
      · subst hrest
        rw [readWhole_of_yields hy] at h
        cases h
      · rw [readWhole_of_rest hy hrest] at h
        cases h
        exact .inr ⟨log, e, rest, hy, hrest, rfl⟩
    · rw [readWhole_of_stops hs] at h
      cases h
      exact .inl ⟨log, hs⟩
  · rintro (⟨log, hs⟩ | ⟨log, e, rest, hy, hrest, rfl⟩)
    · rw [compile, readWhole_of_stops hs]
    · rw [compile, readWhole_of_rest hy hrest]

end

end PolishArithmetic
