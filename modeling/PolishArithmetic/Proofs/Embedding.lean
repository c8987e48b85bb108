import PolishArithmetic.Proofs.Spans
import PolishArithmetic.Proofs.ViablePrefix

/-!
Expressions as operands. A text is read below an operator as it is read by itself: its positions move
by what stands in front of it, and an operator may be as deep as before if the limit is raised by one.
-/
namespace PolishArithmetic

/-- The same fault with one operator more around the text, under a limit that allows for it. -/
def Fault.deepen : Fault → Fault
  | .tooDeep limit => .tooDeep (limit + 1)
  | fault => fault

def Rejection.deepen (r : Rejection) : Rejection :=
  { r with fault := r.fault.deepen }

namespace Text

theorem IsRun.append_space {run after : Text} (h : IsRun run after) (rest : Text) :
    IsRun run (after ++ ' ' :: rest) := by
  obtain ⟨hspace, rfl | hafter⟩ := h
  · exact ⟨hspace, .inr rfl⟩
  · obtain ⟨after, rfl⟩ := List.head?_eq_some_iff.mp hafter
    exact ⟨hspace, .inr rfl⟩

/-- Behind a space a text may go on without a change of its first term. -/
theorem firstTerm_append (text rest : Text) : firstTerm (text ++ ' ' :: rest) = text.firstTerm := by
  obtain ⟨after, htext, hrun⟩ := text.exists_isRun_firstTerm
  have h := (hrun.append_space rest).firstTerm_eq
  rwa [← List.append_assoc, ← htext] at h

end Text

section

variable {limit depth : Nat} {text rest : Text} {log : List Sighting} {e : Expr} {r : Rejection}

theorem Yields.deepen (h : Yields limit depth text log e rest) :
    ∃ log, Yields (limit + 1) (depth + 1) text log e rest := by
  obtain ⟨hn, hs⟩ := yields_iff_derives.mp ⟨log, h⟩
  exact yields_iff_derives.mpr ⟨by omega, hs⟩

theorem Stops.deepen (h : Stops limit depth text log r) :
    ∃ log, Stops (limit + 1) (depth + 1) text log r.deepen := by
  induction h with
  | ended => exact ⟨_, .ended⟩
  | invalid hne hterm => exact ⟨_, .invalid hne hterm⟩
  | deep hterm hdepth => exact ⟨_, .deep hterm (Nat.succ_le_succ hdepth)⟩
  | left hterm hdepth _ ih =>
    obtain ⟨_, hs⟩ := ih
    exact ⟨_, .left hterm (Nat.succ_lt_succ hdepth) hs⟩
  | right hterm hdepth hl _ ih =>
    obtain ⟨_, hl⟩ := hl.deepen
    obtain ⟨_, hs⟩ := ih
    exact ⟨_, .right hterm (Nat.succ_lt_succ hdepth) hl hs⟩

/-- A term at which the reading stops stops it also if the text goes on behind a space. -/
theorem StopsAt.append (h : StopsAt limit depth text r) (hr : r.IsAboutTerm) (rest : Text) :
    ∃ log, Stops limit depth (text ++ ' ' :: rest) log r := by
  have hshift (fault : Fault) (n : Nat) : Rejection.shift n ⟨fault, 0⟩ = ⟨fault, n⟩ := by
    rw [Rejection.shift, Nat.zero_add]
  cases h with
  | ended => rcases hr with hr | ⟨_, hr⟩ <;> cases hr
  | @invalid before tail inner ha ht hne hterm =>
    subst ht
    rw [← hshift, List.append_assoc]
    rw [← Text.firstTerm_append tail rest] at hterm
    exact ha.stops (.invalid (by simp) hterm)
  | @deep before tail inner op ha ht hterm hinner =>
    subst ht
    rw [← hshift, List.append_assoc]
    rw [← Text.firstTerm_append tail rest] at hterm
    exact ha.stops (.deep hterm hinner)

theorem compile_of_stops (h : Stops limit 0 text log r) : compile limit text = .error r :=
  compile_eq_error_iff.mpr (.inl ⟨log, h⟩)

theorem stops_of_compile (h : compile limit text = .error r)
    (hfault : r.fault ≠ .unexpectedContinuation) : ∃ log, Stops limit 0 text log r := by
  rcases compile_eq_error_iff.mp h with hs | ⟨_, _, _, _, _, rfl⟩
  · exact hs
  · exact absurd rfl hfault

end

section

variable {limit : Nat} {a b : Text} {left right : Expr} {r : Rejection}

theorem compile_under_left (op : Operator) (h : compile limit a = .error r) (hr : r.IsAboutTerm)
    (b : Text) :
    compile (limit + 1) (op.symbol :: ' ' :: (a ++ ' ' :: b)) = .error (r.deepen.shift 2) := by
  have hfault : r.fault ≠ .unexpectedContinuation := by
    rcases hr with hr | ⟨_, hr⟩ <;> rw [hr] <;> nofun
  obtain ⟨_, hs⟩ := stops_of_compile h hfault
  obtain ⟨_, hs⟩ := hs.stopsAt.append hr b
  obtain ⟨_, hs⟩ := hs.deepen
  obtain ⟨_, hs⟩ := hs.under_left op (Nat.succ_pos limit)
  exact compile_of_stops hs

theorem compile_under_right (op : Operator) (ha : Derives a left) (hn : left.nesting ≤ limit)
    (h : compile limit b = .error r) :
    compile (limit + 1) (op.symbol :: ' ' :: (a ++ ' ' :: b)) =
      .error (r.deepen.shift (a.byteLength + 3)) := by
  rcases compile_eq_error_iff.mp h with ⟨_, hs⟩ | ⟨log, right, rest, hy, hrest, rfl⟩
  · obtain ⟨_, hs⟩ := hs.deepen
    obtain ⟨_, hs⟩ := hs.under_right op (Nat.succ_pos limit) ha hn
    exact compile_of_stops hs
  · obtain ⟨hn', s, hs, hsplit⟩ := hy.derives
    have hwhole : Derives (op.symbol :: ' ' :: (a ++ ' ' :: s)) (.binary op left right) :=
      .binary (Term.ofText?_symbol op) ha hs
    have hnesting : (Expr.binary op left right).nesting ≤ limit + 1 := by
      rw [Expr.nesting]
      omega
    have hc := hwhole.compile_append hnesting hrest
    rw [hsplit.eq_append hrest]
    simp only [List.cons_append, List.append_assoc] at hc
    rw [hc, Text.byteLength_append_space, Nat.add_sub_cancel_left, Text.byteLength_symbol_append,
      Nat.add_right_comm]
    rfl

theorem compile_binary (op : Operator) (ha : Derives a left) (hn : left.nesting ≤ limit)
    (h : compile limit b = .ok right) :
    compile (limit + 1) (op.symbol :: ' ' :: (a ++ ' ' :: b)) = .ok (.binary op left right) := by
  obtain ⟨hn', s, hs, hsplit⟩ := compile_eq_ok_iff.mp h
  refine compile_eq_ok_iff.mpr ⟨?_, _, .binary (Term.ofText?_symbol op) ha hs, ?_⟩
  · rw [Expr.nesting]
    omega
  · rcases hsplit with rfl | ⟨rfl, -⟩
    · exact .inl (by simp)
    · exact Text.splits_self _

end

/-- A text compiles as an operand as it does by itself, with the limit raised by the operator that is
around it: the right operand in every case, and the left one up to the place where its reading stops. -/
theorem compile_operand (op : Operator) (limit : Nat) (a b : Text) :
    (∀ left, compile limit a = .ok left → a.getLast? ≠ some ' ' →
      (∀ right, compile limit b = .ok right →
        compile (limit + 1) (op.symbol :: ' ' :: (a ++ ' ' :: b)) =
          .ok (.binary op left right)) ∧
      ∀ r, compile limit b = .error r →
        compile (limit + 1) (op.symbol :: ' ' :: (a ++ ' ' :: b)) =
          .error (r.deepen.shift (a.byteLength + 3))) ∧
    (∀ r, compile limit a = .error r → r.IsAboutTerm →
      compile (limit + 1) (op.symbol :: ' ' :: (a ++ ' ' :: b)) = .error (r.deepen.shift 2)) ∧
    ∀ p, compile limit a = .error ⟨.unexpectedEnd, p⟩ →
      compile (limit + 1) (op.symbol :: ' ' :: a) = .error ⟨.unexpectedEnd, p + 2⟩ := by
  refine ⟨fun left ha hlast => ?_, fun r h hr => compile_under_left op h hr b, fun p h => ?_⟩
  · have hn := (compile_eq_ok_iff.mp ha).1
    have hderives := derives_of_compile ha hlast
    exact ⟨fun right hb => compile_binary op hderives hn hb,
      fun r hb => compile_under_right op hderives hn hb⟩
  · obtain ⟨_, hs⟩ := stops_of_compile h nofun
    obtain ⟨_, hs⟩ := hs.deepen
    obtain ⟨_, hs⟩ := hs.under_left op (Nat.succ_pos limit)
    exact compile_of_stops hs

/-- The second operator of the right operand is too deep, by itself and below another operator. -/
theorem compile_operand_too_deep :
    let b : Text := "+ * x2 x3 x4".toList
    compile 1 "x1".toList = .ok (.var 1) ∧ compile 1 b = .error ⟨.tooDeep 1, 2⟩ ∧
      compile 2 ('-' :: ' ' :: ("x1".toList ++ ' ' :: b)) = .error ⟨.tooDeep 2, 7⟩ := by
  intro b
  have hx : Derives "x1".toList (.var 1) := .var (by decide) (by decide)
  have ha : compile 1 "x1".toList = .ok (.var 1) := hx.compile (Nat.zero_le 1)
  have hawaits : Awaits 1 0 "+ ".toList 1 := .left .add (by decide) .here
  have hb : compile 1 b = .error ⟨.tooDeep 1, 2⟩ := by
    obtain ⟨_, hs⟩ : ∃ log, Stops 1 1 "* x2 x3 x4".toList log ⟨.tooDeep 1, 0⟩ :=
      ⟨_, .deep (show Term.ofText? _ = some (.op .mul) by decide) (Nat.le_refl 1)⟩
    exact compile_of_awaits hawaits hs
  exact ⟨ha, hb, ((compile_operand .sub 1 "x1".toList b).1 _ ha (by decide)).2 _ hb⟩

end PolishArithmetic
