import PolishArithmetic.Proofs.Grammar

/-!
What the byte of a rejection says. Up to it the text is the start of an expression; what stands
there is rejected whatever follows it.
-/
namespace PolishArithmetic

/-- After `before`, with `depth` open operators in front of it, an operand is due that has `inner`
operators around it. -/
inductive Awaits (limit : Nat) : Nat → Text → Nat → Prop
  | here {depth : Nat} : Awaits limit depth [] depth
  | left {depth inner : Nat} {before : Text} (op : Operator) (hdepth : depth < limit)
      (h : Awaits limit (depth + 1) before inner) :
      Awaits limit depth (op.symbol :: ' ' :: before) inner
  | right {depth inner : Nat} {s before : Text} {left : Expr} (op : Operator)
      (hdepth : depth < limit) (hs : Derives s left) (hn : left.nesting ≤ limit - (depth + 1))
      (h : Awaits limit (depth + 1) before inner) :
      Awaits limit depth (op.symbol :: ' ' :: (s ++ ' ' :: before)) inner

/-- Where the reading of a text stops. At the end of the text the space before the operand that is
due may be missing. -/
inductive StopsAt (limit depth : Nat) (text : Text) : Rejection → Prop
  | ended {before : Text} {inner : Nat} (h : Awaits limit depth before inner)
      (ht : text = before ∨ text ++ [' '] = before) :
      StopsAt limit depth text ⟨.unexpectedEnd, text.byteLength⟩
  | invalid {before rest : Text} {inner : Nat} (h : Awaits limit depth before inner)
      (ht : text = before ++ rest) (hne : rest ≠ []) (hterm : Term.ofText? rest.firstTerm = none) :
      StopsAt limit depth text ⟨.invalidTerm, before.byteLength⟩
  | deep {before rest : Text} {inner : Nat} {op : Operator} (h : Awaits limit depth before inner)
      (ht : text = before ++ rest) (hterm : Term.ofText? rest.firstTerm = some (.op op))
      (hinner : limit ≤ inner) :
      StopsAt limit depth text ⟨.tooDeep limit, before.byteLength⟩

section

variable {limit depth inner : Nat} {text before rest lead : Text} {log : List Sighting}
variable {r : Rejection}

theorem Awaits.stops (h : Awaits limit depth before inner) (hs : Stops limit inner rest log r) :
    ∃ log, Stops limit depth (before ++ rest) log (r.shift before.byteLength) := by
  induction h with
  | here => exact ⟨log, hs⟩
  | left op hdepth _ ih =>
    obtain ⟨_, ih⟩ := ih hs
    have h := ih.under_left op hdepth
    rwa [Rejection.shift_shift, ← Text.byteLength_symbol op] at h
  | @right depth inner s before left op hdepth hs' hn _ ih =>
    obtain ⟨_, ih⟩ := ih hs
    have h := ih.under_right op hdepth hs' hn
    rw [Rejection.shift_shift, ← Text.byteLength_symbol_append op] at h
    simpa only [List.cons_append, List.append_assoc] using h

/-- Leaves are enough to complete the expression. -/
theorem Awaits.exists_derives (h : Awaits limit depth before inner) :
    ∃ u e, Derives (before ++ u) e ∧ e.nesting ≤ limit - depth := by
  have hvar : Derives ['x', '0'] (.var 0) := .var (by decide) (by decide)
  induction h with
  | here => exact ⟨_, .var 0, hvar, Nat.zero_le _⟩
  | left op hdepth _ ih =>
    obtain ⟨u, e, he, hn⟩ := ih
    refine ⟨u ++ ' ' :: ['x', '0'], .binary op e (.var 0), ?_, ?_⟩
    · simpa using Derives.binary (Term.ofText?_symbol op) he hvar
    · simp only [Expr.nesting]
      omega
  | @right _ _ _ _ left op hdepth hs hn _ ih =>
    obtain ⟨u, e, he, hn'⟩ := ih
    refine ⟨u, .binary op left e, ?_, ?_⟩
    · simpa using Derives.binary (Term.ofText?_symbol op) hs he
    · simp only [Expr.nesting]
      omega

/-- A part of the text in front of the place where the reading stops. -/
theorem StopsAt.prepend (h : StopsAt limit (depth + 1) rest r) (hsplit : text.Splits lead rest)
    (hlead : ∀ {before inner}, Awaits limit (depth + 1) before inner →
      Awaits limit depth (lead ++ ' ' :: before) inner) :
    StopsAt limit depth text (r.shift (text.byteLength - rest.byteLength)) := by
  rcases hsplit with rfl | ⟨rfl, rfl⟩
  · have hbytes (t : Text) : t.byteLength +
        (Text.byteLength (lead ++ ' ' :: rest) - rest.byteLength) =
          Text.byteLength (lead ++ ' ' :: t) := by
      simp only [Text.byteLength_append, Text.byteLength_cons, Text.utf8Size_space]
      omega
    cases h with
    | ended h ht =>
      change StopsAt limit depth _ ⟨.unexpectedEnd, _ + _⟩
      rw [hbytes]
      refine .ended (hlead h) ?_
      rcases ht with rfl | rfl
      · exact .inl rfl
      · exact .inr (by simp)
    | invalid h ht hne hterm =>
      change StopsAt limit depth _ ⟨.invalidTerm, _ + _⟩
      rw [hbytes, ht]
      exact .invalid (hlead h) (by simp) hne hterm
    | deep h ht hterm hinner =>
      change StopsAt limit depth _ ⟨.tooDeep limit, _ + _⟩
      rw [hbytes, ht]
      exact .deep (hlead h) (by simp) hterm hinner
  · -- The text ends without a space, so nothing but its end can be in the way.
    cases h with
    | ended => simpa [Rejection.shift] using StopsAt.ended (hlead .here) (.inr rfl)
    | invalid _ ht hne _ => exact absurd (List.append_eq_nil_iff.mp ht.symm).2 hne
    | deep _ ht hterm _ =>
      exact absurd (List.append_eq_nil_iff.mp ht.symm).2 (Text.ne_nil_of_firstTerm hterm)

theorem Stops.stopsAt (h : Stops limit depth text log r) : StopsAt limit depth text r := by
  induction h with
  | ended => exact .ended .here (.inl rfl)
  | invalid hne hterm => exact .invalid .here rfl hne hterm
  | deep hterm hdepth => exact .deep .here rfl hterm hdepth
  | @left _ text op _ _ hterm hdepth _ ih =>
    apply ih.prepend text.splits_firstTerm
    intro before inner h
    rw [Term.eq_symbol_of_ofText? hterm]
    exact .left op hdepth h
  | @right _ text mid op left _ _ _ hterm hdepth hl _ ih =>
    obtain ⟨hn, s, hs, hsplit⟩ := hl.derives
    apply ih.prepend (text.splits_firstTerm.append hsplit hl.text_ne_nil)
    intro before inner h
    rw [Term.eq_symbol_of_ofText? hterm]
    simpa using Awaits.right op hdepth hs hn h

theorem compile_of_awaits (h : Awaits limit 0 before inner) {fault : Fault}
    (hs : Stops limit inner rest log ⟨fault, 0⟩) :
    compile limit (before ++ rest) = .error ⟨fault, before.byteLength⟩ := by
  obtain ⟨log, hs⟩ := h.stops hs
  rw [compile_eq_error_iff.mpr (.inl ⟨log, hs⟩), Rejection.shift, Nat.zero_add]

end

/-- Some text after this one makes it an expression. -/
def Completable (limit : Nat) (before : Text) : Prop :=
  ∃ u e, compile limit (before ++ u) = .ok e

theorem Awaits.completable {limit inner : Nat} {before : Text} (h : Awaits limit 0 before inner) :
    Completable limit before := by
  obtain ⟨u, e, he, hn⟩ := h.exists_derives
  exact ⟨u, e, he.compile hn⟩

/-- What a rejection between `before` and `rest` says of other texts that start with `before`. -/
def Locates (limit : Nat) (before rest : Text) (r : Rejection) : Prop :=
  match r.fault with
  | .unexpectedEnd => rest = [] ∧ Completable limit before
  | .unexpectedContinuation =>
    rest ≠ [] ∧ (∃ e, compile limit before = .ok e) ∧
      ∀ w, w ≠ [] → compile limit (before ++ w) = .error r
  | .invalidTerm | .tooDeep _ =>
    Completable limit before ∧
      ∀ v, (v = [] ∧ rest.firstTerm ≠ [] ∨ v.head? = some ' ') →
        compile limit (before ++ rest.firstTerm ++ v) = .error r

theorem StopsAt.locates {limit : Nat} {text : Text} {r : Rejection} (h : StopsAt limit 0 text r) :
    ∃ before rest, text = before ++ rest ∧ r.position = before.byteLength ∧
      Locates limit before rest r := by
  cases h with
  | ended h ht =>
    refine ⟨text, [], by simp, rfl, rfl, ?_⟩
    rcases ht with rfl | rfl
    · exact h.completable
    · obtain ⟨u, e, he⟩ := h.completable
      exact ⟨' ' :: u, e, by simpa using he⟩
  | @invalid before rest _ h ht hne hterm =>
    refine ⟨before, rest, ht, rfl, h.completable, ?_⟩
    intro v hv
    rw [List.append_assoc]
    have hrun : Text.IsRun rest.firstTerm v := ⟨rest.space_not_mem_firstTerm, hv.imp_left And.left⟩
    apply compile_of_awaits h (.invalid ?_ (hrun.firstTerm_eq.symm ▸ hterm))
    intro he
    rcases hv with ⟨-, hne⟩ | hv
    · exact hne (List.append_eq_nil_iff.mp he).1
    · rw [(List.append_eq_nil_iff.mp he).2] at hv
      cases hv
  | @deep before rest _ op h ht hterm hinner =>
    refine ⟨before, rest, ht, rfl, h.completable, ?_⟩
    intro v hv
    rw [List.append_assoc]
    have hrun : Text.IsRun rest.firstTerm v := ⟨rest.space_not_mem_firstTerm, hv.imp_left And.left⟩
    exact compile_of_awaits h (.deep (hrun.firstTerm_eq.symm ▸ hterm) hinner)

theorem Yields.locates {limit : Nat} {text rest : Text} {log : List Sighting} {e : Expr}
    (h : Yields limit 0 text log e rest) (hrest : rest ≠ []) :
    ∃ before, text = before ++ rest ∧
      Locates limit before rest ⟨.unexpectedContinuation, before.byteLength⟩ := by
  obtain ⟨hn, s, hs, hsplit⟩ := h.derives
  refine ⟨s ++ [' '], by simpa using hsplit.eq_append hrest, hrest,
    ⟨e, compile_eq_ok_iff.mpr ⟨hn, s, hs, Text.splits_append s []⟩⟩, ?_⟩
  intro w hw
  simpa using hs.compile_append hn hw

/-- The byte of a rejection lies between two characters and locates it. -/
theorem compile_error_locates {limit : Nat} {text : Text} {r : Rejection}
    (h : compile limit text = .error r) :
    ∃ before rest, text = before ++ rest ∧ r.position = before.byteLength ∧
      Locates limit before rest r := by
  rcases compile_eq_error_iff.mp h with ⟨log, hs⟩ | ⟨log, e, rest, hy, hrest, rfl⟩
  · exact hs.stopsAt.locates
  · obtain ⟨before, rfl, hl⟩ := hy.locates hrest
    refine ⟨before, rest, rfl, ?_, ?_⟩
    · simp
    · simpa using hl

theorem compile_error_locates_right_operand :
    compile 3 "+ x1 y z".toList = .error ⟨.invalidTerm, 5⟩ ∧
      ∃ before rest : Text, "+ x1 y z".toList = before ++ rest ∧ 5 = before.byteLength ∧
        Locates 3 before rest ⟨.invalidTerm, 5⟩ := by
  have hleft : Derives ['x', '1'] (.var 1) := .var (by decide) (by decide)
  have hawaits : Awaits 3 0 ['+', ' ', 'x', '1', ' '] 1 :=
    .right .add (by decide) hleft (by decide) .here
  have hstops : Stops 3 1 ['y', ' ', 'z'] [] ⟨.invalidTerm, 0⟩ := .invalid (by decide) (by decide)
  have h : compile 3 "+ x1 y z".toList = .error ⟨.invalidTerm, 5⟩ :=
    compile_of_awaits hawaits hstops
  exact ⟨h, compile_error_locates h⟩

/-- An empty term is one only if a space follows it. -/
theorem empty_term_is_lost_at_end :
    ¬ ∀ (limit : Nat) (before rest v : Text),
      compile limit (before ++ rest) = .error ⟨.invalidTerm, before.byteLength⟩ →
      (v = [] ∨ v.head? = some ' ') →
      compile limit (before ++ rest.firstTerm ++ v) =
        .error ⟨.invalidTerm, before.byteLength⟩ := by
  intro h
  have hawaits : Awaits 1 0 ['+', ' '] 1 := .left .add (by decide) .here
  have hstops : Stops 1 1 [' ', '1'] [] ⟨.invalidTerm, 0⟩ := .invalid (by decide) (by decide)
  have hend : compile 1 ['+', ' '] = .error ⟨.unexpectedEnd, 2⟩ :=
    compile_of_awaits hawaits .ended
  have hterm : compile 1 ['+', ' '] = .error ⟨.invalidTerm, 2⟩ :=
    h 1 ['+', ' '] [' ', '1'] [] (compile_of_awaits hawaits hstops) (.inl rfl)
  rw [hend] at hterm
  cases hterm

end PolishArithmetic
