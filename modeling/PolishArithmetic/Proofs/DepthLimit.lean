import Mathlib.Order.Nat
import PolishArithmetic.Proofs.ViablePrefix

/-!
The depth limit. It stops a reading at the first operator that has as many operators around it as the
limit allows, and changes nothing else: without such an operator the limit cannot be told from a
greater one, and with one a greater limit takes the reading further.
-/
namespace PolishArithmetic

section

variable {limit limit' depth inner : Nat} {text before rest s : Text} {log : List Sighting}
variable {e : Expr} {r : Rejection}

theorem Yields.mono (h : Yields limit depth text log e rest) (hle : limit ≤ limit') :
    Yields limit' depth text log e rest := by
  induction h with
  | leaf hterm hleaf => exact .leaf hterm hleaf
  | binary hterm hdepth _ _ ihl ihr => exact .binary hterm (by omega) ihl ihr

theorem Stops.mono (h : Stops limit depth text log r) (hle : limit ≤ limit')
    (hfault : r.fault ≠ .tooDeep limit) : Stops limit' depth text log r := by
  induction h with
  | ended => exact .ended
  | invalid hne hterm => exact .invalid hne hterm
  | deep => exact absurd rfl hfault
  | left hterm hdepth _ ih => exact .left hterm (by omega) (ih hfault)
  | right hterm hdepth hl _ ih => exact .right hterm (by omega) (hl.mono hle) (ih hfault)

theorem Awaits.mono (h : Awaits limit depth before inner) (hle : limit ≤ limit') :
    Awaits limit' depth before inner := by
  induction h with
  | here => exact .here
  | left op hdepth _ ih => exact .left op (by omega) ih
  | right op hdepth hs hn _ ih => exact .right op (by omega) hs (by omega) ih

theorem Awaits.inner_le (h : Awaits limit depth before inner) (hdepth : depth ≤ limit) :
    inner ≤ limit := by
  induction h with
  | here => exact hdepth
  | left op hlt _ ih => exact ih hlt
  | right op hlt _ _ _ ih => exact ih hlt

/-- Every operator around an operand is a part of the text. -/
theorem Stops.lt_of_tooDeep (h : Stops limit depth text log r) (hfault : r.fault = .tooDeep limit) :
    limit < depth + text.length := by
  induction h with
  | ended => cases hfault
  | invalid => cases hfault
  | deep hterm hdepth =>
    have := List.length_pos_iff.mpr (Text.ne_nil_of_firstTerm hterm)
    omega
  | left hterm _ _ ih =>
    have := Text.length_afterTerm_lt (Text.ne_nil_of_firstTerm hterm)
    have := ih hfault
    omega
  | right hterm _ hl _ ih =>
    have := Text.length_afterTerm_lt (Text.ne_nil_of_firstTerm hterm)
    have := hl.length_rest_lt
    have := ih hfault
    omega

theorem Awaits.push (op : Operator) (h : Awaits limit depth before inner) (hinner : inner < limit) :
    Awaits limit depth (before ++ [op.symbol, ' ']) (inner + 1) := by
  induction h with
  | here => exact .left op hinner .here
  | left op' hdepth _ ih => exact .left op' hdepth (ih hinner)
  | right op' hdepth hs hn _ ih =>
    simpa using Awaits.right op' hdepth hs hn (ih hinner)

/-- What comes before an operand ends with the space in front of it. -/
theorem Awaits.getLast?_eq (h : Awaits limit depth before inner) (hne : before ≠ []) :
    before.getLast? = some ' ' := by
  have hcons {before : Text} (ih : before ≠ [] → before.getLast? = some ' ') :
      (' ' :: before).getLast? = some ' ' := by
    cases before with
    | nil => rfl
    | cons c cs => exact ih (List.cons_ne_nil c cs)
  induction h with
  | here => exact absurd rfl hne
  | left op _ _ ih => exact hcons ih
  | @right _ _ s _ _ op _ _ _ _ ih =>
    rw [← List.cons_append, ← List.cons_append, List.getLast?_append, hcons ih, Option.some_or]

/-- A rejection stays if the text behind its place is kept up to a space. -/
theorem Locates.compile_append {lead missing : Text} (hl : Locates limit lead (missing ++ rest) r)
    (hspace : ' ' ∈ missing) (u : Text) : compile limit (lead ++ (missing ++ u)) = .error r := by
  have hne : missing ≠ [] := List.ne_nil_of_mem hspace
  have hsplit := Text.firstTerm_append_afterTerm hspace
  have hfirst : Text.firstTerm (missing ++ rest) = missing.firstTerm := by
    rw [← hsplit, List.append_assoc, List.cons_append]
    simp [Text.space_not_mem_firstTerm]
  have hterm (h : ∀ v : Text, v = [] ∧ Text.firstTerm (missing ++ rest) ≠ [] ∨ v.head? = some ' ' →
      compile limit (lead ++ Text.firstTerm (missing ++ rest) ++ v) = .error r) :
      compile limit (lead ++ (missing ++ u)) = .error r := by
    have hv := h (' ' :: (missing.afterTerm ++ u)) (.inr rfl)
    rw [hfirst] at hv
    rw [← hsplit]
    simpa using hv
  unfold Locates at hl
  split at hl
  · simp [hne] at hl
  · exact hl.2.2 _ (by simp [hne])
  · exact hterm hl.2
  · exact hterm hl.2

/-- A text in which an operand is due is not rejected before its place. -/
theorem Locates.byteLength_le {lead rest' : Text} (hl : Locates limit lead rest' r)
    (h : Awaits limit 0 before inner) (htext : before ++ rest = lead ++ rest') :
    before.byteLength ≤ lead.byteLength := by
  obtain ⟨u, e, hu⟩ := h.completable
  rcases List.append_eq_append_iff.mp htext with ⟨passed, rfl, -⟩ | ⟨missing, rfl, rfl⟩
  · simp
  · by_cases hmissing : missing = []
    · simp [hmissing]
    · have hlast := h.getLast?_eq (by simp [hmissing])
      rw [List.getLast?_append, List.getLast?_eq_some_getLast hmissing, Option.some_or] at hlast
      have hspace : ' ' ∈ missing := Option.some.inj hlast ▸ List.getLast_mem hmissing
      have hc := hl.compile_append hspace u
      rw [← List.append_assoc, hu] at hc
      cases hc

theorem Awaits.position_le (h : Awaits limit 0 before inner)
    (hc : compile limit (before ++ rest) = .error r) : before.byteLength ≤ r.position := by
  rcases compile_eq_error_iff.mp hc with ⟨log, hs⟩ | ⟨log, e, rest', hy, hrest, rfl⟩
  · obtain ⟨lead, rest', htext, hposition, hl⟩ := hs.stopsAt.locates
    exact hposition ▸ hl.byteLength_le h htext
  · obtain ⟨lead, htext, hl⟩ := hy.locates hrest
    have hle := hl.byteLength_le h htext
    simpa [htext] using hle

theorem Awaits.position_lt {op : Operator} (h : Awaits limit 0 before inner)
    (hterm : Term.ofText? rest.firstTerm = some (.op op)) (hinner : inner < limit)
    (hc : compile limit (before ++ rest) = .error r) : before.byteLength < r.position := by
  have hfirst := Term.eq_symbol_of_ofText? hterm
  rcases hfirst ▸ rest.splits_firstTerm with hrest | ⟨hrest, hafter⟩
  · rw [hrest] at hc
    have hle : (before ++ [op.symbol, ' ']).byteLength ≤ r.position :=
      (h.push op hinner).position_le (by simpa using hc)
    simp only [Text.byteLength_append, Text.byteLength_cons, Text.utf8Size_space] at hle
    omega
  · have hended : Stops limit (inner + 1) rest.afterTerm [] ⟨.unexpectedEnd, 0⟩ := by
      rw [hafter]
      exact .ended
    obtain ⟨_, hs⟩ := h.stops (.left hterm hinner hended)
    rw [compile_eq_error_iff.mpr (.inl ⟨_, hs⟩)] at hc
    cases hc
    rw [hafter, hrest]
    simp [Rejection.shift]

theorem stops_symbol (op : Operator) (rest : Text) (hdepth : limit ≤ depth) :
    ∃ log, Stops limit depth (op.symbol :: ' ' :: rest) log ⟨.tooDeep limit, 0⟩ :=
  ⟨_, .deep (by rw [Text.firstTerm_symbol, Term.ofText?_symbol]) hdepth⟩

/-- A derived text that is nested too deeply stops inside. -/
theorem Derives.stops (h : Derives s e) (hsplit : text.Splits s rest)
    (hn : limit - depth < e.nesting) :
    ∃ log p, Stops limit depth text log ⟨.tooDeep limit, p⟩ ∧ p ≤ s.byteLength := by
  induction h generalizing text rest depth with
  | const => exact absurd hn (Nat.not_lt_zero _)
  | var => exact absurd hn (Nat.not_lt_zero _)
  | @binary term s t op left right hterm hl hr ihl ihr =>
    have hsymbol := Term.eq_symbol_of_ofText? hterm
    subst hsymbol
    obtain ⟨mid, rfl, hmid⟩ := hsplit.of_append
    obtain ⟨mid', rfl, hmid'⟩ := hmid.of_append
    rw [Expr.nesting] at hn
    simp only [List.singleton_append, Text.byteLength_symbol_append]
    by_cases hdepth : limit ≤ depth
    · obtain ⟨log, hs⟩ := stops_symbol op (s ++ ' ' :: mid') hdepth
      exact ⟨log, 0, hs, Nat.zero_le _⟩
    · rw [Nat.not_le] at hdepth
      by_cases hnl : left.nesting ≤ limit - (depth + 1)
      · have hnr : limit - (depth + 1) < right.nesting := by omega
        obtain ⟨_, p, hs, hp⟩ := ihr hmid' hnr
        obtain ⟨log, hs⟩ := hs.under_right op hdepth hl hnl
        exact ⟨log, _, hs, by simp only; omega⟩
      · obtain ⟨_, p, hs, hp⟩ := ihl (Text.splits_append s mid') (Nat.not_le.mp hnl)
        obtain ⟨log, hs⟩ := hs.under_left op hdepth
        exact ⟨log, _, hs, by simp only; omega⟩

/-- From the left, the reading of `text` comes to an operator behind `before` that has `inner`
operators around it. -/
def OperatorAt (text before : Text) (inner : Nat) : Prop :=
  ∃ limit rest op, Awaits limit 0 before inner ∧ text = before ++ rest ∧
    Term.ofText? rest.firstTerm = some (.op op)

/-- An operator with at least `limit` operators around it is not passed. -/
theorem Awaits.stops_of_le {wide : Nat} {op : Operator} (h : Awaits wide depth before inner)
    (hterm : Term.ofText? rest.firstTerm = some (.op op)) (hinner : limit ≤ inner) :
    ∃ log p, Stops limit depth (before ++ rest) log ⟨.tooDeep limit, p⟩ ∧
      p ≤ before.byteLength := by
  induction h with
  | here => exact ⟨_, 0, .deep hterm hinner, Nat.le_refl 0⟩
  | @left depth inner before op' _ _ ih =>
    by_cases hdepth : limit ≤ depth
    · obtain ⟨log, hs⟩ := stops_symbol op' (before ++ rest) hdepth
      exact ⟨log, 0, hs, Nat.zero_le _⟩
    · obtain ⟨_, p, hs, hp⟩ := ih hinner
      obtain ⟨log, hs⟩ := hs.under_left op' (Nat.not_le.mp hdepth)
      exact ⟨log, _, hs, by simp only [Text.byteLength_symbol]; omega⟩
  | @right depth inner s before left op' _ hs' _ _ ih =>
    have htext : (op'.symbol :: ' ' :: (s ++ ' ' :: before)) ++ rest =
        op'.symbol :: ' ' :: (s ++ ' ' :: (before ++ rest)) := by
      simp
    rw [htext, Text.byteLength_symbol_append]
    by_cases hdepth : limit ≤ depth
    · obtain ⟨log, hs⟩ := stops_symbol op' (s ++ ' ' :: (before ++ rest)) hdepth
      exact ⟨log, 0, hs, Nat.zero_le _⟩
    · rw [Nat.not_le] at hdepth
      by_cases hn : left.nesting ≤ limit - (depth + 1)
      · obtain ⟨_, p, hs, hp⟩ := ih hinner
        obtain ⟨log, hs⟩ := hs.under_right op' hdepth hs' hn
        exact ⟨log, _, hs, by simp only; omega⟩
      -- The limit is met before, inside of the operand that is complete.
      · obtain ⟨_, p, hs, hp⟩ := hs'.stops (Text.splits_append s _) (Nat.not_le.mp hn)
        obtain ⟨log, hs⟩ := hs.under_left op' hdepth
        exact ⟨log, _, hs, by simp only; omega⟩

theorem awaits_of_tooDeep {p : Nat} (h : compile limit text = .error ⟨.tooDeep limit, p⟩) :
    ∃ before rest op, p = before.byteLength ∧ Awaits limit 0 before limit ∧ text = before ++ rest ∧
      Term.ofText? rest.firstTerm = some (.op op) := by
  rcases compile_eq_error_iff.mp h with ⟨log, hs⟩ | ⟨_, _, _, _, _, hr⟩
  · cases hs.stopsAt with
    | @deep before rest inner op ha htext hterm hinner =>
      have heq : inner = limit := Nat.le_antisymm (ha.inner_le (Nat.zero_le limit)) hinner
      exact ⟨before, rest, op, rfl, heq ▸ ha, htext, hterm⟩
  · cases hr

theorem eq_of_tooDeep {named p : Nat} (h : compile limit text = .error ⟨.tooDeep named, p⟩) :
    named = limit := by
  rcases compile_eq_error_iff.mp h with ⟨log, hs⟩ | ⟨_, _, _, _, _, hr⟩
  · cases hs.stopsAt
    rfl
  · cases hr

theorem tooDeep_of_operatorAt (h : OperatorAt text before limit) :
    ∃ p, compile limit text = .error ⟨.tooDeep limit, p⟩ ∧ p ≤ before.byteLength := by
  obtain ⟨wide, rest, op, ha, rfl, hterm⟩ := h
  obtain ⟨log, p, hs, hp⟩ := ha.stops_of_le hterm (Nat.le_refl limit)
  exact ⟨p, compile_eq_error_iff.mpr (.inl ⟨log, hs⟩), hp⟩

/-- Under a limit, reading stops at the leftmost of the operators that have just as many operators
around them. -/
theorem compile_eq_tooDeep_iff {p : Nat} : compile limit text = .error ⟨.tooDeep limit, p⟩ ↔
    ∃ before, p = before.byteLength ∧ OperatorAt text before limit ∧
      ∀ before', OperatorAt text before' limit → before.byteLength ≤ before'.byteLength := by
  have hat {p : Nat} (h : compile limit text = .error ⟨.tooDeep limit, p⟩) :
      ∃ before, p = before.byteLength ∧ OperatorAt text before limit := by
    obtain ⟨before, rest, op, hp, ha, htext, hterm⟩ := awaits_of_tooDeep h
    exact ⟨before, hp, limit, rest, op, ha, htext, hterm⟩
  constructor
  · intro h
    obtain ⟨before, rfl, hb⟩ := hat h
    refine ⟨before, rfl, hb, fun before' hb' => ?_⟩
    obtain ⟨p, hc, hp⟩ := tooDeep_of_operatorAt hb'
    rw [h] at hc
    cases hc
    exact hp
  · rintro ⟨before, rfl, hb, hleast⟩
    obtain ⟨p, hc, hp⟩ := tooDeep_of_operatorAt hb
    obtain ⟨before', rfl, hb'⟩ := hat hc
    rw [hc, Nat.le_antisymm hp (hleast before' hb')]

/-- A limit that is not met cannot be told from a greater one. -/
theorem compile_eq_of_le (hle : limit ≤ limit')
    (h : ∀ p, compile limit text ≠ .error ⟨.tooDeep limit, p⟩) :
    compile limit' text = compile limit text := by
  cases hc : compile limit text with
  | ok e =>
    obtain ⟨log, hy⟩ := compile_eq_ok_iff_yields.mp hc
    exact compile_eq_ok_iff_yields.mpr ⟨log, hy.mono hle⟩
  | error r =>
    rw [compile_eq_error_iff]
    rcases compile_eq_error_iff.mp hc with ⟨log, hs⟩ | ⟨log, e, rest, hy, hrest, hr⟩
    · refine .inl ⟨log, hs.mono hle fun hfault => h r.position ?_⟩
      rw [hc, ← hfault]
    · exact .inr ⟨log, e, rest, hy.mono hle, hrest, hr⟩

/-- Beyond the operator at which a limit stops it, a greater limit takes the reading further. -/
theorem compile_beyond {p : Nat} (hlt : limit < limit')
    (h : compile limit text = .error ⟨.tooDeep limit, p⟩) :
    (∀ e, compile limit' text = .ok e → limit < e.nesting) ∧
      ∀ r, compile limit' text = .error r → p < r.position := by
  constructor
  · intro e he
    by_contra hn
    obtain ⟨-, hs⟩ := compile_eq_ok_iff.mp he
    rw [compile_eq_ok_iff.mpr ⟨Nat.not_lt.mp hn, hs⟩] at h
    cases h
  · intro r hr
    obtain ⟨before, rest, op, rfl, ha, rfl, hterm⟩ := awaits_of_tooDeep h
    exact (ha.mono hlt.le).position_lt hterm hlt hr

/-- A text as long as the limit has no operator that is too deep. -/
theorem exists_not_tooDeep (text : Text) :
    ∃ limit, ∀ p, compile limit text ≠ .error ⟨.tooDeep limit, p⟩ := by
  refine ⟨text.length, fun p h => ?_⟩
  rcases compile_eq_error_iff.mp h with ⟨log, hs⟩ | ⟨_, _, _, _, _, hr⟩
  · have := hs.lt_of_tooDeep rfl
    omega
  · cases hr

end

/-- Limits below a threshold stop the reading, each at the leftmost operator that has as many
operators around it, and a greater limit takes the reading further. All others give one result. -/
theorem exists_depth_threshold (text : Text) : ∃ threshold, ∀ limit,
    ((∃ p, compile limit text = .error ⟨.tooDeep limit, p⟩) ↔ limit < threshold) ∧
    (threshold ≤ limit → ∀ limit', limit < limit' → compile limit' text = compile limit text) ∧
    ∀ p, compile limit text = .error ⟨.tooDeep limit, p⟩ →
      (∃ before, p = before.byteLength ∧ OperatorAt text before limit ∧
        ∀ before', OperatorAt text before' limit → before.byteLength ≤ before'.byteLength) ∧
      ∀ limit', limit < limit' →
        (∃ e, compile limit' text = .ok e ∧ limit < e.nesting) ∨
        ∃ r, compile limit' text = .error r ∧ p < r.position := by
  classical
  have hex := exists_not_tooDeep text
  have hbelow {limit : Nat} :
      (∃ p, compile limit text = .error ⟨.tooDeep limit, p⟩) ↔ limit < Nat.find hex := by
    constructor
    · rintro ⟨p, hp⟩
      by_contra hle
      have hsame := compile_eq_of_le (Nat.not_lt.mp hle) (Nat.find_spec hex)
      rw [hp] at hsame
      have heq := eq_of_tooDeep hsame.symm
      exact Nat.find_spec hex p (heq ▸ hsame.symm)
    · intro hlt
      exact not_forall_not.mp (Nat.find_min hex hlt)
  refine ⟨Nat.find hex, fun limit => ⟨hbelow, ?_, ?_⟩⟩
  · intro hle limit' hlt
    refine compile_eq_of_le hlt.le fun p hp => ?_
    exact Nat.not_lt.mpr hle (hbelow.mp ⟨p, hp⟩)
  · intro p hp
    refine ⟨compile_eq_tooDeep_iff.mp hp, fun limit' hlt => ?_⟩
    obtain ⟨hok, herror⟩ := compile_beyond hlt hp
    cases hc : compile limit' text with
    | ok e => exact .inl ⟨e, rfl, hok e hc⟩
    | error r => exact .inr ⟨r, rfl, herror r hc⟩

/-- The second operator is one too many for a limit of one. -/
theorem exists_depth_threshold_nested :
    let text : Text := "+ x1 * x2 y".toList
    compile 1 text = .error ⟨.tooDeep 1, 5⟩ ∧
      ((∃ e, compile 2 text = .ok e ∧ 1 < e.nesting) ∨
        ∃ r, compile 2 text = .error r ∧ 5 < r.position) := by
  intro text
  have hleft : Derives "x1".toList (.var 1) := .var (by decide) (by decide)
  have hawaits : Awaits 1 0 "+ x1 ".toList 1 := .right .add (by decide) hleft (by decide) .here
  have hc : compile 1 text = .error ⟨.tooDeep 1, 5⟩ := by
    obtain ⟨log, hs⟩ := stops_symbol .mul "x2 y".toList (Nat.le_refl 1)
    exact compile_of_awaits hawaits hs
  obtain ⟨threshold, h⟩ := exists_depth_threshold text
  exact ⟨hc, ((h 1).2.2 5 hc).2 2 (by decide)⟩

end PolishArithmetic
