import Mathlib.Algebra.Ring.Int.Defs
import Mathlib.Order.Bounds.Basic
import PolishArithmetic.Proofs.Sightings
import PolishArithmetic.Proofs.TermPlaces
import PolishArithmetic.Proofs.ViablePrefix

/-!
Counting operands. One number says how many operands are due; an operator raises it by one, and a
leaf lowers it by one. Where it comes to nothing the expression is complete, and no tree is needed to
tell how a text compiles.
-/
namespace PolishArithmetic

namespace Term

/-- An operator takes the place of one operand and calls for two; a leaf is an operand. -/
def demand : Term → Int
  | .op _ => 1
  | .var _ | .const _ => -1

def isOperator : Term → Bool
  | .op _ => true
  | .var _ | .const _ => false

/-- The terms are those of one operand: it is complete after the last of them and not before. -/
structure IsComplete (terms : List Term) : Prop where
  sum_eq : (terms.map demand).sum = -1
  sum_take_nonneg : ∀ i < terms.length, 0 ≤ ((terms.take i).map demand).sum

/-- The terms of a complete operand and of what is begun behind it. -/
theorem IsComplete.le_sum_take_append {terms later : List Term} (h : IsComplete terms) {i : Nat}
    (hlater : 0 ≤ ((later.take (i - terms.length)).map demand).sum) :
    -1 ≤ (((terms ++ later).take i).map demand).sum := by
  rw [List.take_append, List.map_append, List.sum_append]
  by_cases hi : i < terms.length
  · have := h.sum_take_nonneg i hi
    omega
  · rw [List.take_of_length_le (Nat.not_lt.mp hi), h.sum_eq]
    omega

end Term

namespace Expr

def size : Expr → Nat
  | .const _ => 1
  | .var _ => 1
  | .binary _ left right => left.size + right.size + 1

theorem length_terms (e : Expr) : e.terms.length = e.size := by
  induction e with
  | const | var => rfl
  | binary op left right ihl ihr => simp [terms, size, ihl, ihr]

theorem size_pos (e : Expr) : 0 < e.size := by
  cases e with
  | const | var => exact Nat.one_pos
  | binary => exact Nat.succ_pos _

theorem isComplete_terms (e : Expr) : Term.IsComplete e.terms := by
  induction e with
  | const | var =>
    refine ⟨rfl, fun i hi => ?_⟩
    obtain rfl : i = 0 := Nat.lt_one_iff.mp hi
    exact Int.le_refl 0
  | binary op left right ihl ihr =>
    refine ⟨?_, fun i hi => ?_⟩
    · simp [terms, Term.demand, ihl.sum_eq, ihr.sum_eq]
    · cases i with
      | zero => exact Int.le_refl 0
      | succ i =>
        rw [terms, List.length_cons, List.length_append] at hi
        have hpos : 0 < right.terms.length := right.length_terms ▸ right.size_pos
        have hsum := ihl.le_sum_take_append (ihr.sum_take_nonneg (i - left.terms.length) (by omega))
        rw [terms, List.take_succ_cons, List.map_cons, List.sum_cons, Term.demand]
        omega

end Expr

namespace Text

/-- How many operands are due after the first `i` terms. -/
def need (text : Text) (i : Nat) : Int :=
  1 + (((text.terms.take i).filterMap Term.ofText?).map Term.demand).sum

def operatorCount (text : Text) : Nat :=
  (text.terms.filterMap Term.ofText?).countP Term.isOperator

/-- Term `i` is none. -/
def InvalidAt (text : Text) (i : Nat) : Prop :=
  (text.terms[i]?).map Term.ofText? = some none

/-- Term `i` is none, or no operand is due after it. -/
def DecidesAt (text : Text) (i : Nat) : Prop :=
  i < text.terms.length ∧ (text.InvalidAt i ∨ text.need (i + 1) = 0)

variable {text : Text} {terms : List Term} {i : Nat}

theorem need_of_isPrefix (h : terms.map some <+: text.terms.map Term.ofText?)
    (hi : i ≤ terms.length) : text.need i = 1 + ((terms.take i).map Term.demand).sum := by
  obtain ⟨later, h⟩ := h
  have htake : (text.terms.map Term.ofText?).take i = (terms.take i).map some := by
    rw [← h, List.take_append_of_le_length (by simpa using hi), List.map_take]
  have hread : (text.terms.take i).filterMap Term.ofText? = terms.take i := by
    calc (text.terms.take i).filterMap Term.ofText?
        = ((text.terms.map Term.ofText?).take i).filterMap id := by
          rw [← List.map_take, List.filterMap_map]
          rfl
      _ = terms.take i := by
          rw [htake, List.filterMap_map]
          exact List.filterMap_some
  rw [need, hread]

theorem not_invalidAt_of_isPrefix (h : terms.map some <+: text.terms.map Term.ofText?)
    (hi : i < terms.length) : ¬ text.InvalidAt i := by
  obtain ⟨later, h⟩ := h
  rw [InvalidAt, ← List.getElem?_map, ← h, List.getElem?_append_left (by simpa using hi),
    List.getElem?_map, List.getElem?_eq_getElem hi]
  nofun

/-- A term that is none changes nothing. -/
theorem need_succ_of_invalidAt (h : text.InvalidAt i) : text.need (i + 1) = text.need i := by
  obtain ⟨term, hterm, hnone⟩ := Option.map_eq_some_iff.mp h
  simp [need, List.take_add_one, hterm, hnone]

theorem not_decidesAt_of_isPrefix (h : terms.map some <+: text.terms.map Term.ofText?)
    (hi : i < terms.length) (hsum : 0 ≤ ((terms.take (i + 1)).map Term.demand).sum) :
    ¬ text.DecidesAt i := by
  rintro ⟨-, hinvalid | hneed⟩
  · exact not_invalidAt_of_isPrefix h hi hinvalid
  · rw [need_of_isPrefix h (show i + 1 ≤ terms.length from hi)] at hneed
    omega

theorem offset_succ (text : Text) (i : Nat) :
    text.offset (i + 1) = text.byteLength - text.afterTerm.byteLength + text.afterTerm.offset i := by
  have hlen := congrArg byteLength text.upToNext_append_afterTerm
  rw [byteLength_append] at hlen
  rw [offset, upToTerm_succ, byteLength_append, ← offset]
  omega

theorem operatorCount_of_ne_nil (h : text ≠ []) : text.operatorCount =
    text.afterTerm.operatorCount + ((Term.ofText? text.firstTerm).toList.countP Term.isOperator) := by
  rw [operatorCount, terms_of_ne_nil h]
  cases hterm : Term.ofText? text.firstTerm with
  | none => simp [operatorCount, hterm]
  | some term => simp [operatorCount, hterm, List.countP_cons]

end Text

section

variable {limit depth : Nat} {text rest : Text} {log : List Sighting} {e : Expr} {r : Rejection}

theorem Yields.map_ofText?_terms (h : Yields limit depth text log e rest) :
    text.terms.map Term.ofText? = e.terms.map some ++ rest.terms.map Term.ofText? := by
  rw [h.terms_eq, List.map_append, List.map_map, ← h.map_ofText?_log]
  rfl

theorem Yields.operatorCount_le (h : Yields limit depth text log e rest) :
    rest.operatorCount ≤ text.operatorCount := by
  rw [Text.operatorCount, Text.operatorCount, h.terms_eq, List.filterMap_append,
    List.countP_append]
  exact Nat.le_add_left _ _

theorem Stops.isPrefix_terms (h : Stops limit depth text log r) :
    log.map Sighting.term <+: text.terms := by
  induction h with
  | ended | invalid => exact List.nil_prefix
  | deep hterm =>
    rw [Text.terms_of_ne_nil (Text.ne_nil_of_firstTerm hterm)]
    exact List.prefix_append [_] _
  | left hterm _ _ ih =>
    rw [Text.terms_of_ne_nil (Text.ne_nil_of_firstTerm hterm)]
    exact List.cons_prefix_cons.mpr ⟨rfl, ih⟩
  | right hterm _ hl _ ih =>
    rw [Text.terms_of_ne_nil (Text.ne_nil_of_firstTerm hterm), hl.terms_eq, List.map_cons,
      List.map_append]
    exact List.cons_prefix_cons.mpr ⟨rfl, (List.prefix_append_right_inj _).mpr ih⟩

/-- As long as the reading goes on, an operand is due. -/
theorem Stops.exists_terms (h : Stops limit depth text log r) : ∃ terms : List Term,
    log.map (fun s => Term.ofText? s.term) = terms.map some ∧
      ∀ i, 0 ≤ ((terms.take i).map Term.demand).sum := by
  have hcons {op : Operator} {terms : List Term}
      (h : ∀ i, -1 ≤ ((terms.take i).map Term.demand).sum) (i : Nat) :
      0 ≤ (((Term.op op :: terms).take i).map Term.demand).sum := by
    cases i with
    | zero => exact Int.le_refl 0
    | succ i =>
      have := h i
      rw [List.take_succ_cons, List.map_cons, List.sum_cons, Term.demand]
      omega
  induction h with
  | ended | invalid => exact ⟨[], rfl, fun i => by simp⟩
  | @deep _ _ op hterm => exact ⟨[.op op], by simp [hterm], hcons (fun i => by simp)⟩
  | @left _ _ op _ _ hterm _ _ ih =>
    obtain ⟨terms, hlog, hsum⟩ := ih
    exact ⟨.op op :: terms, by simp [hterm, hlog], hcons fun i => by have := hsum i; omega⟩
  | @right _ _ _ op left _ _ _ hterm _ hl _ ih =>
    obtain ⟨terms, hlog, hsum⟩ := ih
    refine ⟨.op op :: (left.terms ++ terms), ?_, hcons fun i => ?_⟩
    · simp [hterm, hlog, hl.map_ofText?_log]
    · exact left.isComplete_terms.le_sum_take_append (hsum _)

/-- The first term that is none is the one behind those that were logged. -/
theorem Stops.invalid_at (h : Stops limit depth text log r) (hfault : r.fault = .invalidTerm) :
    text.fromTerm log.length ≠ [] ∧
      Term.ofText? (text.fromTerm log.length).firstTerm = none ∧
      r.position = text.offset log.length := by
  induction h with
  | ended | deep => cases hfault
  | invalid hne hterm => exact ⟨hne, hterm, rfl⟩
  | left _ _ _ ih =>
    obtain ⟨hne, hterm, hposition⟩ := ih hfault
    refine ⟨hne, hterm, ?_⟩
    rw [Rejection.shift, hposition, List.length_cons, Text.offset_succ, Nat.add_comm]
  | @right _ text mid _ _ log log' _ _ _ hl _ ih =>
    obtain ⟨hne, hterm, hposition⟩ := ih hfault
    rw [List.length_cons, List.length_append, Text.fromTerm_succ, Text.fromTerm_add, hl.fromTerm_eq]
    refine ⟨hne, hterm, ?_⟩
    have hmid := Text.byteLength_le_of_isSuffix hl.isSuffix
    have hafter := Text.byteLength_le_of_isSuffix text.afterTerm_isSuffix
    rw [Rejection.shift, hposition, Text.offset_succ, hl.offset_add]
    simp only
    omega

/-- The operators around an operand are terms of the text, and so is the one that is too deep. -/
theorem Stops.lt_operatorCount (h : Stops limit depth text log r)
    (hfault : r.fault = .tooDeep limit) : limit < depth + text.operatorCount := by
  have hcount {text : Text} {op : Operator}
      (hterm : Term.ofText? text.firstTerm = some (.op op)) :
      text.operatorCount = text.afterTerm.operatorCount + 1 := by
    rw [Text.operatorCount_of_ne_nil (Text.ne_nil_of_firstTerm hterm), hterm]
    rfl
  induction h with
  | ended | invalid => cases hfault
  | deep hterm hdepth =>
    have := hcount hterm
    omega
  | left hterm _ _ ih =>
    have := hcount hterm
    have := ih hfault
    omega
  | right hterm _ hl _ ih =>
    have := hcount hterm
    have := hl.operatorCount_le
    have := ih hfault
    omega

/-- The terms that were logged before the reading stopped, of which each is one. -/
theorem Stops.exists_isPrefix (h : Stops limit depth text log r) : ∃ terms : List Term,
    terms.length = log.length ∧ terms.map some <+: text.terms.map Term.ofText? ∧
      ∀ i, 0 ≤ ((terms.take i).map Term.demand).sum := by
  obtain ⟨terms, hlog, hsum⟩ := h.exists_terms
  obtain ⟨later, hterms⟩ := h.isPrefix_terms
  refine ⟨terms, ?_, ⟨later.map Term.ofText?, ?_⟩, hsum⟩
  · simpa using (congrArg List.length hlog).symm
  · rw [← hterms, List.map_append, List.map_map, ← hlog]
    rfl

/-- Nothing is decided before the reading stops. -/
theorem Stops.not_decidesAt (h : Stops limit depth text log r) {i : Nat} (hi : i < log.length) :
    ¬ text.DecidesAt i := by
  obtain ⟨terms, hlen, hprefix, hsum⟩ := h.exists_isPrefix
  exact Text.not_decidesAt_of_isPrefix hprefix (hlen ▸ hi) (hsum _)

end

/-- What a text compiles to if its term `i` is the first that decides. -/
structure Text.Verdict (text : Text) (i : Nat) (result : Except Rejection Expr) : Prop where
  invalid : text.InvalidAt i → result = .error ⟨.invalidTerm, text.offset i⟩
  continued : text.need (i + 1) = 0 → i + 1 < text.terms.length →
    result = .error ⟨.unexpectedContinuation, text.offset (i + 1)⟩
  complete : text.need (i + 1) = 0 → i + 1 = text.terms.length →
    ∃ e, result = .ok e ∧ e.size = text.terms.length

section

variable {limit : Nat} {text rest : Text} {log : List Sighting} {e : Expr} {p : Nat}

/-- An expression is complete after as many terms as its tree has nodes. -/
theorem Yields.verdict (h : Yields limit 0 text log e rest) :
    ∃ i, IsLeast {i | text.DecidesAt i} i ∧ text.Verdict i (compile limit text) := by
  have hprefix : e.terms.map some <+: text.terms.map Term.ofText? :=
    ⟨_, h.map_ofText?_terms.symm⟩
  have hsize := e.length_terms
  obtain ⟨n, hn⟩ : ∃ n, e.size = n + 1 := Nat.exists_eq_add_one.mpr e.size_pos
  rw [hn] at hsize
  have hlog : log.length = n + 1 := by
    have := congrArg List.length h.map_ofText?_log
    simpa only [List.length_map, hsize] using this
  have hterms : text.terms.length = n + 1 + rest.terms.length := by
    rw [h.terms_eq, List.length_append, List.length_map, hlog]
  have hneed : text.need (n + 1) = 0 := by
    rw [Text.need_of_isPrefix hprefix (Nat.le_of_eq hsize.symm),
      List.take_of_length_le (Nat.le_of_eq hsize), e.isComplete_terms.sum_eq]
    rfl
  refine ⟨n, ⟨⟨by omega, .inr hneed⟩, fun j hj => Nat.le_of_not_lt fun hlt => ?_⟩, ?_, ?_, ?_⟩
  · refine Text.not_decidesAt_of_isPrefix hprefix (by omega) ?_ hj
    exact e.isComplete_terms.sum_take_nonneg _ (by omega)
  · intro hinvalid
    exact absurd hinvalid (Text.not_invalidAt_of_isPrefix hprefix (by omega))
  · intro _ hlt
    have hrest : rest ≠ [] := fun hr => by simp [hr] at hterms; omega
    have hoffset := h.offset_add 0
    rw [hlog, Nat.add_zero] at hoffset
    rw [hoffset]
    exact compile_eq_error_iff.mpr (.inr ⟨log, e, rest, h, hrest, rfl⟩)
  · intro _ hlast
    have hrest : rest = [] := Text.terms_eq_nil_iff.mp (List.length_eq_zero_iff.mp (by omega))
    exact ⟨e, compile_eq_ok_iff_yields.mpr ⟨log, hrest ▸ h⟩, by omega⟩

theorem Stops.verdict (h : Stops limit 0 text log ⟨.invalidTerm, p⟩) :
    ∃ i, IsLeast {i | text.DecidesAt i} i ∧ text.Verdict i (compile limit text) := by
  obtain ⟨hne, hterm, hposition⟩ := h.invalid_at rfl
  have hlen : log.length < text.terms.length := Nat.not_le.mp (mt Text.fromTerm_eq_nil_iff.mpr hne)
  have hinvalid : text.InvalidAt log.length := by
    rw [Text.InvalidAt, Text.getElem?_terms hlen, Option.map_some, hterm]
  have hneed : text.need (log.length + 1) ≠ 0 := by
    obtain ⟨terms, hlog, hprefix, hsum⟩ := h.exists_isPrefix
    have := hsum log.length
    rw [Text.need_succ_of_invalidAt hinvalid, Text.need_of_isPrefix hprefix (Nat.le_of_eq hlog.symm)]
    omega
  refine ⟨log.length, ⟨⟨hlen, .inl hinvalid⟩, ?_⟩, ?_, ?_, ?_⟩
  · exact fun j hj => Nat.le_of_not_lt fun hlt => h.not_decidesAt hlt hj
  · intro _
    rw [compile_eq_error_iff.mpr (.inl ⟨log, h⟩), ← hposition]
  · exact fun h' => absurd h' hneed
  · exact fun h' => absurd h' hneed

/-- At the end of the text all its terms have been read. -/
theorem Stops.not_decidesAt_of_ended (h : Stops limit 0 text log ⟨.unexpectedEnd, p⟩) (i : Nat) :
    ¬ text.DecidesAt i := by
  intro hi
  have hlen := congrArg List.length (h.terms_eq rfl)
  rw [List.length_map] at hlen
  exact h.not_decidesAt (hlen ▸ hi.1) hi

end

/-- Where no operator can be too deep, the count of operands that are due decides. -/
theorem compile_of_need {limit : Nat} {text : Text} (hlimit : text.operatorCount ≤ limit) :
    ((∀ i, ¬ text.DecidesAt i) →
      compile limit text = .error ⟨.unexpectedEnd, text.byteLength⟩) ∧
    ∀ i, IsLeast {i | text.DecidesAt i} i → text.Verdict i (compile limit text) := by
  have hverdict (h : ∃ i, IsLeast {i | text.DecidesAt i} i ∧ text.Verdict i (compile limit text)) :
      ((∀ i, ¬ text.DecidesAt i) →
        compile limit text = .error ⟨.unexpectedEnd, text.byteLength⟩) ∧
      ∀ i, IsLeast {i | text.DecidesAt i} i → text.Verdict i (compile limit text) := by
    obtain ⟨i, hleast, hv⟩ := h
    exact ⟨fun hnone => absurd hleast.1 (hnone i), fun j hj => hleast.unique hj ▸ hv⟩
  rcases yields_or_stops limit 0 text with ⟨log, e, rest, hy⟩ | ⟨log, r, hs⟩
  · exact hverdict hy.verdict
  · cases hs.stopsAt with
    | invalid => exact hverdict hs.verdict
    | ended =>
      refine ⟨fun _ => compile_eq_error_iff.mpr (.inl ⟨log, hs⟩), fun i hi => ?_⟩
      exact absurd hi.1 (hs.not_decidesAt_of_ended i)
    | deep =>
      have := hs.lt_operatorCount rfl
      omega

/-- Of four terms the third is empty, with an operand still due. -/
theorem compile_of_need_empty_term :
    let text : Text := "- x2  x1".toList
    text.operatorCount ≤ 1 ∧ IsLeast {i | text.DecidesAt i} 2 ∧ text.InvalidAt 2 ∧
      compile 1 text = .error ⟨.invalidTerm, 5⟩ := by
  intro text
  have hterms : text.terms = [['-'], ['x', '2'], [], ['x', '1']] := by decide +kernel
  have hread : text.terms.map Term.ofText? =
      [some (.op .sub), some (.var 2), none, some (.var 1)] := by
    rw [hterms]
    decide
  have hcount : text.operatorCount ≤ 1 := by
    rw [Text.operatorCount, hterms]
    decide
  have hinvalid : text.InvalidAt 2 := by
    rw [Text.InvalidAt, ← List.getElem?_map, hread]
    rfl
  have hprefix : [Term.op .sub, .var 2].map some <+: text.terms.map Term.ofText? :=
    hread ▸ List.prefix_append _ _
  have hbefore (j : Nat) (hj : j < 2) : ¬ text.DecidesAt j := by
    refine Text.not_decidesAt_of_isPrefix hprefix hj ?_
    match j, hj with
    | 0, _ => decide
    | 1, _ => decide
  have hleast : IsLeast {i | text.DecidesAt i} 2 :=
    ⟨⟨hterms ▸ (by decide), .inl hinvalid⟩, fun j hj => Nat.le_of_not_lt fun hlt => hbefore j hlt hj⟩
  have hoffset : text.offset 2 = 5 := by decide
  exact ⟨hcount, hleast, hinvalid, hoffset ▸ ((compile_of_need hcount).2 2 hleast).invalid hinvalid⟩

end PolishArithmetic
