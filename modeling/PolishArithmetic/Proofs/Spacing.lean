import PolishArithmetic.Proofs.Spans
import PolishArithmetic.Proofs.TermPlaces
import PolishArithmetic.Proofs.ViablePrefix

/-!
Spaces that are one too many. In front of a term they are an empty term, wherever in the expression
the term is; behind the last one a single space is passed over, and any more are what is left over.
-/
namespace PolishArithmetic

namespace Text

/-- The text with `k` more spaces in front of its term `i`. -/
def insertSpaces (text : Text) (i k : Nat) : Text :=
  text.upToTerm i ++ (List.replicate k ' ' ++ text.fromTerm i)

theorem byteLength_replicate_space (k : Nat) : byteLength (List.replicate k ' ') = k := by
  induction k with
  | zero => rfl
  | succ k ih => rw [List.replicate_succ, byteLength_cons, ih, utf8Size_space, Nat.add_comm]

theorem upToNext_eq {text : Text} (h : text.afterTerm ≠ []) :
    text.upToNext = text.firstTerm ++ [' '] := by
  have htext := text.splits_firstTerm.eq_append h
  rw [List.append_cons] at htext
  exact List.append_cancel_right (text.upToNext_append_afterTerm.trans htext)

end Text

section

variable {limit depth : Nat} {text rest : Text} {log : List Sighting} {e : Expr}

/-- In front of each of its terms the text of an expression awaits an operand. -/
theorem Yields.awaits (h : Yields limit depth text log e rest) {i : Nat} (hi : i < log.length) :
    ∃ inner, Awaits limit depth (text.upToTerm i) inner := by
  induction h generalizing i with
  | leaf =>
    obtain rfl : i = 0 := Nat.lt_one_iff.mp hi
    exact ⟨_, .here⟩
  | @binary depth text mid _ op left _ log log' hterm hdepth hl hr ihl ihr =>
    cases i with
    | zero => exact ⟨_, .here⟩
    | succ i =>
      rw [List.length_cons, List.length_append] at hi
      rw [Text.upToTerm_succ, Text.upToNext_eq hl.text_ne_nil, Term.eq_symbol_of_ofText? hterm]
      by_cases hleft : i < log.length
      · obtain ⟨inner, ha⟩ := ihl hleft
        exact ⟨inner, .left op hdepth ha⟩
      · obtain ⟨j, rfl⟩ := Nat.exists_eq_add_of_le (Nat.not_lt.mp hleft)
        obtain ⟨inner, ha⟩ := ihr (show j < log'.length by omega)
        obtain ⟨hn, s, hs, hsplit⟩ := hl.derives
        have hpassed : text.afterTerm.upToTerm log.length = s ++ [' '] := by
          have hwhole := text.afterTerm.upToTerm_append_fromTerm log.length
          have htext := hsplit.eq_append hr.text_ne_nil
          rw [List.append_cons] at htext
          rw [hl.fromTerm_eq] at hwhole
          exact List.append_cancel_right (hwhole.trans htext)
        rw [Text.upToTerm_add, hl.fromTerm_eq, hpassed]
        exact ⟨inner, by simpa using Awaits.right op hdepth hs hn ha⟩

end

/-- A term in front of another space is explained as an empty one. -/
theorem Rejection.diagnostic_of_empty (before rest : Text) :
    let r : Rejection := ⟨.invalidTerm, before.byteLength⟩
    (r.diagnostic (before ++ ' ' :: rest)).span = ⟨before.byteLength, before.byteLength⟩ ∧
      (r.diagnostic (before ++ ' ' :: rest)).message = "Empty term".toList := by
  intro r
  have hfirst : Text.firstTerm (' ' :: rest) = [] := rfl
  obtain ⟨after, hafter, hrun, hc⟩ : ∃ after, ' ' :: rest = [] ++ after ∧ Text.IsRun [] after ∧
      (r.span (before ++ ' ' :: rest)).Covers (before ++ ' ' :: rest) before [] after :=
    hfirst ▸ covers_firstTerm (.inl rfl) rfl
  constructor
  · rw [span_diagnostic]
    exact hc.eq_mk
  · exact (message_of_covers rfl hc hrun (hafter ▸ List.cons_ne_nil _ _)).1.mpr (hafter ▸ rfl)

/-- Of the spaces behind a text all but the first are left over. -/
theorem Rejection.span_of_spaces (text : Text) (k : Nat) :
    (diagnostic ⟨.unexpectedContinuation, text.byteLength + 1⟩
      (text ++ List.replicate (k + 2) ' ')).span =
        ⟨text.byteLength + 1, text.byteLength + (k + 2)⟩ := by
  have hspaces : text ++ List.replicate (k + 2) ' ' =
      (text ++ [' ']) ++ List.replicate (k + 1) ' ' :=
    (List.append_assoc text [' '] (List.replicate (k + 1) ' ')).symm
  have hposition : text.byteLength + 1 = (text ++ [' ']).byteLength :=
    (Text.byteLength_append text [' ']).symm
  rw [span_diagnostic, hspaces, (covers_rest rfl hposition).eq_mk, ← hposition,
    Text.byteLength_replicate_space, Nat.add_assoc, Nat.add_comm 1]

/-- Of a text that compiles and does not end with a space: further spaces in front of a term are an
empty term there, a space at the end is passed over, and what follows that one is left over. -/
theorem compile_spaces {limit : Nat} {text : Text} {e : Expr} (h : compile limit text = .ok e)
    (hlast : text.getLast? ≠ some ' ') :
    (∀ i < text.terms.length, ∀ k, 1 ≤ k →
      let r : Rejection := ⟨.invalidTerm, text.offset i⟩
      let d := r.diagnostic (text.insertSpaces i k)
      compile limit (text.insertSpaces i k) = .error r ∧
        d.span = ⟨text.offset i, text.offset i⟩ ∧ d.message = "Empty term".toList) ∧
    compile limit (text ++ [' ']) = .ok e ∧
    ∀ k, 2 ≤ k →
      let r : Rejection := ⟨.unexpectedContinuation, text.byteLength + 1⟩
      compile limit (text ++ List.replicate k ' ') = .error r ∧
        (r.diagnostic (text ++ List.replicate k ' ')).span =
          ⟨text.byteLength + 1, text.byteLength + k⟩ := by
  have hn := (compile_eq_ok_iff.mp h).1
  have hderives := derives_of_compile h hlast
  refine ⟨fun i hi k hk => ?_, ?_, fun k hk => ?_⟩
  · obtain ⟨log, hy⟩ := compile_eq_ok_iff_yields.mp h
    obtain ⟨inner, ha⟩ := hy.awaits (show i < log.length by simpa [hy.terms_eq] using hi)
    obtain ⟨k, rfl⟩ := Nat.exists_eq_add_of_le' hk
    have hempty : Term.ofText? (Text.firstTerm (' ' :: (List.replicate k ' ' ++ text.fromTerm i))) =
        none := Term.ofText?_nil
    exact ⟨compile_of_awaits ha (.invalid (List.cons_ne_nil _ _) hempty),
      Rejection.diagnostic_of_empty _ _⟩
  · exact compile_eq_ok_iff.mpr ⟨hn, text, hderives, Text.splits_append text []⟩
  · obtain ⟨k, rfl⟩ := Nat.exists_eq_add_of_le' hk
    exact ⟨hderives.compile_append hn (List.cons_ne_nil ' ' (List.replicate k ' ')),
      Rejection.span_of_spaces text k⟩

/-- Two more spaces in front of a left operand, and three at the end. -/
theorem compile_spaces_nested :
    let text : Text := "- * x2 x1 x3".toList
    let r : Rejection := ⟨.invalidTerm, 4⟩
    compile 2 text = .ok (.binary .sub (.binary .mul (.var 2) (.var 1)) (.var 3)) ∧
      text.insertSpaces 2 2 = "- *   x2 x1 x3".toList ∧
      compile 2 (text.insertSpaces 2 2) = .error r ∧
      (r.diagnostic (text.insertSpaces 2 2)).message = "Empty term".toList ∧
      compile 2 (text ++ "   ".toList) = .error ⟨.unexpectedContinuation, 13⟩ := by
  intro text r
  have hx : Derives "x2".toList (.var 2) := .var (by decide) (by decide)
  have hy : Derives "x1".toList (.var 1) := .var (by decide) (by decide)
  have hz : Derives "x3".toList (.var 3) := .var (by decide) (by decide)
  have hc : compile 2 text = .ok (.binary .sub (.binary .mul (.var 2) (.var 1)) (.var 3)) :=
    (Derives.binary (Term.ofText?_symbol .sub)
      (.binary (Term.ofText?_symbol .mul) hx hy) hz).compile (by decide)
  have hterms : 2 < text.terms.length := by
    have hlen : text.terms.length = 5 := by decide +kernel
    omega
  obtain ⟨hinside, -, hbehind⟩ := compile_spaces hc (by decide)
  obtain ⟨herror, -, hmessage⟩ := hinside 2 hterms 2 (by decide)
  exact ⟨hc, by decide, herror, hmessage, (hbehind 3 (by decide)).1⟩

end PolishArithmetic
