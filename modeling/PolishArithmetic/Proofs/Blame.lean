import PolishArithmetic.Proofs.DepthLimit
import PolishArithmetic.Proofs.Spans

/-!
What the diagnostic of a rejected text is about. The rejection says at which byte a fault shows, and
the span is found from the byte and the text anew; it covers the faulty part and nothing else.
-/
namespace PolishArithmetic

/-- The part is all of a term, from the space in front of it to the space behind it. -/
def Text.IsWholeTerm (before part after : Text) : Prop :=
  (before = [] ∨ before.getLast? = some ' ') ∧ IsRun part after

/-- What a diagnostic says of the part under its span, which has `before` in front of it and `after`
behind it, and what that part is. -/
def Diagnostic.Shows (d : Diagnostic) (limit : Nat) (before part after : Text) : Fault → Prop
  | .unexpectedEnd => part = [] ∧ after = []
  | .unexpectedContinuation => part ≠ [] ∧ after = [] ∧ before.getLast? = some ' '
  | .invalidTerm =>
    Text.IsWholeTerm before part after ∧ Term.ofText? part = none ∧
      (d.message = "Empty term".toList ↔ (part ++ after).head? = some ' ') ∧
      (d.message ≠ "Empty term".toList → d.Quotes part)
  | .tooDeep named => named = limit ∧ ∃ op : Operator, part = [op.symbol]

theorem Awaits.isWholeTerm {limit inner : Nat} {before part after : Text}
    (h : Awaits limit 0 before inner) (hrun : Text.IsRun part after) :
    Text.IsWholeTerm before part after := by
  refine ⟨?_, hrun⟩
  by_cases hne : before = []
  · exact .inl hne
  · exact .inr (h.getLast?_eq hne)

/-- The span of the rejection starts at its byte, and the diagnostic says what is there. -/
def Rejection.IsShown (r : Rejection) (limit : Nat) (text : Text) : Prop :=
  ∃ before part after, (r.span text).Covers text before part after ∧
    r.position = before.byteLength ∧ (r.diagnostic text).Shows limit before part after r.fault

theorem StopsAt.isShown {limit : Nat} {text : Text} {r : Rejection} (h : StopsAt limit 0 text r) :
    r.IsShown limit text := by
  cases h with
  | ended => exact ⟨text, [], [], Rejection.covers_end rfl rfl, rfl, rfl, rfl⟩
  | @invalid before rest inner ha ht hne hterm =>
    subst ht
    have hterms : (Rejection.mk .invalidTerm before.byteLength).IsAboutTerm := .inl rfl
    obtain ⟨after, hafter, hrun, hc⟩ := Rejection.covers_firstTerm hterms rfl
    exact ⟨before, rest.firstTerm, after, hc, rfl, ha.isWholeTerm hrun, hterm,
      Rejection.message_of_covers rfl hc hrun (hafter ▸ hne)⟩
  | @deep before rest inner op ha ht hterm hinner =>
    subst ht
    have hterms : (Rejection.mk (.tooDeep limit) before.byteLength).IsAboutTerm :=
      .inr ⟨limit, rfl⟩
    obtain ⟨after, -, -, hc⟩ := Rejection.covers_firstTerm hterms rfl
    exact ⟨before, rest.firstTerm, after, hc, rfl, rfl, op, Term.eq_symbol_of_ofText? hterm⟩

/-- What is left over starts behind the space that ends the expression. -/
theorem Yields.isShown {limit : Nat} {text rest : Text} {log : List Sighting} {e : Expr}
    (h : Yields limit 0 text log e rest) (hrest : rest ≠ []) :
    (Rejection.mk .unexpectedContinuation (text.byteLength - rest.byteLength)).IsShown
      limit text := by
  obtain ⟨-, s, -, hsplit⟩ := h.derives
  obtain rfl : text = (s ++ [' ']) ++ rest := by simpa using hsplit.eq_append hrest
  have hposition :
      ((s ++ [' ']) ++ rest).byteLength - rest.byteLength = (s ++ [' ']).byteLength := by
    rw [Text.byteLength_append, Nat.add_sub_cancel]
  refine ⟨s ++ [' '], rest, [], ?_, hposition, hrest, rfl, List.getLast?_concat⟩
  exact Rejection.covers_rest rfl hposition

theorem Rejection.isShown_of_compile {limit : Nat} {text : Text} {r : Rejection}
    (h : compile limit text = .error r) : r.IsShown limit text := by
  rcases compile_eq_error_iff.mp h with ⟨log, hs⟩ | ⟨log, e, rest, hy, hrest, rfl⟩
  · exact hs.stopsAt.isShown
  · exact hy.isShown hrest

/-- The diagnostic of a rejected text is about the part at fault, from the byte of the rejection on:
a term that is none, an operator that is too deep, all that follows a whole expression, or nothing
at the end of the text. -/
theorem diagnostic_shows_fault {limit : Nat} {text : Text} {r : Rejection}
    (h : compile limit text = .error r) :
    (r.diagnostic text).span.start = r.position ∧
    text.IsBoundary (r.diagnostic text).span.start ∧
    text.IsBoundary (r.diagnostic text).span.stop ∧
    ∃ before part after, (r.diagnostic text).span.Covers text before part after ∧
      (r.diagnostic text).span.text? text = some part ∧
      (r.diagnostic text).Shows limit before part after r.fault := by
  obtain ⟨before, part, after, hc, hposition, hshows⟩ := Rejection.isShown_of_compile h
  rw [r.span_diagnostic text]
  exact ⟨hc.start_eq.trans hposition.symm, hc.isBoundary_start, hc.isBoundary_stop, before, part,
    after, hc, hc.text?_eq, hshows⟩

/-- Of two words that are no terms the first one is quoted, from its own first byte to its last. -/
theorem diagnostic_shows_fault_wide :
    let text : Text := "+ x1 日本 é".toList
    let r : Rejection := ⟨.invalidTerm, 5⟩
    compile 3 text = .error r ∧ (r.diagnostic text).span.start = 5 ∧
      (r.diagnostic text).span.text? text = some "日本".toList ∧
      (r.diagnostic text).Quotes "日本".toList := by
  intro text r
  have hleft : Derives "x1".toList (.var 1) := .var (by decide) (by decide)
  have hawaits : Awaits 3 0 "+ x1 ".toList 1 := .right .add (by decide) hleft (by decide) .here
  have hstops : Stops 3 1 "日本 é".toList [] ⟨.invalidTerm, 0⟩ := .invalid (by decide) (by decide)
  have hc : compile 3 text = .error r := compile_of_awaits hawaits hstops
  obtain ⟨hstart, -, -, before, part, after, -, htext, -, -, -, hquotes⟩ :=
    diagnostic_shows_fault hc
  have hword : (r.diagnostic text).span.text? text = some "日本".toList := by decide
  obtain rfl : part = "日本".toList := Option.some.inj (htext.symm.trans hword)
  exact ⟨hc, hstart, htext, hquotes (by decide)⟩

end PolishArithmetic
