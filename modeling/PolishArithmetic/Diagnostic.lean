import PolishArithmetic.Rejection
import PolishArithmetic.Term

/-!
Diagnostics: a rejection explained to the writer of the text, with the part of the text that it is
about. A rejection may be explained against any text, also one that it does not come from.
-/
namespace PolishArithmetic

structure Diagnostic where
  message : Text
  span : Span
  help : List Text
  code : Option Text
  deriving DecidableEq, Repr

namespace Diagnostic

def severity : Text := "error".toList

def text (d : Diagnostic) : Text :=
  severity ++ ": ".toList ++ d.message ++
    (match d.code with
      | some code => " [".toList ++ code ++ [']']
      | none => []) ++
    d.help.flatMap ("\nhelp: ".toList ++ ·)

end Diagnostic

/-- The first term behind a place in the source is what its span cuts out. -/
theorem Span.text?_firstTerm {source rest : Text} {start : Nat}
    (h : source.dropBytes? start = some rest) :
    text? ⟨start, start + rest.firstTerm.byteLength⟩ source = some rest.firstTerm := by
  have hrest : rest.firstTerm ++ rest.dropWhile (· ≠ ' ') = rest := List.takeWhile_append_dropWhile
  have htake := Text.takeBytes?_byteLength_append rest.firstTerm (rest.dropWhile (· ≠ ' '))
  rw [hrest] at htake
  rw [text?, if_pos (Nat.le_add_right _ _), h, Option.bind_some, Nat.add_sub_cancel_left]
  exact htake

namespace Rejection

/-- The term at the position, all the rest for a continuation, nothing at an unexpected end. -/
def span (r : Rejection) (source : Text) : Span :=
  let start := min r.position source.byteLength
  match r.fault with
  | .unexpectedEnd => ⟨start, start⟩
  | .unexpectedContinuation => ⟨start, source.byteLength⟩
  | .invalidTerm | .tooDeep _ =>
    match source.dropBytes? start with
    | some rest => ⟨start, start + rest.firstTerm.byteLength⟩
    | none => ⟨start, start⟩

/-- None if a term would have to be quoted that cannot be cut out of the source. -/
def diagnostic? (r : Rejection) (source : Text) : Option Diagnostic := do
  let span := r.span source
  match r.fault with
  | .unexpectedEnd =>
    return {
      message := "Unexpected end of expression".toList
      span
      help := ["Every operator needs exactly two operands".toList]
      code := some "C001".toList }
  | .unexpectedContinuation =>
    return {
      message := "Unexpected continuation of expression".toList
      span
      help := ["The expression is already complete here; remove the trailing terms".toList]
      code := some "C002".toList }
  | .invalidTerm =>
    if span.isEmpty then
      return {
        message := "Empty term".toList
        span
        help := ["Terms are separated by exactly one space".toList]
        code := some "C003".toList }
    else
      let term ← span.text? source
      return {
        message := "Invalid term '".toList ++ term ++ ['\'']
        span
        help := ["Terms are operators (+ - * /), variables (x0, x1, ...) or decimal numbers".toList]
        code := some "C003".toList }
  | .tooDeep limit =>
    return {
      message := "Expression nesting depth exceeds maximum of ".toList ++
        Nat.toDigits 10 limit ++ " levels".toList
      span
      help := ["Reduce nesting or simplify the expression".toList]
      code := some "C004".toList }

/-- A term that is to be quoted can be cut out, also of a source that the rejection is not about. -/
theorem isSome_text?_span {r : Rejection} {source : Text} (hfault : r.fault = .invalidTerm)
    (hspan : (r.span source).isEmpty = false) : ((r.span source).text? source).isSome := by
  rw [span] at *
  simp only [hfault] at *
  split at hspan
  · next rest hrest => rw [Span.text?_firstTerm hrest, Option.isSome_some]
  · simp [Span.isEmpty] at hspan

theorem isSome_diagnostic? (r : Rejection) (source : Text) : (r.diagnostic? source).isSome := by
  unfold diagnostic?
  cases hfault : r.fault with
  | unexpectedEnd => rfl
  | unexpectedContinuation => rfl
  | tooDeep limit => rfl
  | invalidTerm =>
    cases hspan : (r.span source).isEmpty with
    | true => simp [hspan]
    | false =>
      obtain ⟨term, hterm⟩ := Option.isSome_iff_exists.mp (isSome_text?_span hfault hspan)
      simp [hspan, hterm]

def diagnostic (r : Rejection) (source : Text) : Diagnostic :=
  (r.diagnostic? source).get (r.isSome_diagnostic? source)

end Rejection

end PolishArithmetic
