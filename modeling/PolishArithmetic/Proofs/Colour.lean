import PolishArithmetic.Proofs.Blame
import PolishArithmetic.Proofs.ReportRows

/-!
Colours of a report. A coloured report without its colour sequences is the report without colours:
no text that is drawn has an escape in it, so nothing else is taken for a sequence.
-/
namespace PolishArithmetic

open Piece (escape)

namespace Text

def isColourMark (c : Char) : Bool :=
  c.isDigit || c = ';'

/-- An escape, a bracket, numbers and semicolons, and the letter for colours. -/
def IsColourSequence (text : Text) : Prop :=
  ∃ marks : Text, marks.all isColourMark = true ∧ text = escape :: '[' :: (marks ++ ['m'])

/-- What follows the colour sequence at the start of the text. -/
def afterSequence? : Text → Option Text
  | '\x1b' :: '[' :: text =>
    match text.dropWhile isColourMark with
    | 'm' :: rest => some rest
    | _ => none
  | _ => none

variable {text rest sequence : Text} {c : Char}

theorem afterSequence?_eq_some_iff : afterSequence? text = some rest ↔
    ∃ sequence, IsColourSequence sequence ∧ text = sequence ++ rest := by
  constructor
  · intro h
    unfold afterSequence? at h
    split at h
    · next text =>
      split at h
      · next hdrop =>
        cases h
        refine ⟨_, ⟨text.takeWhile isColourMark, List.all_takeWhile, rfl⟩, ?_⟩
        have htext := @List.takeWhile_append_dropWhile _ isColourMark text
        rw [hdrop] at htext
        simp [escape, htext]
      · cases h
    · cases h
  · rintro ⟨_, ⟨marks, hmarks, rfl⟩, rfl⟩
    have hdrop : (marks ++ 'm' :: rest).dropWhile isColourMark =
        ('m' :: rest).dropWhile isColourMark :=
      List.dropWhile_append_of_pos (List.all_eq_true.mp hmarks)
    simp [afterSequence?, escape, hdrop, isColourMark]

theorem length_lt_of_afterSequence? (h : afterSequence? text = some rest) :
    rest.length < text.length := by
  obtain ⟨_, ⟨marks, -, rfl⟩, rfl⟩ := afterSequence?_eq_some_iff.mp h
  simp
  omega

/-- The text with every colour sequence taken out. -/
def withoutColours : Text → Text
  | [] => []
  | c :: text =>
    match _ : afterSequence? (c :: text) with
    | some rest => withoutColours rest
    | none => c :: withoutColours text
termination_by text => text.length
decreasing_by
  · apply length_lt_of_afterSequence?
    assumption
  · simp

@[simp] theorem withoutColours_nil : withoutColours [] = [] := by
  simp [withoutColours]

theorem withoutColours_cons_of_ne (hc : c ≠ escape) :
    withoutColours (c :: text) = c :: withoutColours text := by
  rw [withoutColours]
  split
  · next h =>
    obtain ⟨_, ⟨marks, -, rfl⟩, heq⟩ := afterSequence?_eq_some_iff.mp h
    cases heq
    contradiction
  · rfl

theorem withoutColours_append (h : escape ∉ text) :
    withoutColours (text ++ rest) = text ++ withoutColours rest := by
  induction text with
  | nil => rfl
  | cons c text ih =>
    obtain ⟨hc, htext⟩ := List.ne_and_not_mem_of_not_mem_cons h
    simp [withoutColours_cons_of_ne hc.symm, ih htext]

theorem withoutColours_sequence_append (h : IsColourSequence sequence) :
    withoutColours (sequence ++ rest) = withoutColours rest := by
  have hafter : afterSequence? (sequence ++ rest) = some rest :=
    afterSequence?_eq_some_iff.mpr ⟨sequence, h, rfl⟩
  obtain ⟨marks, -, rfl⟩ := h
  rw [List.cons_append] at hafter ⊢
  rw [withoutColours]
  split
  · next hsome => rw [Option.some.inj (hsome.symm.trans hafter)]
  · next hnone => cases hnone.symm.trans hafter

end Text

theorem Ink.all_isColourMark_code (ink : Ink) : ink.code.all Text.isColourMark = true := by
  cases ink <;> decide

theorem Piece.withoutColours_write {p : Piece} {rest : Text} (h : escape ∉ p.text) :
    (p.write true ++ rest).withoutColours = p.text ++ rest.withoutColours := by
  obtain ⟨ink, text⟩ := p
  cases ink with
  | none => exact Text.withoutColours_append h
  | some ink =>
    have hstart : Text.IsColourSequence (escape :: '[' :: (ink.code ++ ['m'])) :=
      ⟨ink.code, ink.all_isColourMark_code, rfl⟩
    have hstop : Text.IsColourSequence [escape, '[', '0', 'm'] := ⟨['0'], by decide, rfl⟩
    have hsplit : (Piece.mk (some ink) text).write true ++ rest =
        (escape :: '[' :: (ink.code ++ ['m'])) ++ (text ++ ([escape, '[', '0', 'm'] ++ rest)) := by
      simp [write]
    rw [hsplit, Text.withoutColours_sequence_append hstart, Text.withoutColours_append h,
      Text.withoutColours_sequence_append hstop]

/-- Between two pieces no sequence starts. -/
theorem Piece.withoutColours_flatMap_write {pieces : List Piece}
    (h : ∀ p ∈ pieces, escape ∉ p.text) :
    Text.withoutColours (pieces.flatMap (write true)) = pieces.flatMap text := by
  induction pieces with
  | nil => simp
  | cons p pieces ih =>
    obtain ⟨hp, hpieces⟩ := List.forall_mem_cons.mp h
    simp [withoutColours_write hp, ih hpieces]

theorem Report.escape_not_mem_drawing {r : Rejection} {source : Text} (h : escape ∉ source) :
    ∀ p ∈ drawing r source, escape ∉ p.text := by
  intro p hp
  obtain ⟨row, hrow, hp⟩ := List.mem_flatMap.mp (drawing_eq_rows r source ▸ hp)
  rcases List.mem_append.mp hp with hp | hp
  · have hdrawn := (drawnFrom_rows row hrow).not_mem (by decide) h
    intro hescape
    exact hdrawn (List.mem_flatMap.mpr ⟨p, hp, hescape⟩)
  · rw [List.mem_singleton.mp hp]
    decide

theorem Rejection.escape_not_mem_text {r : Rejection} {source : Text} (h : escape ∉ source) :
    escape ∉ (r.diagnostic source).text := by
  obtain ⟨hmessage, hcode, hhelp⟩ := drawnFrom_of_diagnostic? (r.diagnostic?_eq source)
  have hdrawn {t : Text} (ht : t.DrawnFrom source) : escape ∉ t := ht.not_mem (by decide) h
  unfold Diagnostic.text
  simp only [List.mem_append, List.mem_flatMap, not_or, not_exists, not_and]
  refine ⟨⟨⟨by decide, hdrawn hmessage⟩, ?_⟩, ?_⟩
  · split
    · next code hsome =>
      simp only [List.mem_append, not_or]
      exact ⟨⟨by decide, hdrawn (hcode code hsome)⟩, by decide⟩
    · simp
  · intro text htext
    exact ⟨by decide, hdrawn (hhelp text htext)⟩

/-- Colour adds its sequences to a report and nothing else. Texts that look like the end of a
sequence may stand in the source, which is drawn as one line. -/
theorem withoutColours_report (r : Rejection) {source : Text} (h : escape ∉ source) :
    (r.report true source).withoutColours = r.report false source ∧
      escape ∉ r.report false source ∧
      (source = [] → r.report true source = r.report false source) ∧
      (source ≠ [] → escape ∈ r.report true source) := by
  have hdrawing := @Report.escape_not_mem_drawing r source h
  unfold Rejection.report
  split
  · next hempty =>
    have htext : escape ∉ (r.diagnostic source).text ++ ['\n'] := by
      rw [List.mem_append, not_or]
      exact ⟨r.escape_not_mem_text h, by decide⟩
    refine ⟨?_, htext, fun _ => rfl, fun hne => absurd hempty hne⟩
    simpa using @Text.withoutColours_append _ [] htext
  · next hne =>
    refine ⟨?_, ?_, fun hempty => absurd hempty hne, fun _ => ?_⟩
    · rw [Piece.withoutColours_flatMap_write hdrawing, Piece.write_false]
    · simpa [List.mem_flatMap] using hdrawing
    · -- The title comes first and is never without its colour.
      simp [Report.drawing, Report.heading, Piece.inked, Piece.write]

theorem withoutColours_report_brackets :
    let source : Text := "+ [31m 1".toList
    let r : Rejection := ⟨.invalidTerm, 2⟩
    compile 3 source = .error r ∧ escape ∉ source ∧ source ≠ [] ∧ source.IsOneLine ∧
      (r.report true source).withoutColours = r.report false source ∧
      escape ∈ r.report true source ∧ escape ∉ r.report false source := by
  intro source r
  have hstops : Stops 3 1 "[31m 1".toList [] ⟨.invalidTerm, 0⟩ := .invalid (by decide) (by decide)
  have hc : compile 3 source = .error r :=
    compile_of_awaits (.left .add (by decide) .here) hstops
  have hsource : escape ∉ source := by decide
  obtain ⟨hsame, hplain, -, hcoloured⟩ := withoutColours_report r hsource
  exact ⟨hc, hsource, by decide, by decide, hsame, hcoloured (by decide), hplain⟩

end PolishArithmetic
