import Mathlib.Data.List.DropRight
import PolishArithmetic.Proofs.Spans
import PolishArithmetic.Report

/-!
The rows of a report. All that is written in a row can be printed or stands in the source, so the
rows of a report on one line are lines too.
-/
namespace PolishArithmetic

namespace Text

/-- A character that is no control character of ASCII and ends no line. -/
@[simp] def IsPrinted (c : Char) : Prop :=
  ' ' ≤ c ∧ c ≠ '\u0085' ∧ c ≠ '\u2028' ∧ c ≠ '\u2029'

instance (c : Char) : Decidable (IsPrinted c) :=
  inferInstanceAs (Decidable (_ ∧ _))

/-- Every character of the text can be printed or stands in the source. -/
def DrawnFrom (text source : Text) : Prop :=
  ∀ c ∈ text, IsPrinted c ∨ c ∈ source

variable {source s t : Text} {c : Char}

@[simp] theorem drawnFrom_nil : DrawnFrom [] source := by
  simp [DrawnFrom]

@[simp] theorem drawnFrom_cons :
    DrawnFrom (c :: t) source ↔ (IsPrinted c ∨ c ∈ source) ∧ DrawnFrom t source := by
  simp [DrawnFrom]

@[simp] theorem drawnFrom_append :
    DrawnFrom (s ++ t) source ↔ DrawnFrom s source ∧ DrawnFrom t source := by
  simp only [DrawnFrom, List.forall_mem_append]

@[simp] theorem drawnFrom_flatMap {α : Type} {l : List α} {f : α → Text} :
    DrawnFrom (l.flatMap f) source ↔ ∀ a ∈ l, DrawnFrom (f a) source := by
  simp only [DrawnFrom, List.mem_flatMap]
  constructor
  · intro h a ha c hc
    exact h c ⟨a, ha, hc⟩
  · rintro h c ⟨a, ha, hc⟩
    exact h a ha c hc

@[simp] theorem drawnFrom_toDigits (n : Nat) : DrawnFrom (Nat.toDigits 10 n) source := by
  intro c hc
  have hdigit := Nat.isDigit_of_mem_toDigits (by decide) (by decide) hc
  simp only [Char.isDigit, Bool.and_eq_true, decide_eq_true_eq] at hdigit
  refine .inl ⟨UInt32.le_trans (by decide) hdigit.1, ?_, ?_, ?_⟩ <;>
    · rintro rfl
      exact absurd hdigit.2 (by decide)

/-- A control character comes from the source or is not there. -/
theorem DrawnFrom.not_mem (h : DrawnFrom t source) (hc : ¬ IsPrinted c) (hsource : c ∉ source) :
    c ∉ t := by
  intro hmem
  rcases h c hmem with h | h
  · exact hc h
  · exact hsource h

theorem not_isPrinted_of_mem : ∀ c ∈ lineTerminators, ¬ IsPrinted c := by
  simp [lineTerminators]

theorem DrawnFrom.isOneLine (h : DrawnFrom t source) (hsource : source.IsOneLine) :
    t.IsOneLine := by
  intro c hc
  exact h.not_mem (not_isPrinted_of_mem c hc) (hsource c hc)

theorem IsOneLine.newline_not_mem (h : source.IsOneLine) : '\n' ∉ source :=
  h '\n' (by decide)

/-- Lines that hold no newline are read back from the text in which each ends with one. -/
theorem splitOn_flatMap_newline {lines : List Text} (h : ∀ line ∈ lines, '\n' ∉ line) :
    (lines.flatMap (· ++ ['\n'])).splitOn '\n' = lines ++ [[]] := by
  induction lines with
  | nil => rfl
  | cons line lines ih =>
    simp only [List.forall_mem_cons] at h
    obtain ⟨hline, hlines⟩ := h
    have hcons : (line ++ '\n' :: lines.flatMap (· ++ ['\n'])).splitOn '\n' =
        line.splitOn '\n' ++ (lines.flatMap (· ++ ['\n'])).splitOn '\n' :=
      List.splitOnP_append_cons _ _ rfl
    rw [List.splitOn_eq_singleton hline, ih hlines] at hcons
    simpa using hcons

end Text

namespace Rejection

variable {r : Rejection} {source part : Text} {d : Diagnostic}

theorem drawnFrom_of_text? {s : Span} (h : s.text? source = some part) :
    part.DrawnFrom source := by
  obtain ⟨before, after, hc⟩ := Span.text?_eq_some_iff.mp h
  intro c hmem
  simp [hc.eq_append, hmem]

/-- The texts of a diagnostic are fixed but for the limit and the term that is quoted. -/
theorem drawnFrom_of_diagnostic? (h : r.diagnostic? source = some d) :
    d.message.DrawnFrom source ∧ (∀ code ∈ d.code, code.DrawnFrom source) ∧
      ∀ text ∈ d.help, text.DrawnFrom source := by
  simp only [diagnostic?] at h
  split at h
  case h_3 =>
    split at h
    · cases h
      simp
    · obtain ⟨term, hterm, h⟩ := Option.bind_eq_some_iff.mp h
      cases h
      simp [drawnFrom_of_text? hterm]
  all_goals
    cases h
    simp

theorem drawnFrom_label (r : Rejection) (source : Text) :
    (Report.label r.fault (r.diagnostic source)).DrawnFrom source := by
  have hmessage := (drawnFrom_of_diagnostic? (r.diagnostic?_eq source)).1
  unfold Report.label
  split
  · simp
  · exact hmessage

end Rejection

@[simp] theorem Piece.write_false : write false = text := by
  funext p
  cases p with
  | mk ink text => cases ink <;> rfl

namespace Report

open Piece

/-- What a row says without colours. -/
def rowText (row : List Piece) : Text :=
  row.flatMap Piece.text

@[simp] theorem rowText_nil : rowText [] = [] := rfl

@[simp] theorem rowText_cons (p : Piece) (row : List Piece) :
    rowText (p :: row) = p.text ++ rowText row := rfl

@[simp] theorem rowText_append (row row' : List Piece) :
    rowText (row ++ row') = rowText row ++ rowText row' :=
  List.flatMap_append

@[simp] theorem rowText_flatMap {α : Type} (l : List α) (f : α → List Piece) :
    rowText (l.flatMap f) = l.flatMap fun a => rowText (f a) :=
  List.flatMap_assoc

/-- The rows of a drawing, from the title to the rule at its end. -/
def rows (r : Rejection) (source : Text) : List (List Piece) :=
  let d := r.diagnostic source
  let x := Extent.ofSpan source d.span
  [[inked .alarm (title d), plain (' ' :: d.message)],
    [plain "   ".toList, inked .frame ['╭'], inked .frame ['─'], inked .frame ['['],
      plain (" <expression>:1:".toList ++ Nat.toDigits 10 (x.first + 1) ++ [' ']),
      inked .frame [']']],
    [plain "   ".toList, inked .frame ['│']],
    plain [' '] :: inked .frame "1 │".toList :: plain [' '] :: drawnLine x source,
    margin ++ row x source underlineAt,
    margin ++ row x source arrowAt ++ [plain (' ' :: label r.fault d)]] ++
  d.help.flatMap (fun text =>
    [margin, margin ++ [inked .advice "Help".toList, plain (": ".toList ++ text)]]) ++
  [[inked .frame "───╯".toList]]

theorem drawing_eq_rows (r : Rejection) (source : Text) :
    drawing r source = (rows r source).flatMap (· ++ [lineEnd]) := by
  simp [drawing, rows, heading, body, advice, footing, List.flatMap_assoc]

theorem drawnPart_isPrefix (source : Text) : drawnPart source <+: source :=
  List.rdropWhile_prefix Cells.isBlank source

section

variable {x : Extent} {source : Text} {width index : Nat}

theorem drawnFrom_strip {head tail : Piece} (hhead : head.text.DrawnFrom source)
    (htail : tail.text.DrawnFrom source) : (rowText (strip head tail width)).DrawnFrom source := by
  cases width with
  | zero => simp [strip]
  | succ width => simp [strip, rowText, hhead, htail]

theorem drawnFrom_drawnLine : (rowText (drawnLine x source)).DrawnFrom source := by
  simp only [drawnLine, rowText_flatMap, Text.drawnFrom_flatMap]
  rintro ⟨c, index⟩ hc
  have hmem : c ∈ source := (drawnPart_isPrefix source).subset (List.fst_mem_of_mem_zipIdx hc)
  dsimp only
  unfold drawnChar
  dsimp only
  split
  · simp [rowText, inked]
  · simp [inked, hmem]

theorem drawnFrom_row {cells : Extent → Nat → Nat → List Piece}
    (hcells : ∀ width index, (rowText (cells x width index)).DrawnFrom source) :
    (rowText (row x source cells)).DrawnFrom source := by
  simp only [row, rowText_flatMap, Text.drawnFrom_flatMap]
  intro p _
  exact hcells p.1 p.2

theorem drawnFrom_underlineAt : (rowText (underlineAt x width index)).DrawnFrom source := by
  unfold underlineAt marks blankCells
  split <;> split <;> apply drawnFrom_strip <;> simp [plain, inked]

theorem drawnFrom_arrowAt : (rowText (arrowAt x width index)).DrawnFrom source := by
  unfold arrowAt marks blankCells
  split
  · apply drawnFrom_strip <;> simp [plain]
  · split <;> apply drawnFrom_strip <;> simp [inked]

end

theorem drawnFrom_rows {r : Rejection} {source : Text} :
    ∀ row ∈ rows r source, (rowText row).DrawnFrom source := by
  obtain ⟨hmessage, hcode, hhelp⟩ :=
    Rejection.drawnFrom_of_diagnostic? (r.diagnostic?_eq source)
  have hlabel := r.drawnFrom_label source
  have htitle : (title (r.diagnostic source)).DrawnFrom source := by
    unfold title
    split
    · next code h => simp [hcode code h]
    · simp
  have hunderline (x : Extent) : (rowText (row x source underlineAt)).DrawnFrom source :=
    drawnFrom_row fun _ _ => drawnFrom_underlineAt
  have harrow (x : Extent) : (rowText (row x source arrowAt)).DrawnFrom source :=
    drawnFrom_row fun _ _ => drawnFrom_arrowAt
  simp only [rows, List.forall_mem_append, List.forall_mem_cons, List.forall_mem_flatMap]
  refine ⟨⟨?_, ?_⟩, ?_⟩
  · simp [plain, inked, margin, htitle, hmessage, hlabel, drawnFrom_drawnLine, hunderline, harrow]
  · intro text htext
    simp [plain, inked, margin, hhelp text htext]
  · simp [inked]

end Report

namespace Rejection

open Report

variable {r : Rejection} {source : Text}

theorem report_false (h : source ≠ []) :
    r.report false source = ((rows r source).map rowText).flatMap (· ++ ['\n']) := by
  simp [report, h, drawing_eq_rows, rowText, lineEnd, Piece.plain, List.flatMap_map,
    List.flatMap_assoc]

/-- The lines of the report are its rows, if the source has no line end of its own. -/
theorem splitOn_report (h : source ≠ []) (hline : '\n' ∉ source) :
    (r.report false source).splitOn '\n' = (rows r source).map rowText ++ [[]] := by
  rw [report_false h]
  apply Text.splitOn_flatMap_newline
  rw [List.forall_mem_map]
  intro row hrow
  exact (drawnFrom_rows row hrow).not_mem (by decide) hline

/-- Whatever is taken for the end of a line, the report has none but the newlines behind its rows. -/
theorem isOneLine_of_mem_report (h : source ≠ []) (hline : source.IsOneLine) :
    ∀ line ∈ (r.report false source).splitOn '\n', Text.IsOneLine line := by
  rw [splitOn_report h hline.newline_not_mem, List.forall_mem_append, List.forall_mem_map]
  constructor
  · intro row hrow
    exact (drawnFrom_rows row hrow).isOneLine hline
  · simp [Text.IsOneLine]

end Rejection

end PolishArithmetic
