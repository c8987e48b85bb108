import Mathlib.Algebra.Ring.Nat
import Mathlib.Data.List.Intervals
import PolishArithmetic.Proofs.Blame
import PolishArithmetic.Proofs.ReportRows

/-!
The marks below a line. A row is drawn one character of the line after the other, so the cells in
front of a mark are those of the characters in front of the part that is marked.
-/
namespace PolishArithmetic

/-- The cells that a text takes on a terminal. -/
def Cells.textWidth (text : Text) : Nat :=
  (text.map width).sum

namespace Report

/-- The cells of the character at `index` of a line; beyond its end each takes one. -/
def cellsAt (text : Text) (index : Nat) : Nat :=
  match text[index]? with
  | some c => Cells.widthAt index c
  | none => 1

/-- The cells of the characters `first` to `stop`, without `stop`. -/
def cellsBetween (line : Text) (first stop : Nat) : Nat :=
  ((List.Ico first stop).map (cellsAt line)).sum

/-- What is drawn for each character of a line. White space is drawn as spaces. -/
def drawnChars (line : Text) : List Text :=
  line.zipIdx.map fun (c, index) =>
    if Cells.isBlank c then List.replicate (Cells.widthAt index c) ' ' else [c]

/-- A stroke under the characters `first` to `stop`, with a branch at the first cell of the one in
the middle, if that has a cell. -/
structure IsUnderline (line : Text) (first stop : Nat) (marks : Text) : Prop where
  length_eq : marks.length = cellsBetween line first stop
  stroke_or_branch : ∀ c ∈ marks, c = '─' ∨ c = '┬'
  branch_iff : ∀ cell, marks[cell]? = some '┬' ↔
    cellsAt line ((first + stop) / 2) ≠ 0 ∧
      cell = cellsBetween line first ((first + stop) / 2)

variable {line source : Text} {first middle stop index width : Nat} {x : Extent} {c head tail : Char}

theorem cellsBetween_add (h : first ≤ middle) (h' : middle ≤ stop) :
    cellsBetween line first middle + cellsBetween line middle stop =
      cellsBetween line first stop := by
  simp only [cellsBetween]
  rw [← List.Ico.append_consecutive h h', List.map_append, List.sum_append]

@[simp] theorem cellsBetween_succ :
    cellsBetween line index (index + 1) = cellsAt line index := by
  simp [cellsBetween, List.Ico.succ_singleton]

theorem widths_eq (line : Text) (count : Nat) :
    widths line count = (List.range count).map (cellsAt line) := by
  apply List.ext_getElem
  · simp [widths]
  intro index h _
  simp only [widths, List.getElem_take, List.getElem_map, List.getElem_range, cellsAt]
  rcases Nat.lt_or_ge index line.length with hlt | hge
  · simp [hlt]
  · simp [hge]

theorem map_textWidth_drawnChars (line : Text) :
    (drawnChars line).map Cells.textWidth = (List.range line.length).map (cellsAt line) := by
  apply List.ext_getElem
  · simp [drawnChars]
  intro index h _
  have hlt : index < line.length := by simpa [drawnChars] using h
  simp only [drawnChars, List.getElem_map, List.getElem_zipIdx, List.getElem_range, cellsAt,
    List.getElem?_eq_getElem hlt]
  split
  · simp [Cells.textWidth, Cells.width]
  · next hblank => simp [Cells.textWidth, Cells.widthAt_of_not_isBlank hblank]

theorem rowText_strip (ink : Option Ink) :
    rowText (strip ⟨ink, [head]⟩ ⟨ink, [tail]⟩ width) = (List.replicate width tail).set 0 head := by
  cases width with
  | zero => simp [strip]
  | succ width => simp [strip, rowText, List.replicate_succ, List.flatMap_replicate]

@[simp] theorem rowText_marks :
    rowText (marks head tail width) = (List.replicate width tail).set 0 head :=
  rowText_strip (some .mark)

@[simp] theorem rowText_blankCells :
    rowText (blankCells width) = List.replicate width ' ' := by
  have h := @rowText_strip width ' ' ' ' none
  rwa [List.set_replicate_self] at h

/-- What is drawn below the character at `index`. -/
def below (x : Extent) (line : Text) (index : Nat) : Text :=
  rowText (underlineAt x (cellsAt line index) index)

theorem rowText_row_underlineAt (x : Extent) (source : Text) :
    rowText (row x source underlineAt) =
      (List.Ico 0 (x.stop + 2)).flatMap (below x (drawnPart source)) := by
  have hzip : (widths (drawnPart source) (x.stop + 2)).zipIdx =
      (List.range (x.stop + 2)).map fun index => (cellsAt (drawnPart source) index, index) := by
    apply List.ext_getElem <;> simp [widths_eq]
  simp only [row, hzip, List.flatMap_map, rowText_flatMap, List.Ico.zero_bot]
  rfl

/-- Where every character of a stretch is drawn by one and the same character, it fills its cells. -/
theorem flatMap_Ico_eq_replicate {f : Nat → Text}
    (h : ∀ index, first ≤ index → index < stop → f index = List.replicate (cellsAt line index) c) :
    (List.Ico first stop).flatMap f = List.replicate (cellsBetween line first stop) c := by
  have hsum (indices : List Nat) : (indices.flatMap fun index =>
      List.replicate (cellsAt line index) c) =
        List.replicate (indices.map (cellsAt line)).sum c := by
    induction indices with
    | nil => rfl
    | cons index indices ih => simp [ih]
  rw [cellsBetween, ← hsum]
  apply List.flatMap_congr
  intro index hindex
  obtain ⟨hle, hlt⟩ := List.Ico.mem.mp hindex
  exact h index hle hlt

theorem Extent.middle_mem (x : Extent) (h : x.first < x.stop) :
    x.first ≤ x.middle ∧ x.middle < x.stop := by
  simp only [middle]
  omega

theorem Extent.contains_iff : x.contains index = true ↔ x.first ≤ index ∧ index < x.stop := by
  simp [contains]

theorem below_of_ne (h : index ≠ x.middle) : below x line index =
    List.replicate (cellsAt line index) (if x.contains index then '─' else ' ') := by
  rw [below, underlineAt, if_neg h]
  split <;> simp

theorem below_middle : below x line x.middle =
    if x.contains x.middle then (List.replicate (cellsAt line x.middle) '─').set 0 '┬'
    else (List.replicate (cellsAt line x.middle) ' ').set 0 '│' := by
  rw [below, underlineAt, if_pos rfl]
  split <;> simp

/-- Away from the middle there are strokes inside of the extent and nothing outside of it. -/
theorem flatMap_below (inside : Bool)
    (h : ∀ index, first ≤ index → index < stop → index ≠ x.middle ∧ x.contains index = inside) :
    (List.Ico first stop).flatMap (below x line) =
      List.replicate (cellsBetween line first stop) (if inside then '─' else ' ') := by
  apply flatMap_Ico_eq_replicate
  intro index hle hlt
  obtain ⟨hmiddle, hinside⟩ := h index hle hlt
  rw [below_of_ne hmiddle, hinside]

/-- The marks under an extent that is not empty. -/
def underline (line : Text) (x : Extent) : Text :=
  List.replicate (cellsBetween line x.first x.middle) '─' ++
    ((List.replicate (cellsAt line x.middle) '─').set 0 '┬' ++
      List.replicate (cellsBetween line (x.middle + 1) x.stop) '─')

theorem getElem?_branch {before after cell : Nat} :
    (List.replicate before '─' ++ '┬' :: List.replicate after '─')[cell]? = some '┬' ↔
      cell = before := by
  rw [List.getElem?_append, List.length_replicate]
  rcases Nat.lt_trichotomy cell before with hlt | rfl | hgt
  · simp [hlt, hlt.ne]
  · simp
  · obtain ⟨extra, rfl⟩ := Nat.exists_eq_add_of_lt hgt
    simp [Nat.add_assoc, List.getElem?_replicate]

theorem isUnderline_underline (h : x.first < x.stop) :
    IsUnderline line x.first x.stop (underline line x) := by
  have hmiddle := x.middle_mem h
  have hleft := @cellsBetween_add line _ _ _ hmiddle.1 hmiddle.2.le
  have hright := @cellsBetween_add line _ _ _ (Nat.le_add_right x.middle 1) hmiddle.2
  rw [cellsBetween_succ] at hright
  constructor
  case length_eq =>
    simp only [underline, List.length_append, List.length_replicate, List.length_set]
    omega
  case stroke_or_branch =>
    intro c hc
    simp only [underline, List.mem_append, List.mem_replicate] at hc
    rcases hc with ⟨-, rfl⟩ | hc | ⟨-, rfl⟩
    · exact .inl rfl
    · rcases List.mem_or_eq_of_mem_set hc with hc | rfl
      · exact .inl (List.eq_of_mem_replicate hc)
      · exact .inr rfl
    · exact .inl rfl
  case branch_iff =>
    intro cell
    change (underline line x)[cell]? = some '┬' ↔
      cellsAt line x.middle ≠ 0 ∧ cell = cellsBetween line x.first x.middle
    unfold underline
    -- A middle that has no cell leaves no place for the branch.
    cases cellsAt line x.middle with
    | zero => simp [List.getElem?_replicate]
    | succ width => simpa [List.replicate_succ] using getElem?_branch

/-- An underline is told by what it is to look like. -/
theorem IsUnderline.unique {marks marks' : Text} (h : IsUnderline line first stop marks)
    (h' : IsUnderline line first stop marks') : marks = marks' := by
  apply List.ext_getElem
  · rw [h.length_eq, h'.length_eq]
  intro cell hcell hcell'
  have hbranch : marks[cell] = '┬' ↔ marks'[cell] = '┬' := by
    have hiff := (h.branch_iff cell).trans (h'.branch_iff cell).symm
    simpa [hcell, hcell'] using hiff
  rcases h.stroke_or_branch _ (List.getElem_mem hcell) with hstroke | hstroke
  · rcases h'.stroke_or_branch _ (List.getElem_mem hcell') with hstroke' | hstroke'
    · rw [hstroke, hstroke']
    · rw [hbranch.mpr hstroke', hstroke']
  · rw [hstroke, hbranch.mp hstroke]

/-- The row below the line is the marks and, on both sides, nothing. -/
theorem rowText_row_underlineAt_of_lt (h : x.first < x.stop) :
    rowText (row x source underlineAt) =
      List.replicate (cellsBetween (drawnPart source) 0 x.first) ' ' ++
        (underline (drawnPart source) x ++
          List.replicate (cellsBetween (drawnPart source) x.stop (x.stop + 2)) ' ') := by
  obtain ⟨hfirst, hstop⟩ := x.middle_mem h
  have hin : x.contains x.middle = true := Extent.contains_iff.mpr ⟨hfirst, hstop⟩
  -- The middle is the only character below which there may be two kinds of marks.
  have hsplit : List.Ico 0 (x.stop + 2) = List.Ico 0 x.first ++ (List.Ico x.first x.middle ++
      (List.Ico x.middle (x.middle + 1) ++ List.Ico (x.middle + 1) x.stop) ++
        List.Ico x.stop (x.stop + 2)) := by
    rw [List.Ico.append_consecutive (by omega) hstop, List.Ico.append_consecutive hfirst hstop.le,
      List.Ico.append_consecutive h.le (by omega), List.Ico.append_consecutive (by omega) (by omega)]
  have hbefore : (List.Ico 0 x.first).flatMap (below x (drawnPart source)) = _ :=
    flatMap_below false fun index _ hlt => ⟨by omega, by simp [Extent.contains]; omega⟩
  have hleft : (List.Ico x.first x.middle).flatMap (below x (drawnPart source)) = _ :=
    flatMap_below true fun index hle hlt => ⟨by omega, by simp [Extent.contains]; omega⟩
  have hright : (List.Ico (x.middle + 1) x.stop).flatMap (below x (drawnPart source)) = _ :=
    flatMap_below true fun index hle hlt => ⟨by omega, by simp [Extent.contains]; omega⟩
  have hafter : (List.Ico x.stop (x.stop + 2)).flatMap (below x (drawnPart source)) = _ :=
    flatMap_below false fun index hle _ => ⟨by omega, by simp [Extent.contains]; omega⟩
  simp only [rowText_row_underlineAt, hsplit, List.flatMap_append, hbefore, hleft, hright, hafter]
  simp [List.Ico.succ_singleton, below_middle, hin, underline]

example : rowText (row ⟨2, 4⟩ "+ 日本 1".toList underlineAt) = "  ──┬─  ".toList := by
  decide +kernel

/-- Below an empty extent a bar stands where the extent is. -/
theorem rowText_row_underlineAt_of_eq (h : x.first = x.stop) :
    rowText (row x source underlineAt) =
      List.replicate (cellsBetween (drawnPart source) 0 x.first) ' ' ++
        ((List.replicate (cellsAt (drawnPart source) x.first) ' ').set 0 '│' ++
          List.replicate (cellsAt (drawnPart source) (x.first + 1)) ' ') := by
  have hmiddle : x.middle = x.first := by simp only [Extent.middle]; omega
  have hout (index : Nat) : x.contains index = false := by simp [Extent.contains]; omega
  -- The bar stands below the first character that the extent does not contain.
  have hsplit : List.Ico 0 (x.stop + 2) = List.Ico 0 x.first ++
      (List.Ico x.first (x.first + 1) ++ List.Ico (x.first + 1) (x.first + 2)) := by
    rw [List.Ico.append_consecutive (by omega) (by omega),
      List.Ico.append_consecutive (by omega) (by omega), h]
  have hbefore : (List.Ico 0 x.first).flatMap (below x (drawnPart source)) = _ :=
    flatMap_below false fun index _ hlt => ⟨by omega, hout index⟩
  have hbar := @below_middle (drawnPart source) x
  rw [hmiddle] at hbar
  have hafter : (List.Ico (x.first + 1) (x.first + 2)).flatMap (below x (drawnPart source)) = _ :=
    flatMap_below false fun index hle _ => ⟨by omega, hout index⟩
  simp only [rowText_row_underlineAt, hsplit, List.flatMap_append, hbefore, hafter]
  simp [List.Ico.succ_singleton, hbar, hout]

theorem rowText_drawnLine :
    rowText (drawnLine x source) = (drawnChars (drawnPart source)).flatten := by
  rw [drawnLine, rowText_flatMap, List.flatMap_def, drawnChars]
  congr 1
  apply List.map_congr_left
  rintro ⟨c, index⟩ _
  unfold drawnChar
  dsimp only
  split
  · simp [rowText, List.flatMap_replicate, Piece.inked]
  · simp [Piece.inked]

/-- The lines of a report show the line, and mark the characters `first` to `stop` of it, or the
place in front of `first` if there is none. -/
structure PointsAt (report : List Text) (line : Text) (first stop : Nat) : Prop where
  place_eq : report[1]? = some
    ("   ╭─[ <expression>:1:".toList ++ Nat.toDigits 10 (first + 1) ++ " ]".toList)
  line_eq : report[3]? = some (" 1 │ ".toList ++ (drawnChars line).flatten)
  widths_eq : (drawnChars line).map Cells.textWidth = (List.range line.length).map (cellsAt line)
  exists_marks : ∃ marks rest,
    report[4]? = some ("   │ ".toList ++ (List.replicate (cellsBetween line 0 first) ' ' ++
      (marks ++ List.replicate rest ' '))) ∧
    (first < stop → IsUnderline line first stop marks) ∧ (first = stop → marks = ['│'])

theorem pointsAt_report {r : Rejection} (hne : source ≠ []) (hline : '\n' ∉ source)
    (hx : Extent.ofSpan source (r.span source) = x) (hle : x.first ≤ x.stop)
    (hcell : x.first = x.stop → cellsAt (drawnPart source) x.first = 1) :
    PointsAt ((r.report false source).splitOn '\n') (drawnPart source) x.first x.stop := by
  rw [Rejection.splitOn_report hne hline]
  constructor
  case place_eq => simp [rows, hx, rowText, Piece.plain, Piece.inked]
  case line_eq => simp [rows, hx, rowText_drawnLine, Piece.plain, Piece.inked]
  case widths_eq => exact map_textWidth_drawnChars (drawnPart source)
  case exists_marks =>
    rcases Nat.lt_or_eq_of_le hle with hlt | heq
    · refine ⟨underline (drawnPart source) x, cellsBetween (drawnPart source) x.stop (x.stop + 2),
        ?_, fun _ => isUnderline_underline hlt, fun heq => absurd heq hlt.ne⟩
      simp [rows, hx, rowText_row_underlineAt_of_lt hlt, margin, Piece.plain, Piece.inked]
    · refine ⟨['│'], cellsAt (drawnPart source) (x.first + 1), ?_, fun hlt => absurd heq hlt.ne,
        fun _ => rfl⟩
      simp [rows, hx, rowText_row_underlineAt_of_eq heq, hcell heq, margin, Piece.plain,
        Piece.inked]

/-- A space, and what is beyond the line, takes one cell. -/
theorem cellsAt_drawnPart_eq_one (h : source[index]? = none ∨ source[index]? = some ' ') :
    cellsAt (drawnPart source) index = 1 := by
  obtain ⟨rest, hrest⟩ := drawnPart_isPrefix source
  unfold cellsAt
  split
  · next c hc =>
    have hsource : source[index]? = some c := by
      rw [← hrest, List.getElem?_append_left (List.getElem?_eq_some_iff.mp hc).1, hc]
    rcases h with h | h
    · cases h.symm.trans hsource
    · cases h.symm.trans hsource
      exact Cells.widthAt_of_isBlank (by decide) (by decide)
  · rfl

theorem Extent.ofSpan_of_covers {span : Span} {before part after : Text}
    (h : span.Covers source before part after) :
    ofSpan source span = ⟨before.length, before.length + part.length⟩ := by
  have hstart := Text.charsBefore_byteLength_append before (part ++ after)
  have hstop := Text.charsBefore_byteLength_append (before ++ part) after
  rw [List.append_assoc, List.length_append, Text.byteLength_append] at hstop
  rw [ofSpan, h.start_eq, h.stop_eq, h.eq_append, hstart, hstop]

end Report

/-- What is rejected is a part of the text, and a part that is empty is in front of a space or at the
end. -/
theorem exists_covers_of_compile {limit : Nat} {source : Text} {r : Rejection}
    (h : compile limit source = .error r) :
    ∃ before part after, (r.span source).Covers source before part after ∧
      (part = [] → after = [] ∨ after.head? = some ' ') := by
  obtain ⟨before, part, after, hc, -, hshows⟩ := Rejection.isShown_of_compile h
  refine ⟨before, part, after, hc, ?_⟩
  rintro rfl
  revert hshows
  cases r.fault with
  | unexpectedEnd =>
    rintro ⟨-, hafter⟩
    exact .inl hafter
  | unexpectedContinuation =>
    rintro ⟨hne, -⟩
    exact absurd rfl hne
  | invalidTerm =>
    rintro ⟨⟨-, -, hafter⟩, -⟩
    exact hafter
  | tooDeep named =>
    rintro ⟨-, op, hop⟩
    cases hop

/-- The report of a rejected text marks the part at fault, cell for cell: its underline starts below
the first cell of the part and has as many cells, whatever the widths of the characters are. The source is taken for one line, which is what the
drawing is meant for. -/
theorem report_points_at_fault {limit : Nat} {source : Text} {r : Rejection} (hne : source ≠ [])
    (hline : '\n' ∉ source) (h : compile limit source = .error r) :
    ∃ before part after, (r.diagnostic source).span.Covers source before part after ∧
      Report.PointsAt ((r.report false source).splitOn '\n') (Report.drawnPart source)
        before.length (before.length + part.length) := by
  obtain ⟨before, part, after, hc, hempty⟩ := exists_covers_of_compile h
  rw [r.span_diagnostic source]
  refine ⟨before, part, after, hc, ?_⟩
  apply Report.pointsAt_report hne hline (Report.Extent.ofSpan_of_covers hc)
  · exact Nat.le_add_right _ _
  · intro heq
    dsimp only at heq
    obtain rfl : part = [] := List.length_eq_zero_iff.mp (by omega)
    apply Report.cellsAt_drawnPart_eq_one
    rcases hempty rfl with rfl | hafter
    · simp [hc.eq_append]
    · obtain ⟨after, rfl⟩ := List.head?_eq_some_iff.mp hafter
      simp [hc.eq_append]

/-- The part at fault has a tab that reaches over two cells, an ideogram of two, a letter and an accent
without a cell of its own. -/
theorem report_points_at_fault_wide :
    let source : Text := "+ \t日e\u0301 1".toList
    let r : Rejection := ⟨.invalidTerm, 2⟩
    source ≠ [] ∧ source.IsOneLine ∧ compile 3 source = .error r ∧
      (List.range 9).map (Report.cellsAt source) = [1, 1, 2, 2, 1, 0, 1, 1, 1] ∧
      Report.PointsAt ((r.report false source).splitOn '\n') source 2 6 ∧
      ∃ rest, ((r.report false source).splitOn '\n')[4]? =
        some ("   │   ────┬".toList ++ List.replicate rest ' ') := by
  intro source r
  have hne : source ≠ [] := by decide
  have hline : source.IsOneLine := by decide
  have hstops : Stops 3 1 "\t日e\u0301 1".toList [] ⟨.invalidTerm, 0⟩ :=
    .invalid (by decide) (by decide)
  have hc : compile 3 source = .error r :=
    compile_of_awaits (.left .add (by decide) .here) hstops
  obtain ⟨before, part, after, hcovers, hpoints⟩ :=
    report_points_at_fault hne hline.newline_not_mem hc
  have hword : (r.diagnostic source).span.text? source = some "\t日e\u0301".toList := by decide
  obtain rfl : part = "\t日e\u0301".toList :=
    Option.some.inj (hcovers.text?_eq.symm.trans hword)
  have hbytes : before.byteLength = Text.byteLength "+ ".toList := by
    rw [← hcovers.start_eq]
    decide
  have hsource : "+ ".toList ++ "\t日e\u0301 1".toList =
      before ++ ("\t日e\u0301".toList ++ after) :=
    hcovers.eq_append
  obtain ⟨rfl, -⟩ := Text.append_inj_of_byteLength_eq hsource hbytes.symm
  have hcells : (List.range 9).map (Report.cellsAt source) = [1, 1, 2, 2, 1, 0, 1, 1, 1] := by
    decide +kernel
  have hmarked : Report.IsUnderline source 2 6 "────┬".toList := by
    have hdrawn : Report.underline source ⟨2, 6⟩ = "────┬".toList := by decide +kernel
    exact hdrawn ▸ @Report.isUnderline_underline source ⟨2, 6⟩ (by decide)
  obtain ⟨marks, rest, hrow, hmarks, -⟩ := hpoints.exists_marks
  obtain rfl : marks = "────┬".toList := (hmarks (by decide)).unique hmarked
  exact ⟨hne, hline, hc, hcells, hpoints, rest, hrow⟩

end PolishArithmetic
