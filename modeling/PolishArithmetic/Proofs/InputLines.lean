import PolishArithmetic.Command.Run

/-!
Expressions one to a line. The command writes for a line of its input what it writes for the same
text as an expression among its words; only a missing value is announced differently. A line that is
not UTF-8 ends the run, and the lines before it keep what was written for them.
-/
namespace PolishArithmetic

namespace Bytes

/-- Lines end with a newline or with a return and a newline, the last one perhaps with neither. -/
inductive HasLines : Bytes → List Bytes → Prop
  | empty : HasLines [] []
  | last {line : Bytes} (hne : line ≠ []) (hline : 10 ∉ line) : HasLines line [line]
  | newline {line rest : Bytes} {lines : List Bytes} (hline : 10 ∉ line)
      (hreturn : line.getLast? ≠ some 13) (h : HasLines rest lines) :
      HasLines (line ++ 10 :: rest) (line :: lines)
  | returned {line rest : Bytes} {lines : List Bytes} (hline : 10 ∉ line)
      (h : HasLines rest lines) : HasLines (line ++ 13 :: 10 :: rest) (line :: lines)

variable {line rest : Bytes}

theorem lines_append_newline (h : 10 ∉ line) :
    lines (line ++ 10 :: rest) = dropReturn line :: lines rest := by
  have hsplit : (line ++ 10 :: rest).splitOn 10 = line :: rest.splitOn 10 := by
    have hparts : (line ++ 10 :: rest).splitOnP (· == 10) =
        line.splitOnP (· == 10) ++ rest.splitOnP (· == 10) :=
      List.splitOnP_append_cons line rest rfl
    rwa [← List.splitOn, ← List.splitOn, ← List.splitOn, List.splitOn_eq_singleton h] at hparts
  obtain ⟨part, parts, hparts⟩ := List.exists_cons_of_ne_nil (List.splitOnP_ne_nil (· == 10) rest)
  rw [← List.splitOn] at hparts
  rw [lines, lines, hsplit, hparts]
  rfl

theorem lines_of_not_mem (h : 10 ∉ line) (hne : line ≠ []) : lines line = [line] := by
  rw [lines, List.splitOn_eq_singleton h]
  simp [hne]

theorem dropReturn_append_return (line : Bytes) : dropReturn (line ++ [13]) = line := by
  simp [dropReturn]

theorem HasLines.lines_eq {input : Bytes} {ls : List Bytes} (h : HasLines input ls) :
    input.lines = ls := by
  induction h with
  | empty => rfl
  | last hne hline => exact lines_of_not_mem hline hne
  | newline hline hreturn _ ih => rw [lines_append_newline hline, ih, dropReturn, if_neg hreturn]
  | @returned line rest ls hline _ ih =>
    have happend : line ++ 13 :: 10 :: rest = (line ++ [13]) ++ 10 :: rest := by simp
    rw [happend, lines_append_newline (by simpa using hline), ih, dropReturn_append_return]

theorem hasLines_lines (input : Bytes) : HasLines input input.lines := by
  induction hn : input.length using Nat.strongRecOn generalizing input with
  | ind n ih =>
    by_cases h : 10 ∈ input
    · obtain ⟨line, rest, rfl, hline⟩ := List.eq_append_cons_of_mem h
      have hlt : rest.length < n := by
        simp only [List.length_append, List.length_cons] at hn
        omega
      have hrest := ih rest.length hlt rest rfl
      rw [lines_append_newline hline, dropReturn]
      split
      · next hreturn =>
        obtain ⟨body, rfl⟩ := List.getLast?_eq_some_iff.mp hreturn
        have hbody : 10 ∉ body := fun hmem => hline (List.mem_append_left _ hmem)
        rw [List.dropLast_concat, List.append_assoc]
        exact .returned hbody hrest
      · next hreturn => exact .newline hline hreturn hrest
    · by_cases hne : input = []
      · subst hne
        exact .empty
      · rw [lines_of_not_mem h hne]
        exact .last hne h

/-- Every input falls into lines, in one way. -/
theorem hasLines_iff {input : Bytes} {ls : List Bytes} : HasLines input ls ↔ input.lines = ls :=
  ⟨HasLines.lines_eq, fun h => h ▸ hasLines_lines input⟩

end Bytes

namespace Command

theorem exists_of_cons_eq_some {α : Type} {x? : Option α} {others? : Option (List Setting)}
    {setting : α → Setting} {settings : List Setting}
    (h : (do return setting (← x?) :: (← others?)) = some settings) :
    ∃ x others, x? = some x ∧ others? = some others ∧ settings = setting x :: others := by
  cases x? with
  | none => cases h
  | some x =>
    cases others? with
    | none => cases h
    | some others =>
      cases h
      exact ⟨x, others, rfl, rfl, rfl⟩

/-- Words that are well formed may be followed by an expression, with `--` in front of it unless that
is among them. -/
theorem readSettings?_append {words : List Text} {settings : List Setting}
    (h : readSettings? words = some settings) :
    ∃ lead, ∀ text, readSettings? (words ++ (lead ++ [text])) =
      some (settings ++ [.expression text]) := by
  fun_induction readSettings? words generalizing settings with
  | case1 =>
    cases h
    exact ⟨["--".toList], fun text => rfl⟩
  | case2 word words text hword ih =>
    obtain ⟨others, hothers, rfl⟩ := Option.map_eq_some_iff.mp h
    obtain ⟨lead, hlead⟩ := ih hothers
    exact ⟨lead, fun text => by simp [readSettings?.eq_def (word :: _), hword, hlead]⟩
  | case3 word words hword =>
    cases h
    exact ⟨[], fun text => by simp [readSettings?.eq_def (word :: _), hword]⟩
  | case4 word words hword ih =>
    obtain ⟨others, hothers, rfl⟩ := Option.map_eq_some_iff.mp h
    obtain ⟨lead, hlead⟩ := ih hothers
    exact ⟨lead, fun text => by simp [readSettings?.eq_def (word :: _), hword, hlead]⟩
  | case6 word words attached hword ih
  | case7 word words attached hword ih =>
    obtain ⟨x, others, hx, hothers, rfl⟩ := exists_of_cons_eq_some h
    obtain ⟨lead, hlead⟩ := ih hothers
    exact ⟨lead, fun text => by simp [readSettings?.eq_def (word :: _), hword, hx, hlead]⟩
  | case10 word hword next words hnext ih
  | case13 word hword next words hnext ih =>
    obtain ⟨x, others, hx, hothers, rfl⟩ := exists_of_cons_eq_some h
    obtain ⟨lead, hlead⟩ := ih hothers
    exact ⟨lead, fun text => by simp [readSettings?, hword, hnext, hx, hlead]⟩
  | case5 | case8 | case9 | case11 | case12 => cases h

/-- The words of a run that reads its input, and an expression. -/
theorem ofWords?_append {words : List Text} {o : Options} (h : Options.ofWords? words = some o)
    (hinput : o.expression = none) : ∃ lead, ∀ text,
      Options.ofWords? (words ++ (lead ++ [text])) = some { o with expression := some text } := by
  obtain ⟨settings, hsettings, hcounts⟩ := Option.bind_eq_some_iff.mp h
  obtain ⟨lead, hlead⟩ := readSettings?_append hsettings
  refine ⟨lead, fun text => ?_⟩
  have hothers {α : Type} (f : Setting → Option α) (hf : f (.expression text) = none) :
      (settings ++ [Setting.expression text]).filterMap f = settings.filterMap f := by
    simp [hf]
  have hshown : (settings ++ [Setting.expression text]).countP Setting.isShowTree =
      settings.countP Setting.isShowTree := by
    simp [Setting.isShowTree]
  dsimp only at hcounts
  split at hcounts
  · next hone =>
    cases hcounts
    have hnone : settings.filterMap Setting.expression? = [] := List.head?_eq_none_iff.mp hinput
    have hexpressions :
        (settings ++ [Setting.expression text]).filterMap Setting.expression? = [text] := by
      rw [List.filterMap_append, hnone]
      rfl
    rw [Options.ofWords?, hlead]
    simp only [Option.bind_eq_bind, Option.bind_some, hothers Setting.value? rfl,
      hothers Setting.limit? rfl, hshown, hexpressions]
    rw [if_pos ⟨hone.1, Nat.le_refl 1, hone.2.2⟩]
    rfl
  · cases hcounts

/-- What is left for a line of the errors of a run with its text alone: a missing value is announced
without a heading. -/
def lineErrors : Reply → Text → Text
  | .missing _, errors => errors.drop "Error: ".length
  | _, errors => errors

/-- The outcomes for single texts, one after the other, and an end. -/
def inTurn (o : Options) (alone : Text → Outcome) (texts : List Text) (ending : Outcome) : Outcome where
  output := texts.flatMap (fun text => (alone text).output) ++ ending.output
  errors := texts.flatMap (fun text => lineErrors (reply o text) (alone text).errors) ++ ending.errors
  code := ending.code

theorem lineErrors_runArgument (o : Options) (text : Text) :
    lineErrors (reply o text) (runArgument o text).errors = errorsOf o text := by
  unfold runArgument
  cases hreply : reply o text with
  | value x => rfl
  | rejected r => rfl
  | missing m => rfl

/-- A line adds its own part in front of what the lines after it give. -/
theorem runLines_append (o : Options) {lines : List Bytes} {texts : List Text}
    (hvalid : lines.map Bytes.text? = texts.map some) (rest : List Bytes) :
    runLines o (lines ++ rest) = inTurn o (runArgument o) texts (runLines o rest) := by
  induction lines generalizing texts with
  | nil =>
    cases texts with
    | nil => rfl
    | cons text texts => cases hvalid
  | cons line lines ih =>
    cases texts with
    | nil => cases hvalid
    | cons text texts =>
      obtain ⟨hline, hlines⟩ := List.cons_eq_cons.mp hvalid
      rw [List.cons_append, runLines, hline]
      simp only [ih hlines]
      simp only [inTurn, List.flatMap_cons, List.append_assoc, lineErrors_runArgument]
      rfl

/-- Every line of the input is treated as if its text were the expression of a run by itself, with
the same options. -/
theorem run_input_eq_inTurn {words : List Text} {o : Options}
    (hwords : Options.ofWords? words = some o) (hinput : o.expression = none) :
    ∃ lead : List Text,
      let alone (text : Text) : Outcome := run (words ++ (lead ++ [text])) []
      (∀ text, Options.ofWords? (words ++ (lead ++ [text])) =
        some { o with expression := some text }) ∧
      (∀ text missing, reply o text = .missing missing →
        "Error: ".toList <+: (alone text).errors) ∧
      ∀ lines texts, lines.map Bytes.text? = texts.map some →
        (∀ input, Bytes.HasLines input lines →
          run words input = inTurn o alone texts ⟨[], [], 0⟩) ∧
        ∀ input bad later, Bytes.HasLines input (lines ++ bad :: later) → bad.text? = none →
          run words input = inTurn o alone texts
            ⟨[], "Error:   × stream did not contain valid UTF-8\n\n".toList, 1⟩ := by
  obtain ⟨lead, hlead⟩ := ofWords?_append hwords hinput
  have halone (text : Text) : run (words ++ (lead ++ [text])) [] = runArgument o text := by
    rw [run, hlead]
    rfl
  have hrun (input : Bytes) : run words input = runLines o input.lines := by
    rw [run, hwords]
    simp only [hinput]
  refine ⟨lead, hlead, ?_, ?_⟩
  · intro text missing hmissing
    simp only [halone, runArgument, hmissing]
    exact List.prefix_append _ _
  · intro lines texts hvalid
    simp only [halone, hrun]
    constructor
    · intro input hlines
      rw [hlines.lines_eq, ← List.append_nil lines, runLines_append o hvalid]
      rfl
    · intro input bad later hlines hbad
      rw [hlines.lines_eq, runLines_append o hvalid, runLines, hbad]

/-- The input `x0` and `+` in two lines, and then with a byte in the second that no text has. -/
theorem run_input_eq_inTurn_two_lines :
    let words : List Text := ["--debug-tree".toList]
    let o : Options := ⟨[], 1000, true, none⟩
    Options.ofWords? words = some o ∧ ∃ lead : List Text,
      run words [120, 48, 13, 10, 43] =
        inTurn o (fun text => run (words ++ (lead ++ [text])) []) ["x0".toList, "+".toList]
          ⟨[], [], 0⟩ ∧
      run words [120, 48, 10, 0xff, 10] =
        inTurn o (fun text => run (words ++ (lead ++ [text])) []) ["x0".toList]
          ⟨[], "Error:   × stream did not contain valid UTF-8\n\n".toList, 1⟩ := by
  intro words o
  have hwords : Options.ofWords? words = some o := rfl
  obtain ⟨lead, -, -, h⟩ := run_input_eq_inTurn hwords rfl
  refine ⟨hwords, lead, ?_, ?_⟩
  · have hlast : Bytes.HasLines [43] [[43]] := .last (by decide) (by decide)
    have hlines : Bytes.HasLines [120, 48, 13, 10, 43] [[120, 48], [43]] :=
      @Bytes.HasLines.returned [120, 48] _ _ (by decide) hlast
    exact (h [[120, 48], [43]] _ (by decide)).1 _ hlines
  · have hlast : Bytes.HasLines [0xff, 10] [[0xff]] :=
      @Bytes.HasLines.newline [0xff] _ _ (by decide) (by decide) .empty
    have hlines : Bytes.HasLines [120, 48, 10, 0xff, 10] [[120, 48], [0xff]] :=
      @Bytes.HasLines.newline [120, 48] _ _ (by decide) (by decide) hlast
    exact (h [[120, 48]] _ (by decide)).2 _ _ [] hlines (by decide)

end Command

end PolishArithmetic
