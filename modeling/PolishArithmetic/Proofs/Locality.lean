import PolishArithmetic.Proofs.Grammar

/-!
How far a call of `descend` looks. What it reads is a first part of its text, and would be read the
same before any other rest. What it counts stays within the text: no more is consumed than there is,
and a position that is moved on from an operand stays in the text that the operand is part of.
-/
namespace PolishArithmetic

/-- The call reads `e` from the front of the text and leaves `rest` over. -/
def Reads (limit depth : Nat) (text : Text) (e : Expr) (rest : Text) : Prop :=
  ∃ operand, (descend limit depth text).outcome = .ok operand ∧ operand.expr = e ∧
    operand.rest = rest

/-- The texts that a call calls itself on. Behind an operator that is not too deep these are the text
of the left operand and, when that one has been read, what is left over of it. -/
inductive Calls (limit depth : Nat) (text : Text) : Text → Prop
  | left {op : Operator} (hterm : Term.ofText? text.firstTerm = some (.op op))
      (hdepth : depth < limit) : Calls limit depth text text.afterTerm
  | right {op : Operator} {left : Expr} {mid : Text}
      (hterm : Term.ofText? text.firstTerm = some (.op op)) (hdepth : depth < limit)
      (hleft : Reads limit (depth + 1) text.afterTerm left mid) : Calls limit depth text mid

/-- The calls that are made in all to read a text. -/
inductive CallsFrom (limit : Nat) (text : Text) : Nat → Text → Prop
  | whole : CallsFrom limit text 0 text
  | operand {depth : Nat} {cursor part : Text} (h : CallsFrom limit text depth cursor)
      (hcall : Calls limit depth cursor part) : CallsFrom limit text (depth + 1) part

theorem Text.byteLength_lt_of_isSuffix {text rest : Text} (h : rest <:+ text)
    (hlt : rest.length < text.length) : rest.byteLength < text.byteLength := by
  obtain ⟨before, rfl⟩ := h
  have hne : before ≠ [] := by
    rintro rfl
    simp at hlt
  have := mt byteLength_eq_zero.mp hne
  simp only [byteLength_append]
  omega

/-- A derived text starts and ends with a term. -/
theorem Derives.getLast?_ne_space {s : Text} {e : Expr} (h : Derives s e) :
    s ≠ [] ∧ s.getLast? ≠ some ' ' := by
  have hterm {term : Text} {t : Term} (hspace : ' ' ∉ term) (ht : Term.ofText? term = some t) :
      term ≠ [] ∧ term.getLast? ≠ some ' ' := by
    constructor
    · rintro rfl
      simp [Term.ofText?_nil] at ht
    · intro hlast
      exact hspace (List.mem_of_getLast? hlast)
  induction h with
  | const hspace ht => exact hterm hspace ht
  | var hspace ht => exact hterm hspace ht
  | @binary term s t _ _ _ _ _ _ _ ihr =>
    refine ⟨by simp, ?_⟩
    obtain ⟨hne, hlast⟩ := ihr
    have happend : term ++ ' ' :: (s ++ ' ' :: t) = (term ++ ' ' :: (s ++ [' '])) ++ t := by simp
    rw [happend, List.getLast?_append, List.getLast?_eq_some_getLast hne, Option.some_or]
    simpa [List.getLast?_eq_some_getLast hne] using hlast

section

variable {limit depth : Nat} {text part rest : Text} {log : List Sighting} {e : Expr}
variable {r : Rejection}

theorem reads_iff : Reads limit depth text e rest ↔ ∃ log, Yields limit depth text log e rest := by
  constructor
  · rintro ⟨operand, hok, rfl, rfl⟩
    rcases yields_or_stops limit depth text with ⟨log, e, rest, hy⟩ | ⟨log, r, hs⟩
    · rw [descend_of_yields hy] at hok
      cases hok
      exact ⟨log, hy⟩
    · rw [descend_of_stops hs] at hok
      cases hok
  · rintro ⟨log, hy⟩
    exact ⟨⟨e, rest, hy.length_rest_lt⟩, by simp [descend_of_yields hy]⟩

theorem outcome_eq_error_iff :
    (descend limit depth text).outcome = .error r ↔ ∃ log, Stops limit depth text log r := by
  constructor
  · intro h
    rcases yields_or_stops limit depth text with ⟨log, e, rest, hy⟩ | ⟨log, r, hs⟩
    · rw [descend_of_yields hy] at h
      cases h
    · rw [descend_of_stops hs] at h
      cases h
      exact ⟨log, hs⟩
  · rintro ⟨log, hs⟩
    simp [descend_of_stops hs]

theorem Yields.byteLength_rest_lt (h : Yields limit depth text log e rest) :
    rest.byteLength < text.byteLength :=
  Text.byteLength_lt_of_isSuffix h.isSuffix h.length_rest_lt

/-- The part that is read ends with the space behind the expression, if there is one. Without a space
there is nothing left over, and the part can be read before any rest once a space is put between. -/
theorem Yields.exists_part (h : Yields limit depth text log e rest) :
    ∃ part, part ≠ [] ∧ text = part ++ rest ∧ (rest = [] ∨ part.getLast? = some ' ') ∧
      ∀ rest', (part.getLast? = some ' ' → Reads limit depth (part ++ rest') e rest') ∧
        (part.getLast? ≠ some ' ' → Reads limit depth (part ++ ' ' :: rest') e rest') := by
  obtain ⟨hn, s, hs, hsplit⟩ := h.derives
  obtain ⟨hne, hlast⟩ := hs.getLast?_ne_space
  have hreads (rest' : Text) : Reads limit depth (s ++ ' ' :: rest') e rest' :=
    reads_iff.mpr (hs.yields (Text.splits_append s rest') hn)
  rcases hsplit with rfl | ⟨rfl, rfl⟩
  · refine ⟨s ++ [' '], by simp, by simp, .inr (by simp), fun rest' => ⟨?_, ?_⟩⟩
    · intro _
      simpa using hreads rest'
    · intro hspace
      simp at hspace
  · refine ⟨text, hne, by simp, .inl rfl, fun rest' => ⟨?_, ?_⟩⟩
    · intro hspace
      exact absurd hspace hlast
    · intro _
      exact hreads rest'

theorem Calls.isSuffix (h : Calls limit depth text part) : part <:+ text := by
  cases h with
  | left => exact text.afterTerm_isSuffix
  | right _ _ hleft =>
    obtain ⟨log, hy⟩ := reads_iff.mp hleft
    exact hy.isSuffix.trans text.afterTerm_isSuffix

theorem Calls.length_lt (h : Calls limit depth text part) : part.length < text.length := by
  cases h with
  | left hterm => exact Text.length_afterTerm_lt (Text.ne_nil_of_firstTerm hterm)
  | right hterm _ hleft =>
    obtain ⟨log, hy⟩ := reads_iff.mp hleft
    have hafter := Text.length_afterTerm_lt (Text.ne_nil_of_firstTerm hterm)
    exact Nat.lt_trans hy.length_rest_lt hafter

theorem Calls.byteLength_lt (h : Calls limit depth text part) :
    part.byteLength < text.byteLength :=
  Text.byteLength_lt_of_isSuffix h.isSuffix h.length_lt

/-- What stops the reading of an operand stops the reading of the whole, as many bytes further as
stand in front of the operand. -/
theorem Calls.stops (h : Calls limit depth text part) (hs : Stops limit (depth + 1) part log r) :
    ∃ log, Stops limit depth text log (r.shift (text.byteLength - part.byteLength)) := by
  cases h with
  | left hterm hdepth => exact ⟨_, .left hterm hdepth hs⟩
  | right hterm hdepth hleft =>
    obtain ⟨log, hy⟩ := reads_iff.mp hleft
    exact ⟨_, .right hterm hdepth hy hs⟩

theorem Rejection.position_shift_le {whole bytes : Nat} (h : r.position ≤ bytes)
    (hle : bytes ≤ whole) : (r.shift (whole - bytes)).position ≤ whole := by
  simp only [shift]
  omega

theorem Stops.position_le (h : Stops limit depth text log r) : r.position ≤ text.byteLength := by
  induction h with
  | ended | invalid | deep => exact Nat.zero_le _
  | left hterm hdepth _ ih =>
    have hlt := (Calls.left hterm hdepth).byteLength_lt
    exact Rejection.position_shift_le ih (Nat.le_of_lt hlt)
  | right hterm hdepth hl _ ih =>
    have hleft := reads_iff.mpr ⟨_, hl⟩
    have hlt := (Calls.right hterm hdepth hleft).byteLength_lt
    exact Rejection.position_shift_le ih (Nat.le_of_lt hlt)

/-- Every call works on an end of the text, below no more operators than are allowed. -/
theorem CallsFrom.isSuffix (h : CallsFrom limit text depth part) :
    part <:+ text ∧ depth ≤ limit := by
  induction h with
  | whole => exact ⟨List.suffix_rfl, Nat.zero_le _⟩
  | operand _ hcall ih =>
    refine ⟨hcall.isSuffix.trans ih.1, ?_⟩
    cases hcall <;> assumption

end

/-- A call reads a part at the front of its text that does not depend on what follows, and rejects at
a byte of its text. In all the calls made for one text, an operand is shorter than the text that it is
part of, so that the bytes in front of it can be counted by subtraction, and added to a position in
the operand they lead to one in that text. -/
theorem descend_is_local (limit depth : Nat) (text : Text) :
    (∀ e rest, Reads limit depth text e rest →
      ∃ part, part ≠ [] ∧ text = part ++ rest ∧ (rest = [] ∨ part.getLast? = some ' ') ∧
        ∀ rest', (part.getLast? = some ' ' → Reads limit depth (part ++ rest') e rest') ∧
          (part.getLast? ≠ some ' ' → Reads limit depth (part ++ ' ' :: rest') e rest')) ∧
    (∀ r, (descend limit depth text).outcome = .error r → r.position ≤ text.byteLength) ∧
    ∀ inner cursor, CallsFrom limit text inner cursor → cursor <:+ text ∧ inner ≤ limit ∧
      (∀ e rest, Reads limit inner cursor e rest → rest.byteLength < cursor.byteLength) ∧
      ∀ part, Calls limit inner cursor part → part.byteLength < cursor.byteLength ∧
        ∀ r, (descend limit (inner + 1) part).outcome = .error r →
          (descend limit inner cursor).outcome =
              .error (r.shift (cursor.byteLength - part.byteLength)) ∧
            r.position + (cursor.byteLength - part.byteLength) ≤ cursor.byteLength := by
  refine ⟨fun e rest h => ?_, fun r h => ?_, fun inner cursor hfrom => ?_⟩
  · obtain ⟨log, hy⟩ := reads_iff.mp h
    exact hy.exists_part
  · obtain ⟨log, hs⟩ := outcome_eq_error_iff.mp h
    exact hs.position_le
  · obtain ⟨hsuffix, hinner⟩ := hfrom.isSuffix
    refine ⟨hsuffix, hinner, fun e rest h => ?_, fun part hcall => ⟨hcall.byteLength_lt, ?_⟩⟩
    · obtain ⟨log, hy⟩ := reads_iff.mp h
      exact hy.byteLength_rest_lt
    · intro r h
      obtain ⟨log, hs⟩ := outcome_eq_error_iff.mp h
      obtain ⟨log', hs'⟩ := hcall.stops hs
      exact ⟨outcome_eq_error_iff.mpr ⟨log', hs'⟩, hs'.position_le⟩

/-- With two operators around it an operand is read the same whether `y` follows it or `* 7`. -/
theorem descend_is_local_any_rest :
    let e : Expr := .binary .sub (.var 1) (.var 0)
    Reads 3 2 "- x1 x0 y".toList e "y".toList ∧
      Reads 3 2 "- x1 x0 * 7".toList e "* 7".toList := by
  intro e
  have hx : Derives "x1".toList (.var 1) := .var (by decide) (by decide)
  have hy : Derives "x0".toList (.var 0) := .var (by decide) (by decide)
  have he : Derives "- x1 x0".toList e := .binary (Term.ofText?_symbol .sub) hx hy
  have hreads : Reads 3 2 "- x1 x0 y".toList e "y".toList :=
    reads_iff.mpr (he.yields (Text.splits_append "- x1 x0".toList "y".toList) (by decide))
  obtain ⟨part, -, htext, -, hrest⟩ := (descend_is_local 3 2 "- x1 x0 y".toList).1 e _ hreads
  obtain rfl : "- x1 x0 ".toList = part :=
    List.append_cancel_right (show "- x1 x0 ".toList ++ "y".toList = part ++ "y".toList from htext)
  exact ⟨hreads, (hrest "* 7".toList).1 (by decide)⟩

end PolishArithmetic
