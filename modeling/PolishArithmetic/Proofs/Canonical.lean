import PolishArithmetic.Proofs.Grammar
import PolishArithmetic.Proofs.Number.ReadBack

/-!
The canonical text of a tree compiles to the tree, unless a constant in it is not finite or an
operator is too deep. Of the nodes at fault, the first one in preorder is reported.
-/
namespace PolishArithmetic

theorem Operator.ofText?_of_read? {text : Text} {l : Literal} (h : Literal.read? text = some l) :
    Operator.ofText? text = none := by
  cases ho : Operator.ofText? text with
  | none => rfl
  | some op =>
    rw [Operator.eq_symbol_of_ofText? ho] at h
    cases op <;> cases h

namespace Term

variable {text : Text}

theorem readVariable?_of_read? {l : Literal} (h : Literal.read? text = some l) :
    readVariable? text = none := by
  unfold readVariable?
  split
  · cases h
  · rfl

/-- The text of a literal can be nothing else. -/
theorem ofText?_of_read? {l : Literal} (h : Literal.read? text = some l)
    (hrank : l.magnitude.rank < Rank.infinity) : ofText? text = some (.const l.value) := by
  simp [ofText?, Operator.ofText?_of_read? h, readVariable?_of_read? h, readConstant?, h, hrank]

theorem readConstant?_of_ofText? {value : Float} (h : ofText? text = some (.const value)) :
    readConstant? text = some value := by
  unfold ofText? at h
  cases ho : Operator.ofText? text <;> cases hv : readVariable? text <;>
    simp [ho, hv] at h
  exact h

theorem isFinite_of_ofText? {value : Float} (h : ofText? text = some (.const value)) :
    value.isFinite := by
  have hread := readConstant?_of_ofText? h
  unfold readConstant? at hread
  split at hread
  · split at hread
    · next hrank =>
      cases hread
      exact Rank.isFinite_toFloat _ hrank
    · cases hread
  · cases hread

theorem ofText?_text_var (index : UInt64) :
    ofText? (Term.text (.var index)) = some (.var index) := by
  have hnumeral : Literal.isNumeral (Nat.toDigits 10 index.toNat) := by
    simp [Literal.isNumeral, Nat.toDigits_ne_nil]
    exact fun c hc => Literal.isDigit_of_mem_toDigits hc
  have hvalue : Literal.ofNumeral (Nat.toDigits 10 index.toNat) = index.toNat :=
    Nat.ofDigitChars_ten_toDigits
  have hop : Operator.ofText? ('x' :: Nat.toDigits 10 index.toNat) = none := rfl
  have hlt : index.toNat < UInt64.size := index.toNat_lt
  simp [ofText?, Term.text, hop, readVariable?, hnumeral, hvalue, hlt]

theorem ofText?_text_const {value : Float} (h : value.isFinite) :
    ofText? (Term.text (.const value)) = some (.const value) := by
  obtain ⟨l, hl, hrank, hvalue⟩ := Style.exists_read?_write h
  rw [Term.text, ofText?_of_read? hl hrank, hvalue]

/-- The words for numbers that are not finite are terms like any other, but not valid ones. -/
theorem rejected_of_mem_words {word : Text} (h : word ∈ Style.words) :
    word ≠ [] ∧ ' ' ∉ word ∧ ofText? word = none := by
  have hall : ∀ word ∈ Style.words, word ≠ [] ∧ ' ' ∉ word ∧ ofText? word = none := by decide
  exact hall word h

theorem space_not_mem_text (term : Term) : ' ' ∉ term.text := by
  cases term with
  | op op => exact op.space_not_mem_symbol
  | var index =>
    intro h
    rcases List.mem_cons.mp h with h | h
    · cases h
    · exact Literal.ne_space_of_isDigit (Literal.isDigit_of_mem_toDigits h) rfl
  | const value =>
    by_cases h : value.isFinite
    · exact Style.space_not_mem_write h
    · exact (rejected_of_mem_words (Style.write_mem_words h)).2.1

end Term

namespace Expr

/-- All constants are numbers, and no infinities. -/
def IsFinite (e : Expr) : Prop :=
  ∀ value, Term.const value ∈ e.terms → value.isFinite

@[simp] theorem isFinite_const {value : Float} : (Expr.const value).IsFinite ↔ value.isFinite := by
  simp [IsFinite, terms]

@[simp] theorem isFinite_var {index : UInt64} : (Expr.var index).IsFinite := by
  simp [IsFinite, terms]

@[simp] theorem isFinite_binary {op : Operator} {left right : Expr} :
    (Expr.binary op left right).IsFinite ↔ left.IsFinite ∧ right.IsFinite := by
  simp only [IsFinite, terms, List.mem_cons, List.mem_append, reduceCtorEq, false_or]
  constructor
  · intro h
    exact ⟨fun value hv => h value (.inl hv), fun value hv => h value (.inr hv)⟩
  · rintro ⟨hl, hr⟩ value (hv | hv)
    · exact hl value hv
    · exact hr value hv

theorem derives_text {e : Expr} (h : e.IsFinite) : Derives e.text e := by
  induction e with
  | const value =>
    exact .const (Term.space_not_mem_text _) (Term.ofText?_text_const (isFinite_const.mp h))
  | var index => exact .var (Term.space_not_mem_text _) (Term.ofText?_text_var index)
  | binary op left right ihl ihr =>
    obtain ⟨hl, hr⟩ := isFinite_binary.mp h
    exact .binary (Term.ofText?_symbol op) (ihl hl) (ihr hr)

end Expr

theorem Derives.isFinite {s : Text} {e : Expr} (h : Derives s e) : e.IsFinite := by
  induction h with
  | const _ hterm => exact Expr.isFinite_const.mpr (Term.isFinite_of_ofText? hterm)
  | var => exact Expr.isFinite_var
  | binary _ _ _ ihl ihr => exact Expr.isFinite_binary.mpr ⟨ihl, ihr⟩

/-- A node of a tree: how many operators are around it, and what stands in front of its text in the
text of the tree. -/
structure Place where
  node : Expr
  depth : Nat
  before : Text

namespace Place

/-- Why the text of a tree cannot be read past the start of this node. -/
def fault? (limit : Nat) (p : Place) : Option Fault :=
  match p.node with
  | .const value => if value.isFinite then none else some .invalidTerm
  | .var _ => none
  | .binary .. => if limit ≤ p.depth then some (.tooDeep limit) else none

def rejection? (limit : Nat) (p : Place) : Option Rejection :=
  (p.fault? limit).map fun fault => ⟨fault, p.before.byteLength⟩

end Place

namespace Expr

/-- The nodes of a tree in preorder, with the tree itself at a given place. -/
def places : Expr → Nat → Text → List Place
  | .const value, depth, before => [⟨.const value, depth, before⟩]
  | .var index, depth, before => [⟨.var index, depth, before⟩]
  | .binary op left right, depth, before =>
    ⟨.binary op left right, depth, before⟩ ::
      (left.places (depth + 1) (before ++ [op.symbol, ' ']) ++
        right.places (depth + 1) (before ++ op.symbol :: ' ' :: (left.text ++ [' '])))

theorem text_eq_of_mem_places {e : Expr} {depth : Nat} {before : Text} {p : Place}
    (h : p ∈ e.places depth before) :
    ∃ after, before ++ e.text = p.before ++ (p.node.text ++ after) := by
  induction e generalizing depth before with
  | const value =>
    rw [places, List.mem_singleton] at h
    subst h
    exact ⟨[], by simp⟩
  | var index =>
    rw [places, List.mem_singleton] at h
    subst h
    exact ⟨[], by simp⟩
  | binary op left right ihl ihr =>
    rw [places, List.mem_cons, List.mem_append] at h
    rcases h with rfl | h | h
    · exact ⟨[], by simp⟩
    · obtain ⟨after, ha⟩ := ihl h
      refine ⟨after ++ ' ' :: right.text, ?_⟩
      have ha' := congrArg (· ++ ' ' :: right.text) ha
      simpa [text, Term.text] using ha'
    · obtain ⟨after, ha⟩ := ihr h
      exact ⟨after, by simpa [text, Term.text] using ha⟩

theorem rejection?_binary {op : Operator} {left right : Expr} {limit depth : Nat} {before : Text} :
    (Place.mk (.binary op left right) depth before).rejection? limit =
      if limit ≤ depth then some ⟨.tooDeep limit, before.byteLength⟩ else none := by
  simp only [Place.rejection?, Place.fault?]
  split <;> rfl

theorem findSome?_places_eq_none_iff {e : Expr} {limit depth : Nat} {before : Text} :
    (e.places depth before).findSome? (Place.rejection? limit) = none ↔
      e.IsFinite ∧ e.nesting ≤ limit - depth := by
  induction e generalizing depth before with
  | const value => simp [places, Place.rejection?, Place.fault?, nesting]
  | var index => simp [places, Place.rejection?, Place.fault?, nesting]
  | binary op left right ihl ihr =>
    rw [places, List.findSome?_cons, rejection?_binary, isFinite_binary, nesting]
    by_cases hdepth : limit ≤ depth
    · rw [if_pos hdepth]
      refine iff_of_false (Option.some_ne_none _) ?_
      rintro ⟨-, hn⟩
      omega
    · rw [if_neg hdepth, List.findSome?_append, Option.or_eq_none_iff, ihl, ihr]
      constructor
      · rintro ⟨⟨hl, hnl⟩, hr, hnr⟩
        exact ⟨⟨hl, hr⟩, by omega⟩
      · rintro ⟨⟨hl, hr⟩, hn⟩
        exact ⟨⟨hl, by omega⟩, hr, by omega⟩

/-- The text of a tree is read up to the first place where it cannot be, whatever follows it. -/
theorem stops_of_findSome?_places {e : Expr} {limit depth : Nat} {before source rest : Text}
    {r : Rejection} (hsplit : source.Splits e.text rest)
    (h : (e.places depth before).findSome? (Place.rejection? limit) = some r) :
    ∃ log r', Stops limit depth source log r' ∧ r = r'.shift before.byteLength := by
  induction e generalizing depth before source rest with
  | const value =>
    by_cases hfin : value.isFinite
    · simp [places, Place.rejection?, Place.fault?, hfin] at h
    · have hr : r = ⟨.invalidTerm, before.byteLength⟩ := by
        simpa [places, Place.rejection?, Place.fault?, hfin] using h.symm
      have hfirst := hsplit.firstTerm_eq (Term.space_not_mem_text (.const value))
      obtain ⟨hne, -, hnone⟩ := Term.rejected_of_mem_words (Style.write_mem_words hfin)
      refine ⟨[], ⟨.invalidTerm, 0⟩, .invalid ?_ (hfirst ▸ hnone), ?_⟩
      · rintro rfl
        exact hne hfirst.symm
      · rw [hr, Rejection.shift, Nat.zero_add]
  | var index => simp [places, Place.rejection?, Place.fault?] at h
  | binary op left right ihl ihr =>
    obtain ⟨_, rfl, htail⟩ := hsplit.of_append
    obtain ⟨mid, rfl, hmid⟩ := htail.of_append
    rw [places, List.findSome?_cons, rejection?_binary] at h
    by_cases hdepth : limit ≤ depth
    · rw [if_pos hdepth] at h
      cases h
      have hterm : Term.ofText? (Text.firstTerm (op.symbol :: ' ' :: (left.text ++ ' ' :: mid))) =
          some (.op op) := by
        rw [Text.firstTerm_symbol, Term.ofText?_symbol]
      exact ⟨_, _, .deep hterm hdepth, by rw [Rejection.shift, Nat.zero_add]⟩
    · rw [if_neg hdepth, List.findSome?_append, Option.or_eq_some_iff] at h
      rw [Nat.not_le] at hdepth
      rcases h with h | ⟨hnone, h⟩
      · obtain ⟨_, r', hs, rfl⟩ := ihl (Text.splits_append left.text mid) h
        obtain ⟨log, hs⟩ := hs.under_left op hdepth
        refine ⟨log, _, hs, ?_⟩
        rw [Rejection.shift_shift, Text.byteLength_append, Text.byteLength_symbol, Nat.add_comm]
        rfl
      · obtain ⟨hfin, hn⟩ := findSome?_places_eq_none_iff.mp hnone
        obtain ⟨_, r', hs, rfl⟩ := ihr hmid h
        obtain ⟨log, hs⟩ := hs.under_right op hdepth (derives_text hfin) hn
        refine ⟨log, _, hs, ?_⟩
        rw [Rejection.shift_shift, Text.byteLength_append, Text.byteLength_symbol_append,
          Text.byteLength_nil, Nat.zero_add, Nat.add_comm]

theorem compile_text_of_isFinite {e : Expr} {limit : Nat} (h : e.IsFinite)
    (hn : e.nesting ≤ limit) : compile limit e.text = .ok e :=
  (derives_text h).compile hn

theorem isFinite_of_compile {e : Expr} {limit : Nat} {source : Text}
    (h : compile limit source = .ok e) : e.IsFinite ∧ e.nesting ≤ limit := by
  obtain ⟨hn, s, hs, -⟩ := compile_eq_ok_iff.mp h
  exact ⟨hs.isFinite, hn⟩

theorem compile_text_of_rejection {e : Expr} {limit : Nat} {r : Rejection}
    (h : (e.places 0 []).findSome? (Place.rejection? limit) = some r) :
    compile limit e.text = .error r := by
  obtain ⟨log, r', hs, rfl⟩ := stops_of_findSome?_places (Text.splits_self e.text) h
  exact compile_eq_error_iff.mpr (.inl ⟨log, hs⟩)

end Expr

/-- The canonical text of a tree compiles to the tree if its constants are finite and its nesting is
within the limit. Otherwise it is rejected at the byte where the first faulty node in preorder
starts. Trees that were compiled are of the first kind. -/
theorem compile_text (limit : Nat) (e : Expr) :
    (compile limit e.text = .ok e ↔ e.IsFinite ∧ e.nesting ≤ limit) ∧
    (¬ (e.IsFinite ∧ e.nesting ≤ limit) → ∃ earlier p later fault after,
      e.places 0 [] = earlier ++ p :: later ∧
      (∀ q ∈ earlier, q.fault? limit = none) ∧ p.fault? limit = some fault ∧
      e.text = p.before ++ (p.node.text ++ after) ∧
      compile limit e.text = .error ⟨fault, p.before.byteLength⟩) ∧
    ∀ text, compile limit text = .ok e →
      e.IsFinite ∧ e.nesting ≤ limit ∧ compile limit e.text = .ok e := by
  refine ⟨?_, ?_, ?_⟩
  · constructor
    · exact Expr.isFinite_of_compile
    · rintro ⟨hfin, hn⟩
      exact Expr.compile_text_of_isFinite hfin hn
  · intro h
    have hsome : (e.places 0 []).findSome? (Place.rejection? limit) ≠ none :=
      mt Expr.findSome?_places_eq_none_iff.mp h
    obtain ⟨r, hr⟩ := Option.ne_none_iff_exists'.mp hsome
    obtain ⟨earlier, p, later, hplaces, hp, hclean⟩ := List.findSome?_eq_some_iff.mp hr
    obtain ⟨fault, hfault, rfl⟩ := Option.map_eq_some_iff.mp hp
    obtain ⟨after, hafter⟩ := Expr.text_eq_of_mem_places (hplaces ▸ List.mem_append_cons_self)
    refine ⟨earlier, p, later, fault, after, hplaces, ?_, hfault, hafter,
      Expr.compile_text_of_rejection hr⟩
    intro q hq
    exact Option.map_eq_none_iff.mp (hclean q hq)
  · intro text h
    obtain ⟨hfin, hn⟩ := Expr.isFinite_of_compile h
    exact ⟨hfin, hn, Expr.compile_text_of_isFinite hfin hn⟩

end PolishArithmetic
