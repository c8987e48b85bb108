import PolishArithmetic.Proofs.Descent

/-!
The terms of a text, from left to right. An expression is read off the first of them, and they are
the terms of its tree in preorder.
-/
namespace PolishArithmetic

def Term.index? : Term → Option UInt64
  | .var index => some index
  | _ => none

namespace Expr

/-- The indices of the variables, one for every occurrence. -/
def indices (e : Expr) : List UInt64 :=
  e.terms.filterMap Term.index?

@[simp] theorem indices_const (value : Float) : (Expr.const value).indices = [] := rfl

@[simp] theorem indices_var (index : UInt64) : (Expr.var index).indices = [index] := rfl

@[simp] theorem indices_binary (op : Operator) (left right : Expr) :
    (Expr.binary op left right).indices = left.indices ++ right.indices :=
  List.filterMap_append

end Expr

namespace Text

/-- The parts of a text between its spaces. After a space at the end no term is left. -/
def terms (text : Text) : List Text :=
  if _h : text = [] then [] else text.firstTerm :: text.afterTerm.terms
termination_by text.length
decreasing_by exact length_afterTerm_lt _h

/-- The indices of the terms that are variables, one for every occurrence. -/
def indices (text : Text) : List UInt64 :=
  (text.terms.filterMap Term.ofText?).filterMap Term.index?

@[simp] theorem terms_nil : terms [] = [] := by
  rw [terms, dif_pos rfl]

theorem terms_of_ne_nil {text : Text} (h : text ≠ []) :
    text.terms = text.firstTerm :: text.afterTerm.terms := by
  rw [terms, dif_neg h]

/-- The terms with one space behind each. -/
def spaced (terms : List Text) : Text :=
  terms.flatMap (· ++ [' '])

@[simp] theorem spaced_nil : spaced [] = [] := rfl

@[simp] theorem spaced_cons (term : Text) (terms : List Text) :
    spaced (term :: terms) = term ++ ' ' :: spaced terms := by
  simp [spaced]

@[simp] theorem spaced_append (terms terms' : List Text) :
    spaced (terms ++ terms') = spaced terms ++ spaced terms' :=
  List.flatMap_append

/-- The text is the terms with one space between any two, and perhaps one at the end. -/
def IsJoined (text : Text) (terms : List Text) : Prop :=
  text = [' '].intercalate terms ∨ text = [' '].intercalate terms ++ [' ']

theorem splits_terms {text : Text} (h : text ≠ []) :
    text.Splits ([' '].intercalate text.terms) [] := by
  induction text using terms.induct with
  | case1 => exact absurd rfl h
  | case2 text _ ih =>
    rw [terms_of_ne_nil h]
    by_cases hafter : text.afterTerm = []
    · rw [hafter, terms_nil, List.intercalate_singleton]
      exact hafter ▸ text.splits_firstTerm
    · have hrest := ih hafter
      rw [terms_of_ne_nil hafter] at hrest ⊢
      rw [List.intercalate_cons_cons, List.append_assoc]
      exact text.splits_firstTerm.append hrest hafter

theorem isJoined_terms (text : Text) : text.IsJoined text.terms := by
  by_cases h : text = []
  · subst h
    exact .inl (by rw [terms_nil]; rfl)
  · rcases splits_terms h with h | ⟨h, -⟩
    · exact .inr h
    · exact .inl h

end Text

section

variable {limit depth : Nat} {text rest : Text} {log : List Sighting} {e : Expr}

/-- The log of an expression holds the terms that were read. -/
theorem Yields.terms_eq (h : Yields limit depth text log e rest) :
    text.terms = log.map Sighting.term ++ rest.terms := by
  induction h with
  | leaf hterm _ => exact Text.terms_of_ne_nil (Text.ne_nil_of_firstTerm hterm)
  | binary hterm _ _ _ ihl ihr =>
    rw [Text.terms_of_ne_nil (Text.ne_nil_of_firstTerm hterm), ihl, ihr]
    simp

theorem Yields.eq_spaced (h : Yields limit depth text log e rest) (hrest : rest ≠ []) :
    text = Text.spaced (log.map Sighting.term) ++ rest := by
  induction h with
  | @leaf _ text =>
    have htext := text.splits_firstTerm.eq_append hrest
    simpa using htext
  | @binary _ text _ _ _ _ _ _ _ _ _ hl hr ihl ihr =>
    have htext := text.splits_firstTerm.eq_append hl.text_ne_nil
    rw [ihl hr.text_ne_nil, ihr hrest] at htext
    simpa using htext

theorem Yields.map_ofText?_log (h : Yields limit depth text log e rest) :
    log.map (fun s => Term.ofText? s.term) = e.terms.map some := by
  induction h with
  | @leaf _ _ term _ hterm hleaf =>
    rw [List.map_singleton, hterm]
    cases term <;> cases hleaf <;> rfl
  | binary hterm _ _ _ ihl ihr => simp [Expr.terms, hterm, ihl, ihr]

theorem map_ofText?_terms (h : compile limit text = .ok e) :
    text.terms.map Term.ofText? = e.terms.map some := by
  obtain ⟨log, hy⟩ := compile_eq_ok_iff_yields.mp h
  have hterms := hy.terms_eq
  rw [Text.terms_nil, List.append_nil] at hterms
  rw [hterms, List.map_map]
  exact hy.map_ofText?_log

theorem filterMap_ofText?_terms (h : compile limit text = .ok e) :
    text.terms.filterMap Term.ofText? = e.terms := by
  calc text.terms.filterMap Term.ofText?
      = (text.terms.map Term.ofText?).filterMap id := by rw [List.filterMap_map]; rfl
    _ = (e.terms.map some).filterMap id := by rw [map_ofText?_terms h]
    _ = e.terms := by rw [List.filterMap_map]; exact List.filterMap_some

/-- The variables of a tree are those of the text that it was read from. -/
theorem indices_of_compile (h : compile limit text = .ok e) : text.indices = e.indices := by
  rw [Text.indices, filterMap_ofText?_terms h, Expr.indices]

end

end PolishArithmetic
