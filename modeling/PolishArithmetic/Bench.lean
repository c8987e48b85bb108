import PolishArithmetic.Compile
import PolishArithmetic.Expr.Eval
import PolishArithmetic.Expr.Print

/-!
A bench holds expressions under names and one set of variables that all of them share. A variable
that was never set is zero.
-/
namespace PolishArithmetic

structure Bench where
  expressions : List (Text × Expr)
  values : List (UInt64 × Float)

namespace Bench

def empty : Bench := ⟨[], []⟩

def expression? (b : Bench) (name : Text) : Option Expr :=
  b.expressions.lookup name

def valueOf (b : Bench) (index : UInt64) : Float :=
  (b.values.lookup index).getD 0

def put (b : Bench) (name : Text) (e : Expr) : Bench :=
  { b with expressions := (name, e) :: b.expressions.filter (·.1 ≠ name) }

def remove (b : Bench) (name : Text) : Bench :=
  { b with expressions := b.expressions.filter (·.1 ≠ name) }

def assign (b : Bench) (index : UInt64) (value : Float) : Bench :=
  { b with values := (index, value) :: b.values.filter (·.1 ≠ index) }

/-- What is found among the entries that stay is what was found before, if its key stays. -/
theorem lookup_filter {α β : Type} [BEq α] [LawfulBEq α] (keep : α → Bool)
    (entries : List (α × β)) (key : α) :
    (entries.filter fun entry => keep entry.1).lookup key =
      if keep key then entries.lookup key else none := by
  induction entries with
  | nil => simp
  | cons entry entries ih =>
    obtain ⟨key', value⟩ := entry
    by_cases hkey : key = key'
    · subst hkey
      cases hkeep : keep key <;> simp [hkeep, ih]
    · have hne : (key == key') = false := beq_eq_false_iff_ne.mpr hkey
      cases hkeep : keep key' <;> simp [hkeep, ih, List.lookup_cons, hne]

theorem lookup_filter_ne {α β : Type} [BEq α] [LawfulBEq α] [DecidableEq α]
    (entries : List (α × β)) (key key' : α) :
    (entries.filter fun entry => entry.1 ≠ key).lookup key' =
      if key' = key then none else entries.lookup key' := by
  simpa using lookup_filter (fun other => decide (other ≠ key)) entries key'

section

variable {b : Bench} {name other : Text} {e : Expr} {index index' : UInt64} {value : Float}

@[simp] theorem expression?_put :
    (b.put name e).expression? other = if other = name then some e else b.expression? other := by
  simp only [expression?, put, List.lookup_cons, lookup_filter_ne]
  by_cases h : other = name
  · simp [h]
  · simp [h, beq_eq_false_iff_ne.mpr h]

@[simp] theorem expression?_remove :
    (b.remove name).expression? other = if other = name then none else b.expression? other :=
  lookup_filter_ne b.expressions name other

@[simp] theorem expression?_assign :
    (b.assign index value).expression? name = b.expression? name := rfl

@[simp] theorem valueOf_put : (b.put name e).valueOf index = b.valueOf index := rfl

@[simp] theorem valueOf_remove : (b.remove name).valueOf index = b.valueOf index := rfl

@[simp] theorem valueOf_assign :
    (b.assign index value).valueOf index' = if index' = index then value else b.valueOf index' := by
  simp only [valueOf, assign, List.lookup_cons, lookup_filter_ne]
  by_cases h : index' = index
  · simp [h]
  · simp [h, beq_eq_false_iff_ne.mpr h]

end

inductive Action where
  | build (name text : Text) (limit : Nat)
  | const (name : Text) (value : Float)
  | var (name : Text) (index : UInt64)
  | binary (name symbol left right : Text)
  | copy (name source : Text)
  | view (name : Text)
  | assign (index : UInt64) (value : Float)
  | eval (name : Text)
  | compare (left right : Text)
  | reread (name : Text)
  | describe (name : Text)
  | release (name : Text)

inductive Answer where
  | tree (e : Expr)
  | rejected (r : Rejection)
  | noName (name : Text)
  | noOperator (symbol : Text)
  | assigned (total : Nat)
  | value (x : Float) (reads : List UInt64)
  | equal (same : Bool)
  | description (text : Text)
  | released (e : Expr) (left : Nat)

/-- Stores the expression and answers with it. -/
def store (b : Bench) (name : Text) (e : Expr) : Bench × Answer :=
  (b.put name e, .tree e)

/-- An action on a named expression; without one the bench stays as it is. -/
def onName (b : Bench) (name : Text) (act : Expr → Bench × Answer) : Bench × Answer :=
  match b.expression? name with
  | some e => act e
  | none => (b, .noName name)

def step (b : Bench) : Action → Bench × Answer
  | .build name text limit =>
    match compile limit text with
    | .ok e => b.store name e
    | .error r => (b, .rejected r)
  | .const name value => b.store name (.const value)
  | .var name index => b.store name (.var index)
  | .binary name symbol left right =>
    match Operator.ofText? symbol with
    | none => (b, .noOperator symbol)
    | some op =>
      b.onName left fun l => b.onName right fun r => b.store name (.binary op l r)
  | .copy name source => b.onName source (b.store name)
  | .view name => b.onName name fun e => (b, .tree e)
  | .assign index value =>
    let b := b.assign index value
    (b, .assigned b.values.length)
  | .eval name =>
    b.onName name fun e =>
      let (value, reads) := (e.evalM (Expr.recording b.valueOf)).run []
      (b, .value value reads)
  | .compare left right =>
    b.onName left fun l => b.onName right fun r => (b, .equal (l.sameValues r))
  | .reread name =>
    b.onName name fun e =>
      match compile defaultLimit e.text with
      | .ok again => (b, .equal (e.sameValues again))
      | .error r => (b, .rejected r)
  | .describe name => b.onName name fun e => (b, .description e.description)
  | .release name =>
    b.onName name fun e =>
      let b := b.remove name
      (b, .released e b.expressions.length)

def run (b : Bench) : List Action → List Answer
  | [] => []
  | action :: rest =>
    let (b, answer) := b.step action
    answer :: b.run rest

end Bench

end PolishArithmetic
