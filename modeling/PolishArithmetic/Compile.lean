import PolishArithmetic.Expr.Basic
import PolishArithmetic.Rejection

/-!
Compilation of a text to a tree, by recursive descent. Every call sees the rest of the text only and
rejects at positions relative to it; the caller adds the bytes that it had consumed. A log of the
terms, each with the number of operators around it, is kept whether the text is rejected or not.
-/
namespace PolishArithmetic

/-- A valid term met in a text, and the number of operators around it. -/
structure Sighting where
  term : Text
  depth : Nat
  deriving DecidableEq, Repr

structure Reading (α : Type) where
  sightings : List Sighting
  outcome : Except Rejection α

namespace Reading

instance : Monad Reading where
  pure a := ⟨[], .ok a⟩
  bind first next :=
    match first.outcome with
    | .ok a =>
      let second := next a
      ⟨first.sightings ++ second.sightings, second.outcome⟩
    | .error r => ⟨first.sightings, .error r⟩

def note (s : Sighting) : Reading Unit :=
  ⟨[s], .ok ()⟩

def reject {α : Type} (fault : Fault) : Reading α :=
  ⟨[], .error ⟨fault, 0⟩⟩

/-- A reading of `part` as a part of the reading of `whole`, which ends with `part`. -/
def within {α : Type} (whole part : Text) (r : Reading α) : Reading α :=
  match r.outcome with
  | .ok _ => r
  | .error e => { r with outcome := .error (e.shift (whole.byteLength - part.byteLength)) }

variable {α β : Type}

@[simp] theorem sightings_pure (a : α) : (pure a : Reading α).sightings = [] := rfl

@[simp] theorem outcome_pure (a : α) : (pure a : Reading α).outcome = .ok a := rfl

@[simp] theorem note_bind (s : Sighting) (next : Unit → Reading β) :
    note s >>= next = ⟨s :: (next ()).sightings, (next ()).outcome⟩ := rfl

@[simp] theorem ok_bind (log : List Sighting) (a : α) (next : α → Reading β) :
    (⟨log, .ok a⟩ : Reading α) >>= next = ⟨log ++ (next a).sightings, (next a).outcome⟩ := rfl

/-- A rejection leaves the log of what was read before it. -/
@[simp] theorem error_bind (log : List Sighting) (r : Rejection) (next : α → Reading β) :
    (⟨log, .error r⟩ : Reading α) >>= next = ⟨log, .error r⟩ := rfl

@[simp] theorem within_ok (whole part : Text) (log : List Sighting) (a : α) :
    (⟨log, .ok a⟩ : Reading α).within whole part = ⟨log, .ok a⟩ := rfl

@[simp] theorem within_error (whole part : Text) (log : List Sighting) (r : Rejection) :
    (⟨log, .error r⟩ : Reading α).within whole part =
      ⟨log, .error (r.shift (whole.byteLength - part.byteLength))⟩ := rfl

end Reading

/-- An expression read from the front of `text`, and the text after it. -/
structure Operand (text : Text) where
  expr : Expr
  rest : Text
  length_rest_lt : rest.length < text.length

/-- Reads one expression with `depth` operators around it from the front of `text`. -/
def descend (limit depth : Nat) (text : Text) : Reading (Operand text) :=
  if h : text = [] then
    Reading.reject .unexpectedEnd
  else
    have hrest := Text.length_afterTerm_lt h
    match Term.ofText? text.firstTerm with
    | none => Reading.reject .invalidTerm
    | some term => do
      Reading.note ⟨text.firstTerm, depth⟩
      match term with
      | .const value => return ⟨.const value, text.afterTerm, hrest⟩
      | .var index => return ⟨.var index, text.afterTerm, hrest⟩
      | .op op =>
        if limit ≤ depth then
          Reading.reject (.tooDeep limit)
        else
          let left ← (descend limit (depth + 1) text.afterTerm).within text text.afterTerm
          have hleft := left.length_rest_lt
          let right ← (descend limit (depth + 1) left.rest).within text left.rest
          have hright := right.length_rest_lt
          return ⟨.binary op left.expr right.expr, right.rest, by omega⟩
termination_by text.length

/-- Reads the whole text as one expression. -/
def readWhole (limit : Nat) (text : Text) : Reading Expr := do
  let whole ← descend limit 0 text
  if whole.rest = [] then
    return whole.expr
  else
    (Reading.reject .unexpectedContinuation).within text whole.rest

/-- Operators may be nested up to `limit` deep. -/
def compile (limit : Nat) (text : Text) : Except Rejection Expr :=
  (readWhole limit text).outcome

def defaultLimit : Nat := 1000

end PolishArithmetic
