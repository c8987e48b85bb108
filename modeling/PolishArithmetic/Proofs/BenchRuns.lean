import Mathlib.Data.List.Dedup
import PolishArithmetic.Bench
import PolishArithmetic.Proofs.StackEvaluation

/-!
Runs of actions on a bench. An action that cannot be carried out leaves the bench as it is, a name
keeps its expression until an action on that name, and an evaluation has the values that were
assigned last, whatever else has been done. The answers that count names or variables count each of
them once.
-/
namespace PolishArithmetic

namespace Bench

/-- The name under which the action stores an expression, or whose expression it takes away. -/
def Action.target? : Action → Option Text
  | .build name _ _ | .const name _ | .var name _ | .binary name _ _ _ | .copy name _
  | .release name => some name
  | _ => none

def Action.assignment? : Action → Option (UInt64 × Float)
  | .assign index value => some (index, value)
  | _ => none

/-- The answers that come in place of a result. -/
def Answer.isFailure : Answer → Bool
  | .rejected _ | .noName _ | .noOperator _ => true
  | _ => false

def Answer.tree? : Answer → Option Expr
  | .tree e => some e
  | _ => none

/-- All that can become of a bench in one step. -/
inductive Change (b : Bench) : Action → Bench × Answer → Prop where
  | kept {action answer} (htarget : action.target? = none ∨ answer.isFailure)
      (hassignment : action.assignment? = none) : Change b action (b, answer)
  | stored {action name e} (htarget : action.target? = some name)
      (hassignment : action.assignment? = none) : Change b action (b.store name e)
  | released {name e} (h : b.expression? name = some e) :
      Change b (.release name) (b.remove name, .released e (b.remove name).expressions.length)
  | assigned {index value} : Change b (.assign index value)
      (b.assign index value, .assigned (b.assign index value).values.length)

variable {b : Bench} {action : Action} {actions : List Action} {name : Text}

theorem Change.onName {act : Expr → Bench × Answer} (hassignment : action.assignment? = none)
    (h : ∀ e, b.expression? name = some e → Change b action (act e)) :
    Change b action (b.onName name act) := by
  unfold Bench.onName
  split
  next e he => exact h e he
  next => exact .kept (.inr rfl) hassignment

theorem change_step (b : Bench) (action : Action) : Change b action (b.step action) := by
  cases action with
  | build name text limit =>
    simp only [step]
    split
    next => exact .stored rfl rfl
    next => exact .kept (.inr rfl) rfl
  | const name value => exact .stored rfl rfl
  | var name index => exact .stored rfl rfl
  | binary name symbol left right =>
    simp only [step]
    split
    next => exact .kept (.inr rfl) rfl
    next => exact .onName rfl fun _ _ => .onName rfl fun _ _ => .stored rfl rfl
  | copy name source => exact .onName rfl fun _ _ => .stored rfl rfl
  | view name => exact .onName rfl fun _ _ => .kept (.inl rfl) rfl
  | assign index value => exact .assigned
  | eval name => exact .onName rfl fun _ _ => .kept (.inl rfl) rfl
  | compare left right => exact .onName rfl fun _ _ => .onName rfl fun _ _ => .kept (.inl rfl) rfl
  | reread name =>
    refine .onName rfl fun e _ => ?_
    split <;> exact .kept (.inl rfl) rfl
  | describe name => exact .onName rfl fun _ _ => .kept (.inl rfl) rfl
  | release name => exact .onName rfl fun _ he => .released he

theorem step_of_isFailure (h : (b.step action).2.isFailure) : (b.step action).1 = b := by
  have hchange := change_step b action
  generalize b.step action = result at hchange h ⊢
  cases hchange with
  | kept => rfl
  | stored | released | assigned => simp [store, Answer.isFailure] at h

/-- After a step the target holds the tree of the answer, which is none after a release. Under every
other name there is what was there before. -/
theorem expression?_step (b : Bench) (action : Action) (name : Text) :
    (b.step action).1.expression? name =
      if action.target? = some name ∧ ¬(b.step action).2.isFailure then (b.step action).2.tree?
      else b.expression? name := by
  have hchange := change_step b action
  generalize b.step action = result at hchange ⊢
  cases hchange with
  | kept htarget => rcases htarget with h | h <;> simp [h]
  | stored htarget =>
    simp [store, htarget, Answer.isFailure, Answer.tree?, eq_comm]
  | released => simp [Action.target?, Answer.isFailure, Answer.tree?, eq_comm]
  | assigned => simp [Action.target?]

theorem expression?_step_of_ne (h : action.target? ≠ some name) :
    (b.step action).1.expression? name = b.expression? name := by
  simp [expression?_step, h]

theorem valueOf_step (b : Bench) (action : Action) (index : UInt64) :
    (b.step action).1.valueOf index =
      match action.assignment? with
      | some (index', value) => if index = index' then value else b.valueOf index
      | none => b.valueOf index := by
  have hchange := change_step b action
  generalize b.step action = result at hchange ⊢
  cases hchange with
  | kept _ h | stored _ h => simp [h, store]
  | released => simp [Action.assignment?]
  | assigned => simp [Action.assignment?]

/-- An evaluation reads the variables in preorder, with the values that are set now. -/
theorem step_eval {e : Expr} (h : b.expression? name = some e) :
    b.step (.eval name) = (b, .value (e.eval b.valueOf) e.indices) := by
  simp [step, onName, h, Expr.run_evalM_recording]

/-- The bench after the actions. -/
def after (b : Bench) (actions : List Action) : Bench :=
  actions.foldl (fun b action => (b.step action).1) b

@[simp] theorem after_nil : b.after [] = b := rfl

@[simp] theorem after_cons : b.after (action :: actions) = (b.step action).1.after actions := rfl

theorem after_append (b : Bench) (first second : List Action) :
    b.after (first ++ second) = (b.after first).after second :=
  List.foldl_append

theorem run_append (b : Bench) (first second : List Action) :
    b.run (first ++ second) = b.run first ++ (b.after first).run second := by
  induction first generalizing b with
  | nil => rfl
  | cons action first ih => simp [run, ih]

/-- The actions that are carried out when all of them are tried in turn. -/
def carriedOut (b : Bench) : List Action → List Action
  | [] => []
  | action :: actions =>
    let (b', answer) := b.step action
    if answer.isFailure then b'.carriedOut actions else action :: b'.carriedOut actions

/-- Without the actions that fail, the others give the same answers and leave the same bench. -/
theorem run_carriedOut (b : Bench) (actions : List Action) :
    b.run (b.carriedOut actions) = (b.run actions).filter (!·.isFailure) ∧
      b.after (b.carriedOut actions) = b.after actions := by
  induction actions generalizing b with
  | nil => exact ⟨rfl, rfl⟩
  | cons action actions ih =>
    obtain ⟨hrun, hafter⟩ := ih (b.step action).1
    by_cases h : (b.step action).2.isFailure
    · have hsame := step_of_isFailure h
      rw [hsame] at hrun hafter
      simp [carriedOut, run, h, hsame, hrun, hafter]
    · simp [carriedOut, run, h, hrun, hafter]

theorem expression?_after_of_ne (h : ∀ action ∈ actions, action.target? ≠ some name) :
    (b.after actions).expression? name = b.expression? name := by
  induction actions generalizing b with
  | nil => rfl
  | cons action actions ih =>
    obtain ⟨hfirst, hrest⟩ := List.forall_mem_cons.mp h
    rw [after_cons, ih hrest, expression?_step_of_ne hfirst]

/-- The value that the actions assign last, if any. -/
def lastValue? (actions : List Action) (index : UInt64) : Option Float :=
  (actions.filterMap Action.assignment?).reverse.lookup index

theorem valueOf_after (b : Bench) (actions : List Action) (index : UInt64) :
    (b.after actions).valueOf index = (lastValue? actions index).getD (b.valueOf index) := by
  induction actions generalizing b with
  | nil => rfl
  | cons action actions ih =>
    rw [after_cons, ih, valueOf_step]
    cases h : action.assignment? with
    | none => simp [lastValue?, h]
    | some assignment =>
      obtain ⟨index', value⟩ := assignment
      by_cases hindex : index = index'
      · simp [lastValue?, h, hindex, List.lookup_append]
      · simp [lastValue?, h, hindex, List.lookup_append, List.lookup_cons,
          beq_eq_false_iff_ne.mpr hindex]

/-- Whatever has been done, an evaluation sees the tree that was last stored under the name and the
values that were last assigned. -/
theorem eval_after {first later : List Action} {e : Expr} (htarget : action.target? = some name)
    (htree : ((empty.after first).step action).2 = .tree e)
    (hlater : ∀ action ∈ later, action.target? ≠ some name) :
    ((empty.after (first ++ action :: later)).step (.eval name)).2 =
      .value (e.eval fun index => (lastValue? (first ++ action :: later) index).getD 0)
        e.indices := by
  have hstored : (empty.after (first ++ action :: later)).expression? name = some e := by
    rw [after_append, after_cons, expression?_after_of_ne hlater, expression?_step, htree]
    simp [htarget, Answer.isFailure, Answer.tree?]
  have hvalues : (empty.after (first ++ action :: later)).valueOf =
      fun index => (lastValue? (first ++ action :: later) index).getD 0 :=
    funext fun index => valueOf_after empty _ index
  rw [step_eval hstored, hvalues]

/-- No name and no variable stands in the lists of the bench twice. -/
structure NoTwice (b : Bench) : Prop where
  names : (b.expressions.map Prod.fst).Nodup
  indices : (b.values.map Prod.fst).Nodup

theorem nodup_keys_filter {α β : Type} {entries : List (α × β)} (keep : α × β → Bool)
    (h : (entries.map Prod.fst).Nodup) : ((entries.filter keep).map Prod.fst).Nodup :=
  h.sublist (List.filter_sublist.map Prod.fst)

theorem nodup_keys_cons_filter {α β : Type} [DecidableEq α] {entries : List (α × β)}
    (key : α) (value : β) (h : (entries.map Prod.fst).Nodup) :
    (((key, value) :: entries.filter fun entry => entry.1 ≠ key).map Prod.fst).Nodup := by
  refine List.nodup_cons.mpr ⟨?_, nodup_keys_filter _ h⟩
  simp

theorem NoTwice.step (h : b.NoTwice) (action : Action) : (b.step action).1.NoTwice := by
  have hchange := change_step b action
  generalize b.step action = result at hchange ⊢
  cases hchange with
  | kept => exact h
  | stored => exact ⟨nodup_keys_cons_filter _ _ h.names, h.indices⟩
  | released => exact ⟨nodup_keys_filter _ h.names, h.indices⟩
  | assigned => exact ⟨h.names, nodup_keys_cons_filter _ _ h.indices⟩

theorem NoTwice.after (h : b.NoTwice) (actions : List Action) : (b.after actions).NoTwice := by
  induction actions generalizing b with
  | nil => exact h
  | cons action actions ih => exact ih (h.step action)

theorem noTwice_empty : empty.NoTwice :=
  ⟨.nil, .nil⟩

theorem mem_indices_step (b : Bench) (action : Action) (index : UInt64) :
    index ∈ (b.step action).1.values.map Prod.fst ↔
      index ∈ action.assignment?.map Prod.fst ∨ index ∈ b.values.map Prod.fst := by
  have hchange := change_step b action
  generalize b.step action = result at hchange ⊢
  cases hchange with
  | kept _ h | stored _ h => simp [h, store, put]
  | released => simp [Action.assignment?, remove]
  | @assigned index' value =>
    by_cases h : index = index'
    · simp [Action.assignment?, assign, h]
    · simp [Action.assignment?, assign, h, Ne.symm h]

theorem mem_indices_after (b : Bench) (actions : List Action) (index : UInt64) :
    index ∈ (b.after actions).values.map Prod.fst ↔
      index ∈ (actions.filterMap Action.assignment?).map Prod.fst ∨
        index ∈ b.values.map Prod.fst := by
  induction actions generalizing b with
  | nil => simp
  | cons action actions ih =>
    rw [after_cons, ih, mem_indices_step]
    cases h : action.assignment? with
    | none => simp [h]
    | some assignment => simp [h, or_left_comm, or_assoc, @eq_comm _ index assignment.1]

/-- The bench counts every variable that was assigned once. -/
theorem length_values_after (actions : List Action) :
    (empty.after actions).values.length =
      ((actions.filterMap Action.assignment?).map Prod.fst).dedup.length := by
  have hperm : ((empty.after actions).values.map Prod.fst).Perm
      ((actions.filterMap Action.assignment?).map Prod.fst).dedup := by
    rw [List.perm_ext_iff_of_nodup (noTwice_empty.after actions).indices (List.nodup_dedup _)]
    intro index
    rw [List.mem_dedup, mem_indices_after]
    simp [empty]
  simpa using hperm.length_eq

theorem assign_after (actions : List Action) (index : UInt64) (value : Float) :
    ((empty.after actions).step (.assign index value)).2 =
      .assigned (((actions ++ [Action.assign index value]).filterMap Action.assignment?).map
        Prod.fst).dedup.length := by
  rw [← length_values_after, after_append]
  rfl

theorem NoTwice.length_expressions (h : b.NoTwice) {names : List Text} (hnodup : names.Nodup)
    (hmem : ∀ name, name ∈ names ↔ (b.expression? name).isSome) :
    b.expressions.length = names.length := by
  have hperm : (b.expressions.map Prod.fst).Perm names := by
    rw [List.perm_ext_iff_of_nodup h.names hnodup]
    intro name
    rw [hmem, expression?, List.lookup_isSome_iff]
    simp
  simpa using hperm.length_eq

/-- A release answers with the tree that it takes away and the number of names that still have
one. -/
theorem release_after {e : Expr} (h : (empty.after actions).expression? name = some e)
    {names : List Text} (hnodup : names.Nodup)
    (hmem : ∀ other, other ∈ names ↔
      other ≠ name ∧ ((empty.after actions).expression? other).isSome) :
    ((empty.after actions).step (.release name)).2 = .released e names.length := by
  have hstep : (empty.after actions).step (.release name) =
      ((empty.after actions).remove name,
        .released e ((empty.after actions).remove name).expressions.length) := by
    simp [step, onName, h]
  have hleft : ((empty.after actions).remove name).NoTwice := by
    simpa [hstep] using (noTwice_empty.after actions).step (.release name)
  rw [hstep, hleft.length_expressions hnodup]
  intro other
  by_cases hother : other = name <;> simp [hmem, hother]

end Bench

end PolishArithmetic
