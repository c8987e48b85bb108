import PolishArithmetic.Command.Run
import PolishArithmetic.Proofs.StackEvaluation

/-!
The check before evaluation. An expression passes it exactly if every variable that its evaluation
reads has a value. Otherwise nothing is read, and the variable with the greatest index is named.
-/
namespace PolishArithmetic

namespace Expr

theorem max_index_eq (i j : UInt64) : i ≤ j ∧ max i j = j ∨ j ≤ i ∧ max i j = i := by
  rw [← UInt64.toNat_inj, ← UInt64.toNat_inj, UInt64.le_iff_toNat_le, UInt64.le_iff_toNat_le,
    toNat_max_index]
  omega

theorem maxVariable?_eq_none {e : Expr} (h : e.maxVariable? = none) : e.indices = [] := by
  induction e with
  | const value => rfl
  | var index => cases h
  | binary op left right ihl ihr =>
    obtain ⟨hl, hr⟩ := Option.max_eq_none_iff.mp h
    rw [indices_binary, ihl hl, ihr hr, List.append_nil]

theorem maxVariable?_eq_some {e : Expr} {index : UInt64} (h : e.maxVariable? = some index) :
    index ∈ e.indices ∧ ∀ i ∈ e.indices, i ≤ index := by
  induction e generalizing index with
  | const value => cases h
  | var i =>
    cases h
    simp
  | binary op left right ihl ihr =>
    rw [indices_binary]
    rcases Option.max_eq_some_iff.mp h with ⟨hl, hr⟩ | ⟨hl, hr⟩ | ⟨i, j, hl, hr, rfl⟩
    · rw [maxVariable?_eq_none hr, List.append_nil]
      exact ihl hl
    · rw [maxVariable?_eq_none hl, List.nil_append]
      exact ihr hr
    · obtain ⟨hi, hlei⟩ := ihl hl
      obtain ⟨hj, hlej⟩ := ihr hr
      rw [List.forall_mem_append, List.mem_append]
      rcases max_index_eq i j with ⟨hij, hmax⟩ | ⟨hji, hmax⟩ <;> rw [hmax]
      · exact ⟨.inr hj, fun k hk => UInt64.le_trans (hlei k hk) hij, hlej⟩
      · exact ⟨.inl hi, hlei, fun k hk => UInt64.le_trans (hlej k hk) hji⟩

/-- Evaluation does not get past a variable without a value. -/
theorem eval?_eq_none {values : List Float} {e : Expr} {i : UInt64} (hi : i ∈ e.indices)
    (hlen : values.length ≤ i.toNat) : e.eval? values = none := by
  induction e with
  | const value => cases hi
  | var index =>
    rw [indices_var, List.mem_singleton] at hi
    subst hi
    exact List.getElem?_eq_none hlen
  | binary op left right ihl ihr =>
    rw [eval?] at ihl ihr
    rw [eval?, evalM]
    rcases List.mem_append.mp (indices_binary .. ▸ hi) with hi | hi
    · rw [ihl hi]
      rfl
    · cases left.evalM fun index => values[index.toNat]? with
      | none => rfl
      | some x =>
        rw [ihr hi]
        rfl

theorem missingValue?_eq_none_iff {values : List Float} {e : Expr} :
    e.missingValue? values = none ↔ ∀ i ∈ e.indices, i.toNat < values.length := by
  unfold missingValue?
  cases hmax : e.maxVariable? with
  | none => simp [maxVariable?_eq_none hmax]
  | some index =>
    obtain ⟨hmem, hle⟩ := maxVariable?_eq_some hmax
    dsimp only
    split
    · next hlen =>
      exact iff_of_false (Option.some_ne_none _) fun h => Nat.not_lt.mpr hlen (h index hmem)
    · next hlen =>
      refine iff_of_true rfl fun i hi => ?_
      have := UInt64.le_iff_toNat_le.mp (hle i hi)
      omega

theorem missingValue?_eq_some {values : List Float} {e : Expr} {missing : MissingValue}
    (h : e.missingValue? values = some missing) :
    e.maxVariable? = some missing.index ∧ missing.given = values.length ∧
      values.length ≤ missing.index.toNat := by
  unfold missingValue? at h
  split at h
  · next index hmax =>
    split at h
    · next hlen =>
      cases h
      exact ⟨hmax, rfl, hlen⟩
    · cases h
  · cases h

theorem eval?_of_missing {values : List Float} {e : Expr} {missing : MissingValue}
    (h : e.missingValue? values = some missing) : e.eval? values = none := by
  obtain ⟨hmax, -, hlen⟩ := missingValue?_eq_some h
  exact eval?_eq_none (maxVariable?_eq_some hmax).1 hlen

end Expr

namespace Command

/-- The reply with variables read by `read`. -/
def replyM {m : Type → Type} [Monad m] (read : UInt64 → m Float) (o : Options) (text : Text) :
    m Reply :=
  match compile o.limit text with
  | .error r => pure (.rejected r)
  | .ok e =>
    match e.missingValue? o.values with
    | some missing => pure (.missing missing)
    | none => do
      let value ← e.evalM read
      pure (.value value)

theorem replyTo_of_missing {values : List Float} {e : Expr} {missing : MissingValue}
    (h : e.missingValue? values = some missing) : replyTo values e = .missing missing := by
  unfold replyTo
  split
  · next h' => rw [h] at h'; cases h'; rfl
  · next h' => rw [h] at h'; cases h'

theorem exists_replyTo_eq_value {values : List Float} {e : Expr} (h : e.missingValue? values = none) :
    ∃ x, e.eval? values = some x ∧ replyTo values e = .value x := by
  unfold replyTo
  split
  · next h' => rw [h] at h'; cases h'
  · exact ⟨_, (Option.some_get _).symm, rfl⟩

theorem replyTo_of_eval? {values : List Float} {e : Expr} {x : Float}
    (h : e.eval? values = some x) : replyTo values e = .value x := by
  cases hm : e.missingValue? values with
  | none =>
    obtain ⟨y, hy, hreply⟩ := exists_replyTo_eq_value hm
    rw [hreply, Option.some.inj (hy.symm.trans h)]
  | some missing => simp [Expr.eval?_of_missing hm] at h

/-- Reading the list of values never fails. -/
theorem replyM_values (o : Options) (text : Text) :
    replyM (fun index => o.values[index.toNat]?) o text = some (reply o text) := by
  unfold replyM reply
  cases compile o.limit text with
  | error r => rfl
  | ok e =>
    cases hm : e.missingValue? o.values with
    | some missing => simp [hm, replyTo_of_missing hm]
    | none =>
      obtain ⟨x, hx, hreply⟩ := exists_replyTo_eq_value hm
      rw [Expr.eval?] at hx
      simp [hm, hx, hreply]

end Command

/-- An expression passes the check exactly if its evaluation reads values that were given only.
Otherwise the greatest variable is named before anything is read, and evaluation has no value. -/
theorem missingValue?_guards_reads {σ : Type} (read : UInt64 → StateM σ Float) (s : σ)
    (o : Command.Options) {text : Text} {e : Expr} (h : compile o.limit text = .ok e) :
    (e.missingValue? o.values = none ↔ ∀ i ∈ text.indices, i.toNat < o.values.length) ∧
    Command.replyM (fun index => o.values[index.toNat]?) o text = some (Command.reply o text) ∧
    (e.missingValue? o.values = none → ∃ x, e.eval? o.values = some x ∧
      Command.reply o text = .value x ∧
      ((Command.replyM (noting read) o text).run ([], s)).2.1 = text.indices) ∧
    ∀ missing, e.missingValue? o.values = some missing →
      missing.index ∈ text.indices ∧ (∀ i ∈ text.indices, i ≤ missing.index) ∧
      missing.given = o.values.length ∧ o.values.length ≤ missing.index.toNat ∧
      Command.reply o text = .missing missing ∧
      (Command.replyM (noting read) o text).run ([], s) = (.missing missing, [], s) ∧
      e.eval? o.values = none := by
  rw [indices_of_compile h]
  refine ⟨Expr.missingValue?_eq_none_iff, Command.replyM_values o text, ?_, ?_⟩
  · intro hm
    obtain ⟨x, hx, hreply⟩ := Command.exists_replyTo_eq_value hm
    obtain ⟨_, value, s', -, -, -, hnoting⟩ := e.run_evalM_noting read [] s
    refine ⟨x, hx, ?_, ?_⟩
    · simpa only [Command.reply, h] using hreply
    · simp only [Command.replyM, h, hm]
      rw [run_bind_of_run hnoting]
      rfl
  · intro missing hm
    obtain ⟨hmax, hgiven, hlen⟩ := Expr.missingValue?_eq_some hm
    obtain ⟨hmem, hle⟩ := Expr.maxVariable?_eq_some hmax
    refine ⟨hmem, hle, hgiven, hlen, ?_, ?_, Expr.eval?_of_missing hm⟩
    · simpa only [Command.reply, h] using Command.replyTo_of_missing hm
    · simp only [Command.replyM, h, hm]
      rfl

/-- Two values do for `x0`, but not for `x2`. -/
theorem missingValue?_guards_reads_gap :
    let o : Command.Options := ⟨[1, 2], 1, false, none⟩
    let text : Text := "+ x0 x2".toList
    compile o.limit text = .ok (.binary .add (.var 0) (.var 2)) ∧
      Command.reply o text = .missing ⟨2, 2⟩ ∧
      (Command.replyM (noting fun index => pure index.toFloat) o text).run ([], ()) =
        (.missing ⟨2, 2⟩, [], ()) := by
  intro o text
  have hx : Derives "x0".toList (.var 0) := .var (by decide) (by decide)
  have hy : Derives "x2".toList (.var 2) := .var (by decide) (by decide)
  have hc : compile 1 text = .ok (.binary .add (.var 0) (.var 2)) :=
    (Derives.binary (Term.ofText?_symbol .add) hx hy).compile (by decide)
  obtain ⟨-, -, -, hmissing⟩ :=
    missingValue?_guards_reads (fun index => pure index.toFloat) () o hc
  obtain ⟨-, -, -, -, hreply, hreads, -⟩ := hmissing ⟨2, 2⟩ rfl
  exact ⟨hc, hreply, hreads⟩

end PolishArithmetic
