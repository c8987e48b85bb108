import PolishArithmetic.Diagnostic
import PolishArithmetic.Proofs.Cutting

/-!
Spans, and what they cover. A span cuts a part out of a text exactly if its ends are in order and
lie between characters. The span of a rejection is in order whatever text it is applied to, and what
a diagnostic quotes is there.
-/
namespace PolishArithmetic

namespace Text

/-- Byte `n` is at an end of the text or between two of its characters. -/
def IsBoundary (text : Text) (n : Nat) : Prop :=
  ∃ before rest, text = before ++ rest ∧ n = before.byteLength

theorem dropBytes?_eq_some_iff {text rest : Text} {n : Nat} :
    dropBytes? text n = some rest ↔
      ∃ before, text = before ++ rest ∧ n = byteLength before := by
  constructor
  · intro h
    fun_induction dropBytes? text n with
    | case1 text =>
      cases h
      exact ⟨[], rfl, rfl⟩
    | case2 => cases h
    | case3 c cs n hle ih =>
      obtain ⟨before, rfl, hn⟩ := ih h
      refine ⟨c :: before, rfl, ?_⟩
      rw [byteLength_cons, ← hn]
      omega
    | case4 => cases h
  · rintro ⟨before, rfl, rfl⟩
    exact dropBytes?_byteLength_append before rest

theorem takeBytes?_eq_some_iff {text part : Text} {n : Nat} :
    takeBytes? text n = some part ↔ ∃ after, text = part ++ after ∧ n = byteLength part := by
  constructor
  · intro h
    fun_induction takeBytes? text n generalizing part with
    | case1 text =>
      cases h
      exact ⟨text, rfl, rfl⟩
    | case2 => cases h
    | case3 c cs n hle ih =>
      obtain ⟨part, hpart, rfl⟩ := Option.map_eq_some_iff.mp h
      obtain ⟨after, rfl, hn⟩ := ih hpart
      refine ⟨after, rfl, ?_⟩
      rw [byteLength_cons, ← hn]
      omega
    | case4 => cases h
  · rintro ⟨after, rfl, rfl⟩
    exact takeBytes?_byteLength_append part after

variable {before rest before' rest' : Text}

theorem eq_nil_of_byteLength_append_le {s part : Text}
    (h : byteLength (s ++ part) ≤ byteLength s) : part = [] := by
  apply byteLength_eq_zero.mp
  rw [byteLength_append] at h
  omega

/-- Of two starts of one text the shorter one is a start of the longer one. -/
theorem exists_append_of_byteLength_le (h : before ++ rest = before' ++ rest')
    (hle : byteLength before ≤ byteLength before') :
    ∃ part, before' = before ++ part ∧ rest = part ++ rest' := by
  rcases List.append_eq_append_iff.mp h with ⟨part, hbefore, hrest⟩ | ⟨part, rfl, rfl⟩
  · exact ⟨part, hbefore, hrest⟩
  · obtain rfl := eq_nil_of_byteLength_append_le hle
    exact ⟨[], by simp, rfl⟩

theorem append_inj_of_byteLength_eq (h : before ++ rest = before' ++ rest')
    (hbytes : byteLength before = byteLength before') : before = before' ∧ rest = rest' := by
  obtain ⟨part, rfl, rfl⟩ := exists_append_of_byteLength_le h (Nat.le_of_eq hbytes)
  obtain rfl := eq_nil_of_byteLength_append_le (Nat.le_of_eq hbytes.symm)
  exact ⟨(List.append_nil before).symm, rfl⟩

end Text

namespace Span

/-- The span is that of `part`, which has `before` in front of it and `after` behind it. -/
structure Covers (s : Span) (source before part after : Text) : Prop where
  eq_append : source = before ++ (part ++ after)
  start_eq : s.start = before.byteLength
  stop_eq : s.stop = before.byteLength + part.byteLength

variable {s : Span} {source before part after : Text}

theorem Covers.eq_mk (h : s.Covers source before part after) :
    s = ⟨before.byteLength, before.byteLength + part.byteLength⟩ := by
  rw [← h.stop_eq, ← h.start_eq]

theorem Covers.isBoundary_start (h : s.Covers source before part after) :
    source.IsBoundary s.start :=
  ⟨before, part ++ after, h.eq_append, h.start_eq⟩

theorem Covers.isBoundary_stop (h : s.Covers source before part after) :
    source.IsBoundary s.stop := by
  refine ⟨before ++ part, after, ?_, ?_⟩
  · rw [h.eq_append, List.append_assoc]
  · rw [h.stop_eq, Text.byteLength_append]

theorem Covers.isEmpty_iff (h : s.Covers source before part after) :
    s.isEmpty = true ↔ part = [] := by
  rw [isEmpty, decide_eq_true_iff, h.start_eq, h.stop_eq, ← Text.byteLength_eq_zero]
  omega

theorem text?_eq_some_iff :
    s.text? source = some part ↔ ∃ before after, s.Covers source before part after := by
  unfold text?
  constructor
  · intro h
    split at h
    · next hle =>
      obtain ⟨rest, hdrop, htake⟩ := Option.bind_eq_some_iff.mp h
      obtain ⟨before, rfl, hstart⟩ := Text.dropBytes?_eq_some_iff.mp hdrop
      obtain ⟨after, rfl, hstop⟩ := Text.takeBytes?_eq_some_iff.mp htake
      exact ⟨before, after, rfl, hstart, by omega⟩
    · cases h
  · rintro ⟨before, after, rfl, hstart, hstop⟩
    have hdrop := Text.dropBytes?_byteLength_append before (part ++ after)
    have htake := Text.takeBytes?_byteLength_append part after
    rw [if_pos (by omega), hstart, hdrop, Option.bind_some, hstop, Nat.add_sub_cancel_left, htake]

theorem Covers.text?_eq (h : s.Covers source before part after) : s.text? source = some part :=
  text?_eq_some_iff.mpr ⟨before, after, h⟩

/-- A part can be cut out exactly if the ends of the span are places in the text, and in order. -/
theorem isSome_text?_iff : (s.text? source).isSome ↔
    s.start ≤ s.stop ∧ source.IsBoundary s.start ∧ source.IsBoundary s.stop := by
  constructor
  · intro h
    obtain ⟨part, hpart⟩ := Option.isSome_iff_exists.mp h
    obtain ⟨before, after, hc⟩ := text?_eq_some_iff.mp hpart
    refine ⟨?_, hc.isBoundary_start, hc.isBoundary_stop⟩
    rw [hc.start_eq, hc.stop_eq]
    exact Nat.le_add_right _ _
  · rintro ⟨hle, ⟨before, rest, rfl, hstart⟩, ⟨before', rest', happend, hstop⟩⟩
    rw [hstart, hstop] at hle
    obtain ⟨part, rfl, rfl⟩ := Text.exists_append_of_byteLength_le happend hle
    rw [Text.byteLength_append] at hstop
    have hc : s.Covers (before ++ (part ++ rest')) before part rest' := ⟨rfl, hstart, hstop⟩
    rw [hc.text?_eq, Option.isSome_some]

end Span

/-- The message names this text as a term that is invalid. -/
def Diagnostic.Quotes (d : Diagnostic) (quoted : Text) : Prop :=
  d.message = "Invalid term '".toList ++ quoted ++ ['\'']

namespace Rejection

/-- The rejection is about a term, not about the end of a text or about what is left of it. -/
def IsAboutTerm (r : Rejection) : Prop :=
  r.fault = .invalidTerm ∨ ∃ limit, r.fault = .tooDeep limit

variable {r : Rejection} {source before rest part after : Text} {d : Diagnostic}

theorem span_start (r : Rejection) (source : Text) :
    (r.span source).start = min r.position source.byteLength := by
  cases hfault : r.fault with
  | unexpectedEnd | unexpectedContinuation => simp only [span, hfault]
  | invalidTerm | tooDeep =>
    simp only [span, hfault]
    split <;> rfl

/-- A term is looked for at the place between two characters where it starts, and nowhere else. -/
theorem span_of_isAboutTerm (h : r.IsAboutTerm) :
    (∃ before run after, (r.span source).Covers source before run after ∧ Text.IsRun run after) ∨
      ¬ source.IsBoundary (r.span source).start ∧
        (r.span source).stop = (r.span source).start := by
  cases hdrop : source.dropBytes? (min r.position source.byteLength) with
  | some rest =>
    obtain ⟨before, hbefore, hmin⟩ := Text.dropBytes?_eq_some_iff.mp hdrop
    obtain ⟨after, hafter, hrun⟩ := rest.exists_isRun_firstTerm
    have hspan : r.span source = ⟨min r.position source.byteLength,
        min r.position source.byteLength + rest.firstTerm.byteLength⟩ := by
      rcases h with h | ⟨limit, h⟩ <;> simp only [span, h, hdrop]
    rw [hspan, hmin]
    exact .inl ⟨before, rest.firstTerm, after, ⟨by rw [← hafter, hbefore], rfl, rfl⟩, hrun⟩
  | none =>
    have hspan : r.span source =
        ⟨min r.position source.byteLength, min r.position source.byteLength⟩ := by
      rcases h with h | ⟨limit, h⟩ <;> simp only [span, h, hdrop]
    rw [hspan]
    refine .inr ⟨?_, rfl⟩
    rintro ⟨before, rest, hbefore, hmin⟩
    rw [Text.dropBytes?_eq_some_iff.mpr ⟨before, hbefore, hmin⟩] at hdrop
    cases hdrop

theorem span_ordered (r : Rejection) (source : Text) :
    (r.span source).start ≤ (r.span source).stop ∧
      (r.span source).stop ≤ source.byteLength := by
  have hmin := Nat.min_le_right r.position source.byteLength
  have hterm (h : r.IsAboutTerm) : (r.span source).start ≤ (r.span source).stop ∧
      (r.span source).stop ≤ source.byteLength := by
    rcases @span_of_isAboutTerm r source h with ⟨before, run, after, hc, -⟩ | ⟨-, hstop⟩
    · have hlen := congrArg Text.byteLength hc.eq_append
      rw [Text.byteLength_append, Text.byteLength_append] at hlen
      rw [hc.start_eq, hc.stop_eq]
      omega
    · rw [hstop, span_start]
      exact ⟨Nat.le_refl _, hmin⟩
  cases hfault : r.fault with
  | unexpectedEnd =>
    simp only [span, hfault]
    exact ⟨Nat.le_refl _, hmin⟩
  | unexpectedContinuation =>
    simp only [span, hfault]
    exact ⟨hmin, Nat.le_refl _⟩
  | invalidTerm => exact hterm (.inl hfault)
  | tooDeep limit => exact hterm (.inr ⟨limit, hfault⟩)

theorem covers_end (h : r.fault = .unexpectedEnd) (hposition : r.position = source.byteLength) :
    (r.span source).Covers source source [] [] := by
  simp only [span, h, hposition, Nat.min_self]
  exact ⟨by simp, rfl, rfl⟩

theorem min_position (hposition : r.position = before.byteLength) :
    min r.position (before ++ rest).byteLength = before.byteLength := by
  rw [hposition, Text.byteLength_append]
  exact Nat.min_eq_left (Nat.le_add_right _ _)

theorem covers_rest (h : r.fault = .unexpectedContinuation)
    (hposition : r.position = before.byteLength) :
    (r.span (before ++ rest)).Covers (before ++ rest) before rest [] := by
  simp only [span, h, min_position hposition]
  exact ⟨by simp, rfl, Text.byteLength_append before rest⟩

/-- A term is blamed from its byte up to the space that ends it. -/
theorem covers_firstTerm (h : r.IsAboutTerm) (hposition : r.position = before.byteLength) :
    ∃ after, rest = rest.firstTerm ++ after ∧ Text.IsRun rest.firstTerm after ∧
      (r.span (before ++ rest)).Covers (before ++ rest) before rest.firstTerm after := by
  have hstart : (r.span (before ++ rest)).start = before.byteLength := by
    rw [span_start, min_position hposition]
  rcases span_of_isAboutTerm h with ⟨before', run, after, hc, hrun⟩ | ⟨hboundary, -⟩
  · have hbytes : before'.byteLength = before.byteLength := by rw [← hstart, hc.start_eq]
    obtain ⟨rfl, rfl⟩ := Text.append_inj_of_byteLength_eq hc.eq_append.symm hbytes
    rw [hrun.firstTerm_eq]
    exact ⟨after, rfl, hrun, hc⟩
  · exact absurd ⟨before, rest, rfl, hstart⟩ hboundary

theorem diagnostic?_eq (r : Rejection) (source : Text) :
    r.diagnostic? source = some (r.diagnostic source) :=
  (Option.some_get _).symm

theorem span_of_diagnostic? (h : r.diagnostic? source = some d) : d.span = r.span source := by
  simp only [diagnostic?] at h
  split at h
  case h_3 =>
    split at h
    · cases h
      rfl
    · obtain ⟨term, -, h⟩ := Option.bind_eq_some_iff.mp h
      cases h
      rfl
  all_goals
    cases h
    rfl

@[simp] theorem span_diagnostic (r : Rejection) (source : Text) :
    (r.diagnostic source).span = r.span source :=
  span_of_diagnostic? (r.diagnostic?_eq source)

/-- Of an invalid term the message says that it is empty, or it quotes it. -/
theorem message_of_diagnostic? (h : r.diagnostic? source = some d)
    (hfault : r.fault = .invalidTerm) :
    (r.span source).isEmpty = true ∧ d.message = "Empty term".toList ∨
      (r.span source).isEmpty = false ∧
        ∃ term, (r.span source).text? source = some term ∧ d.Quotes term := by
  simp only [diagnostic?, hfault] at h
  split at h
  · next hempty =>
    cases h
    exact .inl ⟨hempty, rfl⟩
  · next hne =>
    obtain ⟨term, hterm, h⟩ := Option.bind_eq_some_iff.mp h
    cases h
    exact .inr ⟨Bool.eq_false_iff.mpr hne, term, hterm, rfl⟩

/-- Nothing but an invalid term is quoted. -/
theorem fault_of_quotes {quoted : Text} (h : r.diagnostic? source = some d)
    (hq : d.Quotes quoted) : r.fault = .invalidTerm := by
  simp only [diagnostic?] at h
  split at h
  case h_3 hfault => exact hfault
  all_goals
    cases h
    cases hq

/-- What is quoted is the run that starts at the byte of the rejection. -/
theorem covers_of_quotes {quoted : Text} (h : r.diagnostic? source = some d)
    (hq : d.Quotes quoted) : quoted ≠ [] ∧ ∃ before after,
      (r.span source).Covers source before quoted after ∧ Text.IsRun quoted after ∧
        r.position = before.byteLength := by
  have hfault := fault_of_quotes h hq
  rcases message_of_diagnostic? h hfault with ⟨-, hm⟩ | ⟨hne, term, hterm, hq'⟩
  · cases hm.symm.trans hq
  have hsame := List.append_cancel_left (List.append_cancel_right (hq'.symm.trans hq))
  subst hsame
  rcases span_of_isAboutTerm (.inl hfault) with ⟨before, run, after, hc, hrun⟩ | ⟨-, hstop⟩
  · obtain rfl : run = term := Option.some.inj (hc.text?_eq.symm.trans hterm)
    have hrunNe : run ≠ [] := fun he => absurd (hc.isEmpty_iff.mpr he) (by simp [hne])
    refine ⟨hrunNe, before, after, hc, hrun, ?_⟩
    -- The run is not empty, so that the byte is not past the end of the source.
    have hpos := mt Text.byteLength_eq_zero.mp hrunNe
    have hlen := (span_ordered r source).2
    have hmin := span_start r source
    rw [hc.stop_eq] at hlen
    rw [hc.start_eq] at hmin
    omega
  · rw [Span.isEmpty, hstop, decide_eq_false_iff_not] at hne
    exact absurd (Nat.le_refl _) hne

/-- The term that is empty is the one in front of another space. -/
theorem message_of_covers (hfault : r.fault = .invalidTerm)
    (hc : (r.span source).Covers source before part after) (hrun : Text.IsRun part after)
    (hne : part ++ after ≠ []) :
    ((r.diagnostic source).message = "Empty term".toList ↔
      (part ++ after).head? = some ' ') ∧
      ((r.diagnostic source).message ≠ "Empty term".toList →
        (r.diagnostic source).Quotes part) := by
  obtain ⟨hspace, hafter⟩ := hrun
  rcases message_of_diagnostic? (r.diagnostic?_eq source) hfault with
    ⟨hempty, hm⟩ | ⟨hfull, term, hterm, hq⟩
  · obtain rfl := hc.isEmpty_iff.mp hempty
    exact ⟨iff_of_true hm (hafter.resolve_left hne), fun h => absurd hm h⟩
  · obtain rfl : part = term := Option.some.inj (hc.text?_eq.symm.trans hterm)
    refine ⟨iff_of_false ?_ ?_, fun _ => hq⟩
    · intro hm
      cases hm.symm.trans hq
    · cases part with
      | nil =>
        rw [hc.isEmpty_iff.mpr rfl] at hfull
        cases hfull
      | cons c cs =>
        intro hhead
        cases hhead
        exact hspace List.mem_cons_self

end Rejection

/-- Every rejection is explained against every source, also against one that it is not about. A term
that is quoted is there: it is the run from the byte of the rejection on. -/
theorem diagnostic?_of_any_source (r : Rejection) (source : Text) :
    (r.span source).start = min r.position source.byteLength ∧
    (r.span source).start ≤ (r.span source).stop ∧ (r.span source).stop ≤ source.byteLength ∧
    (r.IsAboutTerm → ¬ source.IsBoundary (r.span source).start →
      (r.span source).stop = (r.span source).start) ∧
    (r.fault = .invalidTerm → (r.span source).isEmpty = false →
      source.IsBoundary (r.span source).start ∧ source.IsBoundary (r.span source).stop) ∧
    ∃ d, r.diagnostic? source = some d ∧ d.span = r.span source ∧
      (r.fault = .invalidTerm → d.span.isEmpty = false → ∃ quoted, d.Quotes quoted) ∧
      ∀ quoted, d.Quotes quoted → quoted ≠ [] ∧ d.span.text? source = some quoted ∧
        ∃ before after, source = before ++ (quoted ++ after) ∧
          r.position = before.byteLength ∧ Text.IsRun quoted after := by
  obtain ⟨hle, hlen⟩ := r.span_ordered source
  have hd := r.diagnostic?_eq source
  have hspan := r.span_diagnostic source
  refine ⟨r.span_start source, hle, hlen, ?_, ?_, r.diagnostic source, hd, hspan, ?_, ?_⟩
  · intro hterm hboundary
    rcases Rejection.span_of_isAboutTerm hterm with ⟨_, _, _, hc, -⟩ | ⟨-, hstop⟩
    · exact absurd hc.isBoundary_start hboundary
    · exact hstop
  · intro hfault hne
    exact (Span.isSome_text?_iff.mp (Rejection.isSome_text?_span hfault hne)).2
  · intro hfault hne
    rw [hspan] at hne
    rcases Rejection.message_of_diagnostic? hd hfault with ⟨hempty, -⟩ | ⟨-, term, -, hq⟩
    · rw [hne] at hempty
      cases hempty
    · exact ⟨term, hq⟩
  · intro quoted hq
    obtain ⟨hquoted, before, after, hc, hrun, hposition⟩ := Rejection.covers_of_quotes hd hq
    rw [hspan]
    exact ⟨hquoted, hc.text?_eq, before, after, hc.eq_append, hposition, hrun⟩

end PolishArithmetic
