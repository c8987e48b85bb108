import PolishArithmetic.Log
import PolishArithmetic.Proofs.Terms

/-!
The log of a compilation. Its sightings are the nodes of the tree in preorder, or those that come
before the place where the reading stopped; put together again they give the text up to there.
-/
namespace PolishArithmetic

namespace Expr

/-- The nodes in preorder, each as a term and with the number of operators around it, of which
`depth` are around the tree. -/
def nodes : Expr → Nat → List (Term × Nat)
  | .const value, depth => [(.const value, depth)]
  | .var index, depth => [(.var index, depth)]
  | .binary op left right, depth =>
    (.op op, depth) :: (left.nodes (depth + 1) ++ right.nodes (depth + 1))

variable {e : Expr} {depth : Nat} {node : Term × Nat}

theorem depth_le_of_mem_nodes (h : node ∈ e.nodes depth) : node.2 ≤ depth + e.nesting := by
  induction e generalizing depth with
  | const | var =>
    rw [List.mem_singleton.mp h]
    exact Nat.le_refl depth
  | binary op left right ihl ihr =>
    rw [nesting]
    rcases List.mem_cons.mp h with rfl | h
    · exact Nat.le_add_right _ _
    · rcases List.mem_append.mp h with h | h
      · have := ihl h
        omega
      · have := ihr h
        omega

theorem exists_mem_nodes_depth_eq (e : Expr) (depth : Nat) :
    ∃ node ∈ e.nodes depth, node.2 = depth + e.nesting := by
  induction e generalizing depth with
  | const | var => exact ⟨_, List.mem_singleton_self _, rfl⟩
  | binary op left right ihl ihr =>
    simp only [nodes, nesting, List.mem_cons, List.mem_append]
    rcases Nat.le_total right.nesting left.nesting with hle | hle
    · obtain ⟨node, hmem, hdepth⟩ := ihl (depth + 1)
      exact ⟨node, .inr (.inl hmem), by omega⟩
    · obtain ⟨node, hmem, hdepth⟩ := ihr (depth + 1)
      exact ⟨node, .inr (.inr hmem), by omega⟩

theorem max?_depth_nodes (e : Expr) (depth : Nat) :
    ((e.nodes depth).map Prod.snd).max? = some (depth + e.nesting) := by
  rw [List.max?_eq_some_iff]
  constructor
  · obtain ⟨node, hmem, hdepth⟩ := e.exists_mem_nodes_depth_eq depth
    exact List.mem_map.mpr ⟨node, hmem, hdepth⟩
  · intro d hd
    obtain ⟨node, hmem, rfl⟩ := List.mem_map.mp hd
    exact depth_le_of_mem_nodes hmem

end Expr

section

variable {limit depth : Nat} {text rest : Text} {log : List Sighting} {e : Expr} {r : Rejection}

/-- A node for every sighting and a sighting for every node, in the same order. -/
theorem Yields.sightings_eq (h : Yields limit depth text log e rest) :
    log.map (fun s => (Term.ofText? s.term, s.depth)) =
      (e.nodes depth).map fun node => (some node.1, node.2) := by
  induction h with
  | @leaf _ _ term _ hterm hleaf =>
    rw [List.map_singleton, hterm]
    cases term <;> cases hleaf <;> rfl
  | binary hterm _ _ _ ihl ihr => simp [Expr.nodes, hterm, ihl, ihr]

theorem Yields.max?_depth (h : Yields limit depth text log e rest) :
    (log.map Sighting.depth).max? = some (depth + e.nesting) := by
  have hdepths := congrArg (List.map Prod.snd) h.sightings_eq
  rw [List.map_map, List.map_map] at hdepths
  rw [← e.max?_depth_nodes depth]
  exact congrArg List.max? hdepths

theorem Yields.depth_le (h : Yields limit depth text log e rest) (hdepth : depth ≤ limit) :
    ∀ s ∈ log, s.depth ≤ limit := by
  induction h with
  | leaf => exact List.forall_mem_singleton.mpr hdepth
  | binary _ hlt _ _ ihl ihr =>
    exact List.forall_mem_cons.mpr ⟨hdepth, List.forall_mem_append.mpr ⟨ihl hlt, ihr hlt⟩⟩

theorem Stops.depth_le (h : Stops limit depth text log r) (hdepth : depth ≤ limit) :
    ∀ s ∈ log, s.depth ≤ limit := by
  induction h with
  | ended | invalid => exact List.forall_mem_nil _
  | deep => exact List.forall_mem_singleton.mpr hdepth
  | left _ hlt _ ih => exact List.forall_mem_cons.mpr ⟨hdepth, ih hlt⟩
  | right _ hlt hl _ ih =>
    exact List.forall_mem_cons.mpr ⟨hdepth, List.forall_mem_append.mpr ⟨hl.depth_le hlt, ih hlt⟩⟩

/-- Where the text ends too early, all of it has been read. -/
theorem Stops.terms_eq (h : Stops limit depth text log r) (hfault : r.fault = .unexpectedEnd) :
    text.terms = log.map Sighting.term := by
  induction h with
  | ended => exact Text.terms_nil
  | invalid | deep => cases hfault
  | left hterm _ _ ih =>
    rw [Text.terms_of_ne_nil (Text.ne_nil_of_firstTerm hterm), ih hfault, List.map_cons]
  | right hterm _ hl _ ih =>
    rw [Text.terms_of_ne_nil (Text.ne_nil_of_firstTerm hterm), hl.terms_eq, ih hfault,
      List.map_cons, List.map_append]

/-- The reading of the text stops at the first term of `rest`, and those of `earlier` are behind
it. -/
structure StopsBefore (limit : Nat) (text : Text) (log : List Sighting) (r : Rejection)
    (earlier : List Sighting) (rest : Text) : Prop where
  eq_append : text = Text.spaced (earlier.map Sighting.term) ++ rest
  position_eq : r.position = (Text.spaced (earlier.map Sighting.term)).byteLength
  rest_ne_nil : rest ≠ []
  log_eq : r.fault = .invalidTerm ∧ log = earlier ∨
    r.fault = .tooDeep limit ∧ log = earlier ++ [⟨rest.firstTerm, limit⟩] ∧
      ∃ op, Term.ofText? rest.firstTerm = some (.op op)

theorem StopsBefore.prepend {earlier : List Sighting} {rest' : Text}
    (h : StopsBefore limit rest log r earlier rest') (passed : List Sighting)
    (htext : text = Text.spaced (passed.map Sighting.term) ++ rest) :
    StopsBefore limit text (passed ++ log) (r.shift (text.byteLength - rest.byteLength))
      (passed ++ earlier) rest' where
  eq_append := by
    rw [List.map_append, Text.spaced_append, List.append_assoc, ← h.eq_append, htext]
  position_eq := by
    rw [Rejection.shift, h.position_eq, htext, Text.byteLength_append, Nat.add_sub_cancel,
      List.map_append, Text.spaced_append, Text.byteLength_append, Nat.add_comm]
  rest_ne_nil := h.rest_ne_nil
  log_eq := by
    rcases h.log_eq with ⟨hfault, rfl⟩ | ⟨hfault, rfl, hop⟩
    · exact .inl ⟨hfault, rfl⟩
    · exact .inr ⟨hfault, (List.append_assoc ..).symm, hop⟩

theorem Stops.stopsBefore (h : Stops limit depth text log r) (hdepth : depth ≤ limit)
    (hfault : r.fault ≠ .unexpectedEnd) :
    ∃ earlier rest, StopsBefore limit text log r earlier rest := by
  induction h with
  | ended => exact absurd rfl hfault
  | invalid hne => exact ⟨[], _, rfl, rfl, hne, .inl ⟨rfl, rfl⟩⟩
  | @deep depth text op hterm hle =>
    obtain rfl : depth = limit := Nat.le_antisymm hdepth hle
    exact ⟨[], text, rfl, rfl, Text.ne_nil_of_firstTerm hterm, .inr ⟨rfl, rfl, op, hterm⟩⟩
  | @left depth text _ _ _ hterm hlt _ ih =>
    obtain ⟨earlier, rest, hs⟩ := ih hlt hfault
    have hne : text.afterTerm ≠ [] :=
      hs.eq_append ▸ List.append_ne_nil_of_right_ne_nil _ hs.rest_ne_nil
    have htext := text.splits_firstTerm.eq_append hne
    exact ⟨_, rest, hs.prepend [⟨text.firstTerm, depth⟩] (by simpa using htext)⟩
  | @right depth text mid _ _ log _ _ hterm hlt hl _ ih =>
    obtain ⟨earlier, rest, hs⟩ := ih hlt hfault
    have hne : mid ≠ [] := hs.eq_append ▸ List.append_ne_nil_of_right_ne_nil _ hs.rest_ne_nil
    have htext := text.splits_firstTerm.eq_append hl.text_ne_nil
    rw [hl.eq_spaced hne] at htext
    exact ⟨_, rest, hs.prepend (⟨text.firstTerm, depth⟩ :: log) (by simpa using htext)⟩

end

/-- The log of a text that is an expression. -/
structure IsLogOf (text : Text) (log : List Sighting) (e : Expr) : Prop where
  nodes_eq : log.map (fun s => (Term.ofText? s.term, s.depth)) =
    (e.nodes 0).map fun node => (some node.1, node.2)
  max?_depth_eq : (log.map Sighting.depth).max? = some e.nesting
  isJoined : text.IsJoined (log.map Sighting.term)

/-- The log of a text that is rejected. -/
def IsLogUpTo (limit : Nat) (text : Text) (log : List Sighting) (r : Rejection) : Prop :=
  match r.fault with
  | .unexpectedEnd => log.map Sighting.term = text.terms ∧ text.IsJoined (log.map Sighting.term)
  | .unexpectedContinuation | .invalidTerm =>
    text.takeBytes? r.position = some (Text.spaced (log.map Sighting.term))
  | .tooDeep named => named = limit ∧ ∃ earlier last op, log = earlier ++ [last] ∧
    text.takeBytes? r.position = some (Text.spaced (earlier.map Sighting.term)) ∧
    (text.dropBytes? r.position).map Text.firstTerm = some last.term ∧
    Term.ofText? last.term = some (.op op) ∧ last.depth = limit

section

variable {limit : Nat} {text rest : Text} {log : List Sighting} {e : Expr} {r : Rejection}

theorem Yields.isLogOf (h : Yields limit 0 text log e []) : IsLogOf text log e where
  nodes_eq := h.sightings_eq
  max?_depth_eq := by
    rw [h.max?_depth, Nat.zero_add]
  isJoined := by
    have hterms := h.terms_eq
    rw [Text.terms_nil, List.append_nil] at hterms
    exact hterms ▸ text.isJoined_terms

theorem Yields.isLogUpTo (h : Yields limit 0 text log e rest) (hrest : rest ≠ []) :
    IsLogUpTo limit text log ⟨.unexpectedContinuation, text.byteLength - rest.byteLength⟩ := by
  rw [h.eq_spaced hrest, Text.byteLength_append, Nat.add_sub_cancel]
  exact Text.takeBytes?_byteLength_append _ rest

theorem Stops.isLogUpTo (h : Stops limit 0 text log r) : IsLogUpTo limit text log r := by
  by_cases hfault : r.fault = .unexpectedEnd
  · have hterms := h.terms_eq hfault
    rw [IsLogUpTo, hfault]
    exact ⟨hterms.symm, hterms ▸ text.isJoined_terms⟩
  · obtain ⟨earlier, rest, hs⟩ := h.stopsBefore (Nat.zero_le limit) hfault
    have htake := Text.takeBytes?_byteLength_append (Text.spaced (earlier.map Sighting.term)) rest
    have hdrop := Text.dropBytes?_byteLength_append (Text.spaced (earlier.map Sighting.term)) rest
    rw [← hs.eq_append, ← hs.position_eq] at htake hdrop
    rcases hs.log_eq with ⟨hf, rfl⟩ | ⟨hf, rfl, op, hop⟩
    · rw [IsLogUpTo, hf]
      exact htake
    · rw [IsLogUpTo, hf]
      exact ⟨rfl, earlier, _, op, rfl, htake, by rw [hdrop, Option.map_some], hop, rfl⟩

theorem exists_log (limit : Nat) (text : Text) : ∃ log,
    readWhole limit text = ⟨log, compile limit text⟩ ∧ (∀ s ∈ log, s.depth ≤ limit) ∧
    (∀ e, compile limit text = .ok e → IsLogOf text log e) ∧
    ∀ r, compile limit text = .error r → IsLogUpTo limit text log r := by
  have hlimit := Nat.zero_le limit
  rcases yields_or_stops limit 0 text with ⟨log, e, rest, hy⟩ | ⟨log, r, hs⟩
  · by_cases hrest : rest = []
    · subst hrest
      rw [compile, readWhole_of_yields hy]
      refine ⟨log, rfl, hy.depth_le hlimit, ?_, ?_⟩
      · intro e' he
        cases he
        exact hy.isLogOf
      · intro r hr
        cases hr
    · rw [compile, readWhole_of_rest hy hrest]
      refine ⟨log, rfl, hy.depth_le hlimit, ?_, ?_⟩
      · intro e' he
        cases he
      · intro r hr
        cases hr
        exact hy.isLogUpTo hrest
  · rw [compile, readWhole_of_stops hs]
    refine ⟨log, rfl, hs.depth_le hlimit, ?_, ?_⟩
    · intro e he
      cases he
    · intro r' hr
      cases hr
      exact hs.isLogUpTo

end

/-- The log of a compilation is a sighting for every node of the tree, in preorder, or for every
term up to the place of the rejection, and then one event with the length of the text, which ends
it. -/
theorem compileLog_in_preorder (limit : Nat) (text : Text) : ∃ log last,
    compileLog limit text = log.map .classified ++ [last] ∧
    (∀ event ∈ log.map Event.classified, event.level = "TRACE") ∧ last.level = "DEBUG" ∧
    (∀ s ∈ log, s.depth ≤ limit) ∧
    (∀ e, compile limit text = .ok e → last = .compiled text.byteLength ∧ IsLogOf text log e) ∧
    ∀ r, compile limit text = .error r →
      last = .failed r.fault text.byteLength r.position ∧ IsLogUpTo limit text log r := by
  obtain ⟨log, hread, hdepth, hok, herror⟩ := exists_log limit text
  refine ⟨log, .ofOutcome text (compile limit text), ?_, ?_, ?_, hdepth, ?_, ?_⟩
  · rw [compileLog, hread]
  · intro event hevent
    obtain ⟨s, -, rfl⟩ := List.mem_map.mp hevent
    rfl
  · cases compile limit text <;> rfl
  · intro e he
    rw [he]
    exact ⟨rfl, hok e he⟩
  · intro r hr
    rw [hr]
    exact ⟨rfl, herror r hr⟩

end PolishArithmetic
