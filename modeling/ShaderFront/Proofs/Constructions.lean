import Mathlib
import ShaderFront.Proofs.Merged

/-!
# Constructions end with nothing left to explore

The rounds of both explorations end, without their bounds (`Grammar.exploreNext`, `Grammar.exploreQueued`), and what they end with
is complete: the symbols with a transition are those after a dot (`Grammar.Automaton.keys_transitionsAt`), and the
transitions are GOTO, in the collection of unions up to the lookaheads that other ways into a state bring along.

Main statement: `Grammar.constructions_end`.
-/

namespace ShaderFront

namespace OrderedMap

variable {κ ν : Type} [Ord κ]

theorem mem_keys [DecidableEq κ] [Std.LawfulEqOrd κ] {m : OrderedMap κ ν} {k : κ} :
    k ∈ m.keys ↔ ∃ v, m.get? k = some v := by
  simp [keys, get?_eq_some]

/-- The keys of a map, as a set. -/
def keySet (m : OrderedMap κ ν) : OrderedSet κ := ⟨m.keys, List.pairwise_map.mpr m.ascending⟩

end OrderedMap

namespace Grammar

variable {g : Grammar}

/-- The symbols with a transition are those after a dot. -/
theorem Automaton.keys_transitionsAt {c : Collection} (h : g.Automaton c) {i : StateId} {S : ItemSet}
    (hS : c.states[i]? = some S) : (c.transitionsAt i).keySet = g.nextSymbols S := by
  refine OrderedSet.ext fun symbol => OrderedMap.mem_keys.trans ⟨?_, fun hsymbol => ?_⟩
  · rintro ⟨t, ht⟩
    obtain ⟨S', T, hS', -, hsymbol, -⟩ := h.sound ht
    cases hS.symm.trans hS'
    exact hsymbol
  · obtain ⟨t, T, ht, -⟩ := h.complete hS hsymbol
    exact ⟨t, ht⟩

theorem IsState.closure_eq (wf : g.WellFormed) {S : ItemSet} (h : g.IsState S) : g.closure S = S :=
  wf.closure_eq_self (wf.saturated_iff.mpr h.closed)

/-- A transition of an automaton leads to a state with the kernel and all items of GOTO. -/
theorem Automaton.target_spec {c : Collection} (h : g.Automaton c) {i : StateId} {S : ItemSet}
    (hS : c.states[i]? = some S) {symbol : SymbolId} (hsymbol : symbol ∈ g.nextSymbols S) :
    ∃ t T, c.target? i symbol = some t ∧ c.states[t]? = some T ∧ (∀ x ∈ g.gotoNext S symbol, x ∈ T) ∧
      g.kernel T = g.kernel (g.gotoNext S symbol) := by
  obtain ⟨t, T, ht, hT, hsub⟩ := h.complete hS hsymbol
  obtain ⟨S', T', hS', hT', -, hkernel⟩ := h.sound ht
  cases hS.symm.trans hS'
  cases hT.symm.trans hT'
  exact ⟨t, T, ht, hT, hsub, hkernel⟩

/-- **The constructions end, with nothing left to explore**, for every grammar a builder gives. The rounds of the canonical
construction end with its collection: the states are pairwise different, and from each of them there are transitions over the
symbols after a dot, each to the state that is GOTO. The rounds of the construction of unions end with its collection, too: the
kernels are pairwise different, every state is its own closure, and from each of them there are transitions over the symbols
after a dot, each to a state that has all items of GOTO and its kernel. -/
theorem constructions_end {requests : List Builder.Request} {g : Grammar} (hbuild : (Builder.after requests).build = .ok g) :
    (∃ explored, (explored, g.canonicalItemSets) ∈
        StateTransition.eval g.exploreNext (0, Collection.addState {} g.initialItemSet)) ∧
    g.canonicalItemSets.states.toList.Nodup ∧
    g.canonicalItemSets.transitions.size = g.canonicalItemSets.states.size ∧
    (∀ (i : StateId) (S : ItemSet), g.canonicalItemSets.states[i]? = some S →
      (g.canonicalItemSets.transitionsAt i).keySet = g.nextSymbols S ∧
      ∀ symbol ∈ g.nextSymbols S, ∃ t, (g.canonicalItemSets.transitionsAt i).get? symbol = some t ∧
        g.canonicalItemSets.states[t]? = some (g.gotoNext S symbol)) ∧
    (∃ e, e ∈ StateTransition.eval g.exploreQueued (.start g) ∧ e.queue = [] ∧ g.unionedItemSets = e.collection) ∧
    (g.unionedItemSets.states.toList.map g.kernel).Nodup ∧
    g.unionedItemSets.transitions.size = g.unionedItemSets.states.size ∧
    ∀ (i : StateId) (S : ItemSet), g.unionedItemSets.states[i]? = some S → g.closure S = S ∧
      (g.unionedItemSets.transitionsAt i).keySet = g.nextSymbols S ∧
      ∀ symbol ∈ g.nextSymbols S, ∃ t T, (g.unionedItemSets.transitionsAt i).get? symbol = some t ∧
        g.unionedItemSets.states[t]? = some T ∧ (∀ x ∈ g.gotoNext S symbol, x ∈ T) ∧
        g.kernel T = g.kernel (g.gotoNext S symbol) := by
  have wf := wellFormed_of_build hbuild
  have hcanonical := wf.automaton_canonical
  have hunioned := wf.automaton_unioned
  refine ⟨⟨_, wf.canonical_explored.1⟩, wf.canonical.nodup, wf.canonical.size_transitions, fun i S hS => ⟨?_, ?_⟩, ?_,
    wf.discovered_unioned.nodup, hunioned.size_transitions, fun i S hS => ⟨?_, ?_, ?_⟩⟩
  · exact hcanonical.keys_transitionsAt hS
  · exact fun symbol hsymbol => wf.exists_target_canonical hS hsymbol
  · obtain ⟨-, e, heval, -, hqueue, heq⟩ := wf.unioned_settled
    exact ⟨e, heval, hqueue, heq⟩
  · exact ((hunioned.joined hS).isState wf).closure_eq wf
  · exact hunioned.keys_transitionsAt hS
  · exact fun symbol hsymbol => hunioned.target_spec hS hsymbol

/-- Of the eight canonical states of nested parentheses five are left. The one behind an open parenthesis leads to itself, and has
grown while it was explored: it was found in front of the end of the input, and is entered in front of a closing parenthesis. -/
theorem constructions_end_parentheses :
    (∃ explored, (explored, parentheses.canonicalItemSets) ∈
        StateTransition.eval parentheses.exploreNext (0, Collection.addState {} parentheses.initialItemSet)) ∧
      parentheses.canonicalItemSets.states.size = 8 ∧ parentheses.unionedItemSets.states.size = 5 ∧
      ∃ S, parentheses.unionedItemSets.states[1]? = some S ∧ ⟨1, 1, 4⟩ ∈ S ∧ ⟨1, 1, 2⟩ ∈ S ∧ parentheses.closure S = S ∧
        (∀ x ∈ parentheses.gotoNext S 1, x ∈ S) ∧ parentheses.kernel S = parentheses.kernel (parentheses.gotoNext S 1) := by
  obtain ⟨hends, -, -, -, -, -, -, hstates⟩ := constructions_end build_parentheses
  have hmem : ⟨1, 1, 4⟩ ∈ parentheses.unionedItemSets.itemsAt 1 ∧ ⟨1, 1, 2⟩ ∈ parentheses.unionedItemSets.itemsAt 1 := by
    decide +kernel
  have hstate : parentheses.unionedItemSets.states[1]? = some (parentheses.unionedItemSets.itemsAt 1) := by decide +kernel
  have hloop : (parentheses.unionedItemSets.transitionsAt 1).get? 1 = some 1 := by decide +kernel
  obtain ⟨hclosed, -, htargets⟩ := hstates 1 _ hstate
  obtain ⟨t, T, ht, hT, hsub, hkernel⟩ := htargets 1 (by decide +kernel)
  cases ht.symm.trans hloop
  cases hT.symm.trans hstate
  exact ⟨hends, by decide +kernel, by decide +kernel, _, hstate, hmem.1, hmem.2, hclosed, hsub, hkernel⟩

end Grammar

end ShaderFront
