import Mathlib
import ShaderFront.Proofs.Discovery

/-!
# The canonical collection

The states of the canonical collection are the reached sets, each once, and its transitions are GOTO
(`Grammar.WellFormed.canonical`). The invariant `Grammar.Canonical` counts the states that are explored, with the
symbols already followed out of the next one. The bound on the steps is never used up, because there are
no more states than sets of items.

The kernels of the states, each at its first place, are found in the order of discovery
(`Grammar.WellFormed.discovered_canonical`).
-/

namespace ShaderFront.Grammar

variable {g : Grammar}

/-! ## The invariant -/

/-- A collection of reached sets in which the states before `current` are explored, and `current` itself over the
symbols in `followed`. -/
structure Canonical (g : Grammar) (current : StateId) (followed : List SymbolId) (c : Collection) : Prop where
  size_transitions : c.transitions.size = c.states.size
  start : c.states[0]? = some g.initialItemSet
  reached : ∀ {i : StateId} {S : ItemSet}, c.states[i]? = some S → g.Reached S
  nodup : c.states.toList.Nodup
  sound : ∀ {i t : StateId} {symbol : SymbolId}, c.target? i symbol = some t →
    ∃ S, c.states[i]? = some S ∧ symbol ∈ g.nextSymbols S ∧ c.states[t]? = some (g.gotoNext S symbol)
  complete : ∀ {i : StateId} {S : ItemSet} {symbol : SymbolId}, c.states[i]? = some S → symbol ∈ g.nextSymbols S →
    i < current ∨ i = current ∧ symbol ∈ followed → ∃ t, c.target? i symbol = some t

theorem states_addState_of_some {c : Collection} {i : StateId} {S T : ItemSet} (h : c.states[i]? = some S) :
    (c.addState T).states[i]? = some S :=
  Builder.getElem?_push_of_some h

theorem Canonical.addState {current : StateId} {followed : List SymbolId} {c : Collection} {T : ItemSet}
    (h : g.Canonical current followed c) (hlt : current < c.states.size) (hT : g.Reached T)
    (hnew : T ∉ c.states.toList) : g.Canonical current followed (c.addState T) where
  size_transitions := by simp [Collection.addState, h.size_transitions]
  start := states_addState_of_some h.start
  reached := by
    intro i S hS
    rcases Builder.getElem?_push_cases hS with hS | ⟨-, rfl⟩
    · exact h.reached hS
    · exact hT
  nodup := by
    rw [Collection.addState, Array.toList_push]
    exact List.nodup_append.mpr ⟨h.nodup, List.nodup_singleton T, fun a ha b hb hab => hnew (by simp_all)⟩
  sound := by
    intro i t symbol ht
    rw [Collection.target?_addState] at ht
    obtain ⟨S, hS, hsymbol, htarget⟩ := h.sound ht
    exact ⟨S, states_addState_of_some hS, hsymbol, states_addState_of_some htarget⟩
  complete := by
    intro i S symbol hS hsymbol hi
    rw [Collection.target?_addState]
    rcases Builder.getElem?_push_cases hS with hS | ⟨rfl, -⟩
    · exact h.complete hS hsymbol hi
    · rcases hi with hi | ⟨hi, -⟩
      · exact absurd hi (Nat.lt_asymm hlt)
      · exact absurd hi (Nat.ne_of_gt hlt)

theorem Canonical.addTransition {current : StateId} {followed : List SymbolId} {c : Collection} {S : ItemSet}
    {symbol : SymbolId} {t : StateId} (h : g.Canonical current followed c) (hS : c.states[current]? = some S)
    (hsymbol : symbol ∈ g.nextSymbols S) (ht : c.states[t]? = some (g.gotoNext S symbol)) :
    g.Canonical current (followed ++ [symbol]) (c.addTransition current symbol t) := by
  have hlt : current < c.transitions.size := by
    rw [h.size_transitions]
    exact (Array.getElem?_eq_some_iff.mp hS).1
  refine ⟨by simp [h.size_transitions], h.start, h.reached, h.nodup, ?_, ?_⟩
  · intro i t' x ht'
    rw [Collection.target?_addTransition hlt] at ht'
    split at ht'
    · rename_i heq
      obtain ⟨rfl, rfl⟩ := heq
      cases ht'
      exact ⟨S, hS, hsymbol, ht⟩
    · exact h.sound ht'
  · intro i S' x hS' hx hi
    rw [Collection.target?_addTransition hlt]
    split
    · exact ⟨t, rfl⟩
    · rename_i hne
      refine h.complete hS' hx (hi.imp id fun ⟨hi, hmem⟩ => ⟨hi, ?_⟩)
      rcases List.mem_append.mp hmem with hmem | hmem
      · exact hmem
      · exact absurd ⟨hi.symm, (List.mem_singleton.mp hmem).symm⟩ hne

/-! ## One symbol -/

/-- Following a symbol enters the state of GOTO, which is new or not. -/
theorem WellFormed.followCanonical_cases (wf : g.WellFormed) {current : StateId} {S : ItemSet} {symbol : SymbolId}
    (c : Collection) (hsymbol : symbol ∈ g.nextSymbols S) :
    (∃ t, c.states[t]? = some (g.gotoNext S symbol) ∧
      g.followCanonical current S c symbol = c.addTransition current symbol t) ∨
    (g.gotoNext S symbol ∉ c.states.toList ∧ g.followCanonical current S c symbol =
      (c.addState (g.gotoNext S symbol)).addTransition current symbol c.states.size) := by
  rw [followCanonical]
  simp only [wf.gotoNext_nonempty hsymbol, Bool.false_eq_true, if_false]
  cases hfind : c.states.findIdx? (· = g.gotoNext S symbol) with
  | some t =>
    obtain ⟨hlt, heq, -⟩ := Array.findIdx?_eq_some_iff_getElem.mp hfind
    refine Or.inl ⟨t, ?_, rfl⟩
    rw [Array.getElem?_eq_getElem hlt]
    simpa using heq
  | none =>
    refine Or.inr ⟨fun hmem => ?_, rfl⟩
    have hnone := Array.findIdx?_eq_none_iff.mp hfind _ (Array.mem_toList_iff.mp hmem)
    simp at hnone

/-- The kernels of the states, in their order. -/
def kernels (g : Grammar) (c : Collection) : List Kernel := c.states.toList.map g.kernel

/-- The elements of a list of kernels, each at its first place. -/
def firstSeen (ks : List Kernel) : List Kernel := ks.foldl addNew []

theorem firstSeen_append (ks l : List Kernel) : firstSeen (ks ++ l) = l.foldl addNew (firstSeen ks) :=
  List.foldl_append

theorem mem_firstSeen {ks : List Kernel} {k : Kernel} : k ∈ firstSeen ks ↔ k ∈ ks := by
  simp [firstSeen, mem_foldl_addNew]

theorem firstSeen_mono {ks l : List Kernel} (h : ks <+: l) : firstSeen ks <+: firstSeen l := by
  obtain ⟨rest, rfl⟩ := h
  rw [firstSeen_append]
  exact prefix_foldl_addNew rest _

/-- Following one symbol keeps the states there are, and finds the kernel it leads to. -/
theorem Canonical.follow (wf : g.WellFormed) {current : StateId} {followed : List SymbolId} {c : Collection}
    {S : ItemSet} {symbol : SymbolId} (h : g.Canonical current followed c) (hS : c.states[current]? = some S)
    (hsymbol : symbol ∈ g.nextSymbols S) :
    g.Canonical current (followed ++ [symbol]) (g.followCanonical current S c symbol) ∧
      g.kernels c <+: g.kernels (g.followCanonical current S c symbol) ∧
      (g.followCanonical current S c symbol).states[current]? = some S ∧
      firstSeen (g.kernels (g.followCanonical current S c symbol)) =
        addNew (firstSeen (g.kernels c)) (g.kernel (g.gotoNext S symbol)) := by
  rcases wf.followCanonical_cases c hsymbol with ⟨t, ht, heq⟩ | ⟨hnew, heq⟩
  · rw [heq]
    refine ⟨h.addTransition hS hsymbol ht, List.prefix_rfl, hS, ?_⟩
    rw [addNew_of_mem]
    · rfl
    · refine mem_firstSeen.mpr (List.mem_map.mpr ⟨_, ?_, rfl⟩)
      exact Array.mem_toList_iff.mpr (Array.mem_of_getElem? ht)
  · rw [heq]
    have hlt := (Array.getElem?_eq_some_iff.mp hS).1
    have hkernels : g.kernels ((c.addState (g.gotoNext S symbol)).addTransition current symbol c.states.size) =
        g.kernels c ++ [g.kernel (g.gotoNext S symbol)] := by
      simp [kernels, Collection.addState]
    have hS' : (c.addState (g.gotoNext S symbol)).states[current]? = some S := states_addState_of_some hS
    have htarget : (c.addState (g.gotoNext S symbol)).states[c.states.size]? = some (g.gotoNext S symbol) := by
      simp [Collection.addState]
    have hadd := h.addState hlt ((h.reached hS).goto hsymbol) hnew
    refine ⟨hadd.addTransition hS' hsymbol htarget, ?_, hS', ?_⟩
    · rw [hkernels]
      exact List.prefix_append _ _
    · rw [hkernels, firstSeen_append]
      rfl

/-! ## One state -/

/-- Following a list of symbols out of a state. -/
theorem Canonical.follow_all (wf : g.WellFormed) {current : StateId} {S : ItemSet} :
    ∀ (symbols followed : List SymbolId) (c : Collection), g.Canonical current followed c →
      c.states[current]? = some S → (∀ symbol ∈ symbols, symbol ∈ g.nextSymbols S) →
      g.Canonical current (followed ++ symbols) (symbols.foldl (g.followCanonical current S) c) ∧
        g.kernels c <+: g.kernels (symbols.foldl (g.followCanonical current S) c) ∧
        (symbols.foldl (g.followCanonical current S) c).states[current]? = some S ∧
        firstSeen (g.kernels (symbols.foldl (g.followCanonical current S) c)) =
          (symbols.map fun symbol => g.kernel (g.gotoNext S symbol)).foldl addNew (firstSeen (g.kernels c))
  | [], followed, c, h, hS, _ => by
    rw [List.append_nil]
    exact ⟨h, List.prefix_rfl, hS, rfl⟩
  | symbol :: symbols, followed, c, h, hS, hsymbols => by
    obtain ⟨hfollow, hextends, hS', hfound⟩ := h.follow wf hS (hsymbols symbol List.mem_cons_self)
    obtain ⟨hall, hextends', hS'', hfound'⟩ := Canonical.follow_all wf symbols _ _ hfollow hS'
      fun x hx => hsymbols x (List.mem_cons_of_mem symbol hx)
    rw [List.append_assoc] at hall
    rw [hfound] at hfound'
    exact ⟨hall, hextends.trans hextends', hS'', hfound'⟩

/-- After its symbols, the state is explored. -/
theorem Canonical.next {current : StateId} {c : Collection} {S : ItemSet}
    (h : g.Canonical current (g.nextSymbols S).toList c) (hS : c.states[current]? = some S) :
    g.Canonical (current + 1) [] c := by
  refine ⟨h.size_transitions, h.start, h.reached, h.nodup, h.sound, ?_⟩
  intro i T symbol hT hsymbol hi
  rcases hi with hi | ⟨-, hi⟩
  · rcases Nat.lt_succ_iff_lt_or_eq.mp hi with hi | rfl
    · exact h.complete hT hsymbol (Or.inl hi)
    · cases hS.symm.trans hT
      exact h.complete hT hsymbol (Or.inr ⟨rfl, hsymbol⟩)
  · exact absurd hi List.not_mem_nil

theorem Canonical.size_le (wf : g.WellFormed) {current : StateId} {followed : List SymbolId} {c : Collection}
    (h : g.Canonical current followed c) : c.states.size ≤ 2 ^ g.itemCount := by
  rw [← Array.length_toList]
  refine wf.length_le_of_valid h.nodup fun S hS => ?_
  obtain ⟨i, hi⟩ := List.mem_iff_getElem?.mp hS
  exact ((h.reached (Array.getElem?_toList ▸ hi)).isState wf).valid

/-- Exploring one more state: either its kernel was explored before, and leads to nothing new, or it is the next one in
the order of discovery. -/
theorem discovered_explore (wf : g.WellFormed) {S : ItemSet} (hS : g.IsState S) {c c' : Collection} {current : StateId}
    (hcurrent : (g.kernels c)[current]? = some (g.kernel S)) (hextends : g.kernels c <+: g.kernels c')
    (hfound : firstSeen (g.kernels c') = (g.targets S).foldl addNew (firstSeen (g.kernels c)))
    (h : g.Discovered (firstSeen ((g.kernels c).take current)).length (firstSeen (g.kernels c))) :
    g.Discovered (firstSeen ((g.kernels c').take (current + 1))).length (firstSeen (g.kernels c')) := by
  have htake : (g.kernels c').take (current + 1) = (g.kernels c).take current ++ [g.kernel S] := by
    obtain ⟨rest, hrest⟩ := hextends
    have hlt := (List.getElem?_eq_some_iff.mp hcurrent).1
    rw [← hrest, List.take_append_of_le_length hlt, List.take_add_one, hcurrent]
    rfl
  have hnext : firstSeen ((g.kernels c').take (current + 1)) =
      addNew (firstSeen ((g.kernels c).take current)) (g.kernel S) := by
    rw [htake, firstSeen_append]
    rfl
  obtain ⟨rest, hrest⟩ := firstSeen_mono ( List.take_prefix current (g.kernels c))
  by_cases hmem : g.kernel S ∈ firstSeen ((g.kernels c).take current)
  · obtain ⟨i, hi⟩ := List.mem_iff_getElem?.mp hmem
    have hlt := (List.getElem?_eq_some_iff.mp hi).1
    have hi' : (firstSeen (g.kernels c))[i]? = some (g.kernel S) := by
      rw [← hrest, List.getElem?_append_left hlt, hi]
    rw [hnext, addNew_of_mem hmem, hfound, foldl_addNew_of_subset (h.targets_subset wf hlt hS hi')]
    exact h
  · have hadd : addNew (firstSeen ((g.kernels c).take current)) (g.kernel S) =
        firstSeen ((g.kernels c).take current) ++ [g.kernel S] := if_neg hmem
    have hextends' : firstSeen ((g.kernels c).take current) ++ [g.kernel S] <+: firstSeen (g.kernels c) := by
      rw [← hadd]
      have hstep := firstSeen_mono ( List.take_prefix (current + 1) (g.kernels c))
      rwa [List.take_add_one, hcurrent, Option.toList_some, firstSeen_append] at hstep
    obtain ⟨tail, htail⟩ := hextends'
    have hat : (firstSeen (g.kernels c))[(firstSeen ((g.kernels c).take current)).length]? = some (g.kernel S) := by
      rw [← htail, List.append_assoc, List.getElem?_append_right (Nat.le_refl _)]
      simp
    rw [hnext, hadd, List.length_append, List.length_singleton, hfound]
    exact h.explore hS hat

/-! ## The whole run -/

/-- One round of the exploration: the next state is explored, if there is one. -/
def exploreNext (g : Grammar) : StateId × Collection → Option (StateId × Collection)
  | (current, c) => c.states[current]?.map fun set =>
    (current + 1, (g.nextSymbols set).toList.foldl (g.followCanonical current set) c)

/-- The rounds end, with all states explored. -/
theorem WellFormed.exploreCanonical (wf : g.WellFormed) : ∀ (fuel current : Nat) (c : Collection),
    g.Canonical current [] c → current ≤ c.states.size → 2 ^ g.itemCount < fuel + current →
    g.Discovered (firstSeen ((g.kernels c).take current)).length (firstSeen (g.kernels c)) →
    ((g.exploreCanonical fuel current c).states.size, g.exploreCanonical fuel current c) ∈
        StateTransition.eval g.exploreNext (current, c) ∧
      g.Canonical (g.exploreCanonical fuel current c).states.size [] (g.exploreCanonical fuel current c) ∧
      g.Discovered (firstSeen (g.kernels (g.exploreCanonical fuel current c))).length
        (firstSeen (g.kernels (g.exploreCanonical fuel current c)))
  | 0, current, c, h, hle, hfuel, _ => by
    have := h.size_le wf
    omega
  | fuel + 1, current, c, h, hle, hfuel, hfound => by
    rw [Grammar.exploreCanonical]
    cases hS : c.states[current]? with
    | none =>
      have heq : current = c.states.size := by
        have := Array.getElem?_eq_none_iff.mp hS
        omega
      subst heq
      rw [List.take_of_length_le (by simp [kernels])] at hfound
      exact ⟨StateTransition.mem_eval.mpr ⟨.refl, by rw [exploreNext, hS]; rfl⟩, h, hfound⟩
    | some S =>
      obtain ⟨hall, hextends, hS', hfound'⟩ := h.follow_all wf (g.nextSymbols S).toList [] c hS fun _ hx => hx
      have hcurrent : (g.kernels c)[current]? = some (g.kernel S) := by simp [kernels, hS]
      have hlt := (Array.getElem?_eq_some_iff.mp hS).1
      have hexplored := hall.next hS'
      have hsize : c.states.size ≤ ((g.nextSymbols S).toList.foldl (g.followCanonical current S) c).states.size := by
        have := hextends.length_le
        simpa [kernels] using this
      have hnext : g.exploreNext (current, c) =
          some (current + 1, (g.nextSymbols S).toList.foldl (g.followCanonical current S) c) := by rw [exploreNext, hS]; rfl
      rw [StateTransition.reaches_eval (.single hnext)]
      exact WellFormed.exploreCanonical wf fuel (current + 1) _ hexplored (by omega) (by omega)
        (discovered_explore wf ((h.reached hS).isState wf) hcurrent hextends hfound' hfound)

/-- Two to the number of items fits into the bound on the exploration. -/
theorem two_pow_itemCount_lt (g : Grammar) : 2 ^ g.itemCount < g.explorationBound := by
  have hle : 2 ^ g.itemCount ≤ 4 ^ g.itemCount := Nat.pow_le_pow_left (by omega) _
  have hpos : 0 < 4 ^ g.itemCount := Nat.pow_pos (by omega)
  have hbound : g.explorationBound = 4 ^ g.itemCount * 4 := Nat.pow_succ _ _
  omega

theorem canonical_start : g.Canonical 0 [] (Collection.addState {} g.initialItemSet) := by
  have hstates : ∀ {i : StateId} {S : ItemSet}, (Collection.addState {} g.initialItemSet).states[i]? = some S →
      S = g.initialItemSet := by
    intro i S hS
    rcases Builder.getElem?_push_cases hS with h | ⟨-, rfl⟩
    · simp at h
    · rfl
  refine ⟨rfl, rfl, fun hS => ?_, ?_, fun ht => ?_, fun _ _ hi => ?_⟩
  · rw [hstates hS]
    exact Reached.initial
  · exact List.nodup_singleton _
  · rw [Collection.target?_addState] at ht
    cases ht
  · rcases hi with hi | ⟨-, hi⟩
    · exact absurd hi (Nat.not_lt_zero _)
    · exact absurd hi List.not_mem_nil

theorem WellFormed.canonical_explored (wf : g.WellFormed) :
    (g.canonicalItemSets.states.size, g.canonicalItemSets) ∈
        StateTransition.eval g.exploreNext (0, Collection.addState {} g.initialItemSet) ∧
      g.Canonical g.canonicalItemSets.states.size [] g.canonicalItemSets ∧
      g.Discovered (firstSeen (g.kernels g.canonicalItemSets)).length (firstSeen (g.kernels g.canonicalItemSets)) :=
  wf.exploreCanonical _ _ _ canonical_start (Nat.zero_le _) g.two_pow_itemCount_lt Discovered.start

/-- **The canonical collection is explored**: its states are reached sets, each once, and its transitions are GOTO. -/
theorem WellFormed.canonical (wf : g.WellFormed) : g.Canonical g.canonicalItemSets.states.size [] g.canonicalItemSets :=
  wf.canonical_explored.2.1

/-- **The canonical collection finds kernels in the order of discovery.** -/
theorem WellFormed.discovered_canonical (wf : g.WellFormed) :
    g.Discovered (firstSeen (g.kernels g.canonicalItemSets)).length (firstSeen (g.kernels g.canonicalItemSets)) :=
  wf.canonical_explored.2.2

/-- The target of a canonical transition. -/
theorem WellFormed.exists_target_canonical (wf : g.WellFormed) {i : StateId} {S : ItemSet} {symbol : SymbolId}
    (hS : g.canonicalItemSets.states[i]? = some S) (hsymbol : symbol ∈ g.nextSymbols S) :
    ∃ t, g.canonicalItemSets.target? i symbol = some t ∧
      g.canonicalItemSets.states[t]? = some (g.gotoNext S symbol) := by
  have hlt := (Array.getElem?_eq_some_iff.mp hS).1
  obtain ⟨t, ht⟩ := wf.canonical.complete hS hsymbol (Or.inl hlt)
  obtain ⟨S', hS', -, htarget⟩ := wf.canonical.sound ht
  cases hS.symm.trans hS'
  exact ⟨t, ht, htarget⟩

theorem WellFormed.automaton_canonical (wf : g.WellFormed) : g.Automaton g.canonicalItemSets where
  size_transitions := wf.canonical.size_transitions
  start := ⟨_, wf.canonical.start, rfl, fun _ hi => hi⟩
  joined hS := (wf.canonical.reached hS).joined
  sound ht := by
    obtain ⟨S, hS, hsymbol, htarget⟩ := wf.canonical.sound ht
    exact ⟨S, _, hS, htarget, hsymbol, rfl⟩
  complete hS hsymbol := by
    obtain ⟨t, ht, htarget⟩ := wf.exists_target_canonical hS hsymbol
    exact ⟨t, _, ht, htarget, fun _ hx => hx⟩

/-- The states of the canonical collection are the reached sets. -/
theorem WellFormed.mem_canonicalItemSets (wf : g.WellFormed) {S : ItemSet} :
    S ∈ g.canonicalItemSets.states.toList ↔ g.Reached S := by
  constructor
  · intro hS
    obtain ⟨i, hi⟩ := List.mem_iff_getElem?.mp hS
    exact wf.canonical.reached (Array.getElem?_toList ▸ hi)
  · intro hS
    induction hS with
    | initial => exact Array.mem_toList_iff.mpr (Array.mem_of_getElem? wf.canonical.start)
    | goto _ hsymbol ih =>
      obtain ⟨i, hi⟩ := List.mem_iff_getElem?.mp ih
      obtain ⟨t, -, ht⟩ := wf.exists_target_canonical (Array.getElem?_toList ▸ hi) hsymbol
      exact Array.mem_toList_iff.mpr (Array.mem_of_getElem? ht)

end ShaderFront.Grammar
