import Mathlib
import ShaderFront.Proofs.Kernel

/-!
# Automata and the order of discovery

What the constructions have in common. Each of them makes an automaton in the sense of `Grammar.Automaton`: states are
closed, there is a transition over exactly the symbols after a dot, and it leads to a state that has all of GOTO
and the kernel of GOTO.

Each of them also finds the kernels of its states in the same order. Exploring a state finds the kernels its symbols
lead to (`Grammar.targets`), and these depend on the kernel of the state alone. So the list of kernels found when the
first `m` of them are explored is determined by `m` (`Grammar.Discovered.unique`), and so is the list at the end, when
all are explored (`Grammar.Discovered.eq_of_explored`).
-/

namespace ShaderFront

/-! ## Transitions -/

namespace Collection

/-- The state entered from a state over a symbol. -/
def target? (c : Collection) (state : StateId) (symbol : SymbolId) : Option StateId :=
  (c.transitionsAt state).get? symbol

variable {c : Collection}

@[simp]
theorem states_addTransition {source target : StateId} {symbol : SymbolId} :
    (c.addTransition source symbol target).states = c.states := rfl

@[simp]
theorem size_transitions_addTransition {source target : StateId} {symbol : SymbolId} :
    (c.addTransition source symbol target).transitions.size = c.transitions.size := by
  simp [addTransition]

/-- A new state has no transitions, and the others keep theirs. -/
theorem target?_addState (set : ItemSet) (i : StateId) (symbol : SymbolId) :
    (c.addState set).target? i symbol = c.target? i symbol := by
  have hpush : (c.addState set).transitionsAt i = c.transitionsAt i := by
    rw [transitionsAt, transitionsAt, Array.getD_eq_getD_getElem?, Array.getD_eq_getD_getElem?, addState,
      Array.getElem?_push]
    split
    · rename_i heq
      rw [heq, Array.getElem?_size]
      rfl
    · rfl
  rw [target?, target?, hpush]

/-- Only the transition that is set changes. -/
theorem target?_addTransition {source : StateId} (h : source < c.transitions.size) (symbol : SymbolId)
    (target i : StateId) (x : SymbolId) : (c.addTransition source symbol target).target? i x =
      if source = i ∧ symbol = x then some target else c.target? i x := by
  have hmodify : (c.addTransition source symbol target).transitionsAt i =
      if source = i then (c.transitionsAt i).insert symbol target else c.transitionsAt i := by
    rw [transitionsAt, transitionsAt, Array.getD_eq_getD_getElem?, Array.getD_eq_getD_getElem?, addTransition,
      Array.getElem?_modify]
    split
    · rename_i heq
      subst heq
      rw [Array.getElem?_eq_getElem h]
      rfl
    · rfl
  rw [target?, target?, hmodify]
  by_cases hi : source = i
  · rw [if_pos hi, OrderedMap.get?_insert]
    simp [hi]
  · rw [if_neg hi, if_neg fun h => hi h.1]

end Collection

namespace Grammar

variable {g : Grammar}

/-! ## Automata -/

/-- A collection of unions of reached sets in which every transition leads to the kernel of GOTO. Some transitions may
be missing. -/
structure PartialAutomaton (g : Grammar) (c : Collection) : Prop where
  size_transitions : c.transitions.size = c.states.size
  start : ∃ S, c.states[0]? = some S ∧ g.kernel S = g.kernel g.initialItemSet ∧ ∀ i ∈ g.initialItemSet, i ∈ S
  joined : ∀ {i : StateId} {S : ItemSet}, c.states[i]? = some S → g.Joined (g.kernel S) S
  sound : ∀ {i t : StateId} {symbol : SymbolId}, c.target? i symbol = some t → ∃ S T, c.states[i]? = some S ∧
    c.states[t]? = some T ∧ symbol ∈ g.nextSymbols S ∧ g.kernel T = g.kernel (g.gotoNext S symbol)

/-- A partial automaton with all transitions, each to a state that has all items of GOTO. -/
structure Automaton (g : Grammar) (c : Collection) : Prop extends g.PartialAutomaton c where
  complete : ∀ {i : StateId} {S : ItemSet} {symbol : SymbolId}, c.states[i]? = some S → symbol ∈ g.nextSymbols S →
    ∃ t T, c.target? i symbol = some t ∧ c.states[t]? = some T ∧ ∀ x ∈ g.gotoNext S symbol, x ∈ T

/-- Every reached set is part of a state with its kernel. -/
theorem Automaton.exists_state_of_reached (wf : g.WellFormed) {c : Collection} (h : g.Automaton c) {R : ItemSet}
    (hR : g.Reached R) :
    ∃ (i : StateId) (S : ItemSet), c.states[i]? = some S ∧ g.kernel S = g.kernel R ∧ ∀ x ∈ R, x ∈ S := by
  induction hR with
  | initial =>
    obtain ⟨S, hS, hker, hsub⟩ := h.start
    exact ⟨0, S, hS, hker, hsub⟩
  | @goto R symbol hR hsymbol ih =>
    obtain ⟨i, S, hS, hker, hsub⟩ := ih
    have hstate := (h.joined hS).isState wf
    have hnext : symbol ∈ g.nextSymbols S := by
      rw [hstate.nextSymbols_eq wf (hR.isState wf) hker]
      exact hsymbol
    obtain ⟨t, T, ht, hT, hcover⟩ := h.complete hS hnext
    obtain ⟨S', T', hS', hT', -, hkerT⟩ := h.sound ht
    cases hS.symm.trans hS'
    cases hT.symm.trans hT'
    refine ⟨t, T, hT, ?_, fun x hx => hcover x (wf.gotoNext_mono hsub symbol x hx)⟩
    rw [hkerT, hstate.kernel_gotoNext_eq wf (hR.isState wf) hker symbol]

/-! ## Lists without repetitions -/

/-- Adds a kernel at the end of a list, unless it is there already. -/
def addNew (ks : List Kernel) (k : Kernel) : List Kernel := if k ∈ ks then ks else ks ++ [k]

theorem eq_of_getElem?_eq {ks : List Kernel} (h : ks.Nodup) {k : Kernel} {i j : Nat} (hi : ks[i]? = some k)
    (hj : ks[j]? = some k) : i = j :=
  (List.getElem?_inj (List.getElem?_eq_some_iff.mp hi).1 h).mp (hi.trans hj.symm)

theorem mem_addNew {ks : List Kernel} {k x : Kernel} : x ∈ addNew ks k ↔ x ∈ ks ∨ x = k := by
  rw [addNew]
  split
  · rename_i hk
    exact ⟨Or.inl, fun h => h.elim id fun heq => heq ▸ hk⟩
  · rw [List.mem_append, List.mem_singleton]

theorem nodup_addNew {ks : List Kernel} (h : ks.Nodup) (k : Kernel) : (addNew ks k).Nodup := by
  rw [addNew]
  split
  · exact h
  · rename_i hk
    refine List.nodup_append.mpr ⟨h, List.nodup_singleton k, ?_⟩
    intro a ha b hb hab
    rw [List.mem_singleton.mp hb] at hab
    exact hk (hab ▸ ha)

theorem addNew_of_mem {ks : List Kernel} {k : Kernel} (h : k ∈ ks) : addNew ks k = ks := if_pos h

theorem prefix_addNew (ks : List Kernel) (k : Kernel) : ks <+: addNew ks k := by
  rw [addNew]
  split
  · exact List.prefix_rfl
  · exact List.prefix_append ks [k]

theorem mem_foldl_addNew {l ks : List Kernel} {x : Kernel} : x ∈ l.foldl addNew ks ↔ x ∈ ks ∨ x ∈ l := by
  induction l generalizing ks with
  | nil => simp
  | cons k l ih => rw [List.foldl_cons, ih, mem_addNew, List.mem_cons, or_assoc]

theorem nodup_foldl_addNew {l ks : List Kernel} (h : ks.Nodup) : (l.foldl addNew ks).Nodup := by
  induction l generalizing ks with
  | nil => exact h
  | cons k l ih => exact ih (nodup_addNew h k)

theorem prefix_foldl_addNew (l ks : List Kernel) : ks <+: l.foldl addNew ks := by
  induction l generalizing ks with
  | nil => exact List.prefix_rfl
  | cons k l ih => exact (prefix_addNew ks k).trans (ih _)

theorem foldl_addNew_of_subset {l ks : List Kernel} (h : ∀ k ∈ l, k ∈ ks) : l.foldl addNew ks = ks := by
  induction l with
  | nil => rfl
  | cons k l ih =>
    rw [List.foldl_cons, addNew_of_mem (h k List.mem_cons_self)]
    exact ih fun x hx => h x (List.mem_cons_of_mem k hx)

/-! ## Discovery -/

/-- The kernels the symbols of a state lead to, in the order of the symbols. -/
def targets (g : Grammar) (S : ItemSet) : List Kernel :=
  (g.nextSymbols S).toList.map fun symbol => g.kernel (g.gotoNext S symbol)

theorem IsState.targets_eq (wf : g.WellFormed) {S T : ItemSet} (hS : g.IsState S) (hT : g.IsState T)
    (h : g.kernel S = g.kernel T) : g.targets S = g.targets T := by
  rw [targets, targets, hS.nextSymbols_eq wf hT h]
  exact List.map_congr_left fun symbol _ => hS.kernel_gotoNext_eq wf hT h symbol

/-- The kernels that are found, in their order, when the first ones of them are explored. -/
inductive Discovered (g : Grammar) : Nat → List Kernel → Prop
  | start : Discovered g 0 [g.kernel g.initialItemSet]
  | explore {m : Nat} {ks : List Kernel} {S : ItemSet} : Discovered g m ks → g.IsState S →
      ks[m]? = some (g.kernel S) → Discovered g (m + 1) ((g.targets S).foldl addNew ks)

theorem Discovered.nodup {m : Nat} {ks : List Kernel} (h : g.Discovered m ks) : ks.Nodup := by
  induction h with
  | start => exact List.nodup_singleton _
  | explore _ _ _ ih => exact nodup_foldl_addNew ih

/-- What the explored kernels lead to is found. -/
theorem Discovered.targets_subset (wf : g.WellFormed) {m : Nat} {ks : List Kernel} (h : g.Discovered m ks) {i : Nat}
    (hi : i < m) {S : ItemSet} (hS : g.IsState S) (hker : ks[i]? = some (g.kernel S)) : ∀ k ∈ g.targets S, k ∈ ks := by
  induction h with
  | start => exact absurd hi (Nat.not_lt_zero _)
  | @explore m ks T hks hT hkerT ih =>
    intro k hk
    rw [mem_foldl_addNew]
    have hlt : i < ks.length := by
      have := (List.getElem?_eq_some_iff.mp hkerT).1
      omega
    have hker' : ks[i]? = some (g.kernel S) := by
      obtain ⟨rest, hrest⟩ := prefix_foldl_addNew (g.targets T) ks
      rw [← hker, ← hrest, List.getElem?_append_left hlt]
    rcases Nat.lt_succ_iff_lt_or_eq.mp hi with hi | rfl
    · exact Or.inl (ih hi hker' k hk)
    · right
      rw [hT.targets_eq wf hS (Option.some.inj (hkerT.symm.trans hker'))]
      exact hk

/-- The kernels found are determined by how many are explored. -/
theorem Discovered.unique (wf : g.WellFormed) {m : Nat} {ks ks' : List Kernel} (h : g.Discovered m ks)
    (h' : g.Discovered m ks') : ks = ks' := by
  induction h generalizing ks' with
  | start =>
    cases h'
    rfl
  | explore _ hS hker ih =>
    cases h' with
    | explore hks' hT hker' =>
      cases ih hks'
      rw [hS.targets_eq wf hT (Option.some.inj (hker.symm.trans hker'))]

/-- What was found when fewer kernels were explored. -/
theorem Discovered.exists_of_le {m n : Nat} {ks : List Kernel} (h : g.Discovered n ks) (hmn : m ≤ n) :
    ∃ ks', g.Discovered m ks' ∧ (m < n → m < ks'.length) := by
  induction h with
  | start =>
    obtain rfl := Nat.le_zero.mp hmn
    exact ⟨_, Discovered.start, fun h => absurd h (Nat.lt_irrefl 0)⟩
  | @explore n ks S hks hS hker ih =>
    rcases Nat.lt_or_eq_of_le hmn with hlt | rfl
    · rcases Nat.lt_or_eq_of_le (Nat.lt_succ_iff.mp hlt) with hlt | rfl
      · obtain ⟨ks', hks', hlen⟩ := ih hlt.le
        exact ⟨ks', hks', fun _ => hlen hlt⟩
      · exact ⟨ks, hks, fun _ => (List.getElem?_eq_some_iff.mp hker).1⟩
    · exact ⟨_, hks.explore hS hker, fun h => absurd h (Nat.lt_irrefl _)⟩

/-- **The order of discovery does not depend on how the states are explored.** -/
theorem Discovered.eq_of_explored (wf : g.WellFormed) {ks ks' : List Kernel} (h : g.Discovered ks.length ks)
    (h' : g.Discovered ks'.length ks') : ks = ks' := by
  -- the run that explores fewer kernels has none left to explore
  have key : ∀ {ks ks' : List Kernel}, g.Discovered ks.length ks → g.Discovered ks'.length ks' →
      ks.length ≤ ks'.length → ks = ks' := by
    intro ks ks' h h' hle
    obtain ⟨found, hfound, hlen⟩ := h'.exists_of_le hle
    cases hfound.unique wf h
    rcases Nat.lt_or_eq_of_le hle with hlt | heq
    · exact absurd (hlen hlt) (Nat.lt_irrefl _)
    · exact hfound.unique wf (heq ▸ h')
  rcases Nat.le_total ks.length ks'.length with hle | hle
  · exact key h h' hle
  · exact (key h' h hle).symm

end Grammar

end ShaderFront
