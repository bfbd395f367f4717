import Mathlib
import ShaderFront.Proofs.Unioned
import ShaderFront.Table.Basic

/-!
# Merging afterwards and merging while exploring agree

Both ways number the kernels in the order of discovery, make the state of a kernel the union of all reached sets
that have it (`Grammar.Automaton.mem_state`, `Grammar.Merges`), and send a state over a symbol to the state with the
kernel of GOTO. So the two collections are equal, transition maps included
(`Grammar.WellFormed.merged_eq_unioned`), and with them the two tables.
-/

namespace ShaderFront

/-! ## Equality of collections -/

namespace OrderedMap

variable {κ ν : Type} [Ord κ] [DecidableEq κ] [Std.LawfulEqOrd κ]

theorem get?_eq_some {m : OrderedMap κ ν} {k : κ} {v : ν} : m.get? k = some v ↔ (k, v) ∈ m.toList := by
  have key : ∀ l : List (κ × ν), l.Pairwise (fun a b => compare a.1 b.1 = .lt) →
      (lookup k l = some v ↔ (k, v) ∈ l) := by
    intro l hl
    induction l with
    | nil => simp [lookup]
    | cons e l ih =>
      obtain ⟨hhead, htail⟩ := List.pairwise_cons.mp hl
      rw [lookup, List.mem_cons]
      split
      · rename_i heq
        subst heq
        constructor
        · intro h
          exact Or.inl (by rw [← Option.some.inj h])
        · rintro (h | h)
          · rw [← h]
          · have hlt := hhead _ h
            simp at hlt
      · rename_i hne
        rw [ih htail]
        refine ⟨Or.inr, fun h => h.resolve_left fun heq => hne ?_⟩
        rw [← heq]
  exact key m.toList m.ascending

/-- Two maps with the same lookups are equal. -/
theorem ext [Std.TransOrd κ] {m n : OrderedMap κ ν} (h : ∀ k, m.get? k = n.get? k) : m = n := by
  have irrefl : Std.Irrefl fun a b : κ × ν => compare a.1 b.1 = .lt := ⟨fun a ha => by simp at ha⟩
  have antisymm : Std.Antisymm fun a b : κ × ν => compare a.1 b.1 = .lt := by
    refine ⟨fun a b hab hba => ?_⟩
    have := Std.TransCmp.lt_trans hab hba
    simp at this
  refine eq_of_toList_eq (m.ascending.eq_of_mem_iff n.ascending fun ⟨k, v⟩ => ?_)
  rw [← get?_eq_some, ← get?_eq_some, h]

end OrderedMap

namespace Collection

/-- Two collections with the same states and the same transitions are equal. -/
theorem eq_of_target?_eq {c d : Collection} (hstates : c.states = d.states)
    (hsize : c.transitions.size = d.transitions.size)
    (htarget : ∀ i symbol, c.target? i symbol = d.target? i symbol) : c = d := by
  have htransitions : c.transitions = d.transitions := by
    refine Array.ext hsize fun i hc hd => OrderedMap.ext fun symbol => ?_
    have := htarget i symbol
    simpa [target?, transitionsAt, Array.getD_eq_getD_getElem?, hc, hd] using this
  cases c
  cases d
  simp_all

/-- All transitions, as their source, symbol and target. -/
def edges (c : Collection) : List (StateId × SymbolId × StateId) :=
  c.transitions.toList.zipIdx.flatMap fun (transitions, source) =>
    transitions.toList.map fun (symbol, target) => (source, symbol, target)

theorem mem_edges {c : Collection} {source target : StateId} {symbol : SymbolId} :
    (source, symbol, target) ∈ c.edges ↔ c.target? source symbol = some target := by
  have hat : c.target? source symbol = some target ↔
      ∃ transitions, c.transitions[source]? = some transitions ∧ (symbol, target) ∈ transitions.toList := by
    rw [target?, transitionsAt, OrderedMap.get?_eq_some, Array.getD_eq_getD_getElem?]
    cases c.transitions[source]? with
    | none => simp [EmptyCollection.emptyCollection, OrderedMap.empty]
    | some transitions => simp
  rw [hat, edges, List.mem_flatMap]
  constructor
  · rintro ⟨⟨transitions, source'⟩, hmem, hedge⟩
    obtain ⟨⟨symbol', target'⟩, hentry, heq⟩ := List.mem_map.mp hedge
    cases heq
    refine ⟨transitions, ?_, hentry⟩
    simpa using List.mem_zipIdx_iff_getElem?.mp hmem
  · rintro ⟨transitions, hget, hentry⟩
    refine ⟨(transitions, source), List.mem_zipIdx_iff_getElem?.mpr ?_, List.mem_map.mpr ⟨_, hentry, rfl⟩⟩
    simpa using hget

/-- Setting a list of transitions, each renumbered, sets nothing else. -/
theorem foldl_addTransition (rename : StateId → StateId) : ∀ (edges : List (StateId × SymbolId × StateId))
    (c : Collection), (∀ e ∈ edges, rename e.1 < c.transitions.size) →
    let d := edges.foldl (fun c e => c.addTransition (rename e.1) e.2.1 (rename e.2.2)) c
    d.states = c.states ∧ d.transitions.size = c.transitions.size ∧
      (∀ {i t : StateId} {symbol : SymbolId}, d.target? i symbol = some t → c.target? i symbol = some t ∨
        ∃ source target, (source, symbol, target) ∈ edges ∧ i = rename source ∧ t = rename target) ∧
      (∀ {source target : StateId} {symbol : SymbolId}, (source, symbol, target) ∈ edges →
        ∃ t, d.target? (rename source) symbol = some t) ∧
      ∀ {i t : StateId} {symbol : SymbolId}, c.target? i symbol = some t → ∃ t', d.target? i symbol = some t'
  | [], c, _ => ⟨rfl, rfl, Or.inl, fun h => absurd h List.not_mem_nil, fun h => ⟨_, h⟩⟩
  | (source, symbol, target) :: edges, c, hlt => by
    have htarget := target?_addTransition (hlt _ List.mem_cons_self) symbol (rename target)
    obtain ⟨hstates, hsize, hsound, hcomplete, hkeep⟩ := foldl_addTransition rename edges
      (c.addTransition (rename source) symbol (rename target)) fun e he => by
        rw [size_transitions_addTransition]
        exact hlt e (List.mem_cons_of_mem _ he)
    refine ⟨hstates, hsize.trans size_transitions_addTransition, fun h => ?_, fun h => ?_, fun h => ?_⟩
    · rcases hsound h with hc | ⟨source', target', hmem, hi, ht⟩
      · rw [htarget] at hc
        split at hc
        · rename_i heq
          obtain ⟨rfl, rfl⟩ := heq
          exact Or.inr ⟨source, target, List.mem_cons_self, rfl, (Option.some.inj hc).symm⟩
        · exact Or.inl hc
      · exact Or.inr ⟨source', target', List.mem_cons_of_mem _ hmem, hi, ht⟩
    · rcases List.mem_cons.mp h with h | h
      · cases h
        exact hkeep (by rw [htarget, if_pos ⟨rfl, rfl⟩])
      · exact hcomplete h
    · rename_i i t x
      by_cases heq : rename source = i ∧ symbol = x
      · exact hkeep (by rw [htarget, if_pos heq])
      · exact hkeep (by rw [htarget, if_neg heq]; exact h)

end Collection

namespace Grammar

variable {g : Grammar}

/-! ## The states of the merged collection -/

/-- What merging a list of sets comes to: one state for each kernel, the union of the sets that have it. -/
structure Merges (g : Grammar) (sets : List ItemSet) (m : Merging) : Prop where
  kernels : m.kernels.toList = firstSeen (sets.map g.kernel)
  size_states : m.states.size = m.kernels.size
  states : ∀ {id : StateId} {U : ItemSet} {x : Item}, m.states[id]? = some U →
    (x ∈ U ↔ ∃ S ∈ sets, m.kernels[id]? = some (g.kernel S) ∧ x ∈ S)
  size_renumbering : m.renumbering.size = sets.length
  renumbering : ∀ {j : StateId} {S : ItemSet}, sets[j]? = some S →
    ∃ id, m.renumbering[j]? = some id ∧ m.kernels[id]? = some (g.kernel S)

theorem Merges.index_unique {sets : List ItemSet} {m : Merging} (h : g.Merges sets m) {i j : StateId} {k : Kernel}
    (hi : m.kernels[i]? = some k) (hj : m.kernels[j]? = some k) : i = j := by
  have hnodup : m.kernels.toList.Nodup := by
    rw [h.kernels]
    exact nodup_foldl_addNew List.nodup_nil
  rw [← Array.getElem?_toList] at hi hj
  exact eq_of_getElem?_eq hnodup hi hj

theorem Merges.renumbering_push {sets : List ItemSet} {m : Merging} (h : g.Merges sets m) {S : ItemSet} {id : StateId}
    {kernels : Array Kernel} (hkernels : ∀ {i : StateId} {k : Kernel}, m.kernels[i]? = some k → kernels[i]? = some k)
    (hid : kernels[id]? = some (g.kernel S)) {j : StateId} {T : ItemSet} (hT : (sets ++ [S])[j]? = some T) :
    ∃ i, (m.renumbering.push id)[j]? = some i ∧ kernels[i]? = some (g.kernel T) := by
  rcases Nat.lt_trichotomy j sets.length with hlt | rfl | hgt
  · rw [List.getElem?_append_left hlt] at hT
    obtain ⟨i, hi, hker⟩ := h.renumbering hT
    exact ⟨i, Builder.getElem?_push_of_some hi, hkernels hker⟩
  · rw [List.getElem?_concat_length] at hT
    cases hT
    refine ⟨id, ?_, hid⟩
    rw [← h.size_renumbering, Array.getElem?_push_size]
  · rw [List.getElem?_eq_none (by simp; omega)] at hT
    cases hT

theorem Merges.firstSeen_concat {sets : List ItemSet} {m : Merging} (h : g.Merges sets m) (S : ItemSet) :
    firstSeen ((sets ++ [S]).map g.kernel) = addNew m.kernels.toList (g.kernel S) := by
  rw [List.map_append, firstSeen_append, h.kernels]
  rfl

/-- A set whose kernel is known is added to its state. -/
theorem Merges.join {sets : List ItemSet} {m : Merging} (h : g.Merges sets m) {S : ItemSet} {id : StateId}
    (hid : m.kernels[id]? = some (g.kernel S)) : g.Merges (sets ++ [S])
      { m with states := m.states.modify id (· ∪ S), renumbering := m.renumbering.push id } := by
  refine ⟨?_, ?_, ?_, ?_, fun hT => h.renumbering_push (fun hi => hi) hid hT⟩
  · rw [h.firstSeen_concat, addNew_of_mem (Array.mem_toList_iff.mpr (Array.mem_of_getElem? hid))]
  · simp [h.size_states]
  · intro i U x hU
    have hold : ∀ {V : ItemSet}, m.states[i]? = some V → ((∃ T ∈ sets ++ [S], m.kernels[i]? = some (g.kernel T) ∧
        x ∈ T) ↔ x ∈ V ∨ (m.kernels[i]? = some (g.kernel S) ∧ x ∈ S)) := by
      intro V hV
      simp only [List.mem_append, List.mem_singleton, or_and_right, exists_or, exists_eq_left]
      rw [h.states hV]
    by_cases hi : id = i
    · subst hi
      obtain ⟨V, hV, rfl⟩ : ∃ V, m.states[id]? = some V ∧ V ∪ S = U := by
        simpa [Array.getElem?_modify] using hU
      rw [OrderedSet.mem_union, hold hV]
      simp [hid]
    · have hU' : m.states[i]? = some U := by simpa [Array.getElem?_modify, hi] using hU
      rw [hold hU']
      refine ⟨Or.inl, fun hx => hx.resolve_right fun ⟨hker, _⟩ => hi ?_⟩
      exact h.index_unique hid hker
  · simp [h.size_renumbering]

/-- A set with a new kernel becomes a state. -/
theorem Merges.add {sets : List ItemSet} {m : Merging} (h : g.Merges sets m) {S : ItemSet}
    (hnew : g.kernel S ∉ m.kernels.toList) : g.Merges (sets ++ [S])
      ⟨m.states.push S, m.kernels.push (g.kernel S), m.renumbering.push m.states.size⟩ := by
  have hid : (m.kernels.push (g.kernel S))[m.states.size]? = some (g.kernel S) := by
    rw [h.size_states, Array.getElem?_push_size]
  refine ⟨?_, ?_, ?_, ?_, fun hT => h.renumbering_push Builder.getElem?_push_of_some hid hT⟩
  · rw [h.firstSeen_concat, addNew, if_neg hnew, Array.toList_push]
  · simp [h.size_states]
  · intro i U x hU
    rcases Builder.getElem?_push_cases hU with hU | ⟨rfl, rfl⟩
    · have hlt : i < m.kernels.size := by
        rw [← h.size_states]
        exact (Array.getElem?_eq_some_iff.mp hU).1
      have hne : m.kernels[i]? ≠ some (g.kernel S) :=
        fun hker => hnew (Array.mem_toList_iff.mpr (Array.mem_of_getElem? hker))
      rw [h.states hU, Array.getElem?_push_lt hlt]
      simp only [List.mem_append, List.mem_singleton, or_and_right, exists_or, exists_eq_left]
      rw [← Array.getElem?_eq_getElem hlt]
      simp [hne]
    · simp only [hid, Option.some.injEq]
      constructor
      · intro hx
        exact ⟨U, by simp, rfl, hx⟩
      · rintro ⟨T, hT, hker, hx⟩
        rcases List.mem_append.mp hT with hT | hT
        · refine absurd ?_ hnew
          rw [h.kernels, mem_firstSeen, hker]
          exact List.mem_map_of_mem hT
        · rwa [List.mem_singleton.mp hT] at hx
  · simp [h.size_renumbering]

theorem Merges.mergeState {sets : List ItemSet} {m : Merging} (h : g.Merges sets m) (S : ItemSet) :
    g.Merges (sets ++ [S]) (g.mergeState m S) := by
  rw [Grammar.mergeState]
  cases hfind : m.kernels.findIdx? (· = g.kernel S) with
  | some id =>
    obtain ⟨hlt, heq, -⟩ := Array.findIdx?_eq_some_iff_getElem.mp hfind
    refine h.join ?_
    rw [Array.getElem?_eq_getElem hlt]
    simpa using heq
  | none =>
    refine h.add fun hmem => ?_
    simpa using Array.findIdx?_eq_none_iff.mp hfind _ (Array.mem_toList_iff.mp hmem)

theorem merges_foldl (sets : List ItemSet) : g.Merges sets (sets.foldl g.mergeState {}) := by
  induction sets using List.reverseRecOn with
  | nil => exact ⟨rfl, rfl, fun h => by simp at h, rfl, fun h => by simp at h⟩
  | append_singleton sets S ih =>
    rw [List.foldl_append]
    exact ih.mergeState S

/-! ## The two collections -/

theorem index_unique_of_kernels {c : Collection} (hdistinct : (g.kernels c).Nodup) {i j : StateId} {S T : ItemSet}
    (hS : c.states[i]? = some S) (hT : c.states[j]? = some T) (hker : g.kernel S = g.kernel T) : i = j := by
  have hi : (g.kernels c)[i]? = some (g.kernel S) := by simp [kernels, hS]
  have hj : (g.kernels c)[j]? = some (g.kernel S) := by simp [kernels, hT, hker]
  exact eq_of_getElem?_eq hdistinct hi hj

/-- With one state for each kernel, a state is the union of the reached sets that have its kernel. -/
theorem Automaton.mem_state (wf : g.WellFormed) {c : Collection} (h : g.Automaton c)
    (hdistinct : (g.kernels c).Nodup) {i : StateId} {S : ItemSet} (hS : c.states[i]? = some S) {x : Item} :
    x ∈ S ↔ ∃ R, g.Reached R ∧ g.kernel R = g.kernel S ∧ x ∈ R := by
  constructor
  · intro hx
    obtain ⟨R, hR, hker, -, hmem⟩ := (h.joined hS).cover x hx
    exact ⟨R, hR, hker, hmem⟩
  · rintro ⟨R, hR, hker, hx⟩
    obtain ⟨j, T, hT, hkerT, hsub⟩ := h.exists_state_of_reached wf hR
    have hij : i = j := index_unique_of_kernels hdistinct hS hT (hker.symm.trans hkerT.symm)
    rw [hij, hT] at hS
    exact Option.some.inj hS ▸ hsub x hx

/-- With one state for each kernel, the kernel of GOTO says where a transition leads. -/
theorem Automaton.target?_of_kernel {c : Collection} (h : g.Automaton c)
    (hdistinct : (g.kernels c).Nodup) {i t : StateId} {S T : ItemSet} {symbol : SymbolId} (hS : c.states[i]? = some S)
    (hT : c.states[t]? = some T) (hsymbol : symbol ∈ g.nextSymbols S)
    (hker : g.kernel T = g.kernel (g.gotoNext S symbol)) : c.target? i symbol = some t := by
  obtain ⟨u, -, hu, -, -⟩ := h.complete hS hsymbol
  obtain ⟨S', U, hS', hU, -, hkerU⟩ := h.sound hu
  cases hS.symm.trans hS'
  have hut : u = t := index_unique_of_kernels hdistinct hU hT (hkerU.trans hker.symm)
  rw [hu, hut]

/-- The merged states of a collection. -/
def merging (g : Grammar) (c : Collection) : Merging := c.states.toList.foldl g.mergeState {}

/-- The new number of a state. -/
def Merging.rename (m : Merging) (state : StateId) : StateId := m.renumbering.getD state 0

/-- Merging sets the renumbered transitions one after another. -/
theorem mergeItemSets_eq (g : Grammar) (c : Collection) : g.mergeItemSets c =
    c.edges.foldl (fun d e => d.addTransition ((g.merging c).rename e.1) e.2.1 ((g.merging c).rename e.2.2))
      { states := (g.merging c).states, transitions := Array.replicate (g.merging c).states.size ∅ } := by
  have hmerging : c.states.foldl g.mergeState {} = g.merging c := by rw [merging, Array.foldl_toList]
  rw [Collection.edges, List.foldl_flatMap, mergeItemSets, hmerging]
  simp only [List.foldl_map]
  rfl

/-- A merged collection has the merged states, and exactly the renumbered transitions. -/
theorem mergeItemSets_spec {c : Collection} (hbound : ∀ {j t : StateId} {symbol : SymbolId},
      c.target? j symbol = some t → (g.merging c).rename j < (g.merging c).states.size) :
    (g.mergeItemSets c).states = (g.merging c).states ∧
      (g.mergeItemSets c).transitions.size = (g.merging c).states.size ∧
      (∀ {i t : StateId} {symbol : SymbolId}, (g.mergeItemSets c).target? i symbol = some t →
        ∃ j u, c.target? j symbol = some u ∧ i = (g.merging c).rename j ∧ t = (g.merging c).rename u) ∧
      ∀ {j u : StateId} {symbol : SymbolId}, c.target? j symbol = some u →
        ∃ t, (g.mergeItemSets c).target? ((g.merging c).rename j) symbol = some t := by
  rw [mergeItemSets_eq]
  obtain ⟨hstates, hsize, hsound, hcomplete, -⟩ := Collection.foldl_addTransition (g.merging c).rename c.edges
    { states := (g.merging c).states, transitions := Array.replicate (g.merging c).states.size ∅ } (by
      rintro ⟨j, symbol, t⟩ he
      rw [Array.size_replicate]
      exact hbound (Collection.mem_edges.mp he))
  refine ⟨hstates, hsize.trans Array.size_replicate, fun ht => ?_, fun hu => hcomplete (Collection.mem_edges.mpr hu)⟩
  rcases hsound ht with h | ⟨j, u, he, hi, ht⟩
  · rw [Collection.target?, Collection.transitionsAt, Array.getD_eq_getD_getElem?, Array.getElem?_replicate] at h
    split at h <;> cases h
  · exact ⟨j, u, Collection.mem_edges.mp he, hi, ht⟩

/-! ## Agreement -/

/-- The canonical states merge into kernels in the order of the collection of unions. -/
theorem WellFormed.kernels_merging (wf : g.WellFormed) :
    (g.merging g.canonicalItemSets).kernels.toList = g.kernels g.unionedItemSets :=
  (merges_foldl _).kernels.trans (wf.discovered_canonical.eq_of_explored wf wf.discovered_unioned)

theorem WellFormed.getElem?_kernels_merging (wf : g.WellFormed) (i : StateId) :
    (g.merging g.canonicalItemSets).kernels[i]? = g.unionedItemSets.states[i]?.map g.kernel := by
  rw [← Array.getElem?_toList, wf.kernels_merging, kernels, List.getElem?_map, Array.getElem?_toList]

theorem WellFormed.states_merging (wf : g.WellFormed) :
    (g.merging g.canonicalItemSets).states = g.unionedItemSets.states := by
  have hm := merges_foldl (g := g) g.canonicalItemSets.states.toList
  have hsize : (g.merging g.canonicalItemSets).states.size = g.unionedItemSets.states.size := by
    rw [merging, hm.size_states, ← Array.length_toList, ← merging, wf.kernels_merging, kernels, List.length_map,
      Array.length_toList]
  refine Array.ext hsize fun i hi hi' => OrderedSet.ext fun x => ?_
  have hU := Array.getElem?_eq_getElem hi'
  have hmerged := hm.states (x := x) (Array.getElem?_eq_getElem hi)
  rw [← merging, wf.getElem?_kernels_merging, hU] at hmerged
  rw [hmerged, wf.automaton_unioned.mem_state wf wf.discovered_unioned.nodup hU]
  refine exists_congr fun R => ?_
  rw [wf.mem_canonicalItemSets, Option.map_some, Option.some.injEq, eq_comm]

/-- A canonical state is merged into the state with its kernel. -/
theorem WellFormed.rename_canonical (wf : g.WellFormed) {j : StateId} {S : ItemSet}
    (hS : g.canonicalItemSets.states[j]? = some S) : ∃ V,
      g.unionedItemSets.states[(g.merging g.canonicalItemSets).rename j]? = some V ∧ g.kernel V = g.kernel S := by
  obtain ⟨id, hid, hker⟩ := (merges_foldl g.canonicalItemSets.states.toList).renumbering (Array.getElem?_toList ▸ hS)
  rw [← merging, wf.getElem?_kernels_merging] at hker
  rw [Merging.rename, merging, Array.getD_eq_getD_getElem?, hid, Option.getD_some]
  exact Option.map_eq_some_iff.mp hker

theorem WellFormed.rename_lt (wf : g.WellFormed) {j t : StateId} {symbol : SymbolId}
    (ht : g.canonicalItemSets.target? j symbol = some t) :
    (g.merging g.canonicalItemSets).rename j < (g.merging g.canonicalItemSets).states.size := by
  obtain ⟨S, hS, -, -⟩ := wf.canonical.sound ht
  obtain ⟨V, hV, -⟩ := wf.rename_canonical hS
  rw [wf.states_merging]
  exact (Array.getElem?_eq_some_iff.mp hV).1

/-- A renumbered transition leads to the kernel of GOTO. -/
theorem WellFormed.target?_unioned (wf : g.WellFormed) {i t : StateId} {symbol : SymbolId}
    (ht : (g.mergeItemSets g.canonicalItemSets).target? i symbol = some t) :
    g.unionedItemSets.target? i symbol = some t := by
  obtain ⟨-, -, hsound, -⟩ := mergeItemSets_spec wf.rename_lt
  obtain ⟨j, u, hu, rfl, rfl⟩ := hsound ht
  obtain ⟨S, hS, hsymbol, htarget⟩ := wf.canonical.sound hu
  obtain ⟨V, hV, hkerV⟩ := wf.rename_canonical hS
  obtain ⟨W, hW, hkerW⟩ := wf.rename_canonical htarget
  have hstate := (wf.automaton_unioned.joined hV).isState wf
  have hstate' := (wf.canonical.reached hS).isState wf
  refine wf.automaton_unioned.target?_of_kernel wf.discovered_unioned.nodup hV hW ?_ ?_
  · rw [hstate.nextSymbols_eq wf hstate' hkerV]
    exact hsymbol
  · rw [hkerW, hstate.kernel_gotoNext_eq wf hstate' hkerV symbol]

/-- Every transition of a state of unions comes from one of a canonical state that was merged into it. -/
theorem WellFormed.exists_target?_merged (wf : g.WellFormed) {i u : StateId} {symbol : SymbolId}
    (hu : g.unionedItemSets.target? i symbol = some u) :
    ∃ t, (g.mergeItemSets g.canonicalItemSets).target? i symbol = some t := by
  obtain ⟨-, -, -, hcomplete⟩ := mergeItemSets_spec wf.rename_lt
  obtain ⟨V, T, hV, -, hsymbol, -⟩ := wf.automaton_unioned.sound hu
  have hjoined := wf.automaton_unioned.joined hV
  obtain ⟨R, hR, hkerR, -⟩ := hjoined.part
  obtain ⟨j, hj⟩ := List.mem_iff_getElem?.mp (wf.mem_canonicalItemSets.mpr hR)
  rw [Array.getElem?_toList] at hj
  obtain ⟨V', hV', hkerV'⟩ := wf.rename_canonical hj
  have hi := index_unique_of_kernels wf.discovered_unioned.nodup hV' hV (hkerV'.trans hkerR)
  have hsymbol' : symbol ∈ g.nextSymbols R := by
    rw [(hR.isState wf).nextSymbols_eq wf (hjoined.isState wf) hkerR]
    exact hsymbol
  obtain ⟨t, ht, -⟩ := wf.exists_target_canonical hj hsymbol'
  exact hi ▸ hcomplete ht

/-- **Merging afterwards gives the collection that merging while exploring gives.** -/
theorem WellFormed.merged_eq_unioned (wf : g.WellFormed) : g.mergeItemSets g.canonicalItemSets = g.unionedItemSets := by
  obtain ⟨hstates, hsize, -, -⟩ := mergeItemSets_spec wf.rename_lt
  refine Collection.eq_of_target?_eq (hstates.trans wf.states_merging) ?_ fun i symbol => ?_
  · rw [hsize, wf.automaton_unioned.size_transitions, wf.states_merging]
  · refine Option.ext fun t => ⟨wf.target?_unioned, fun ht => ?_⟩
    obtain ⟨t', ht'⟩ := wf.exists_target?_merged ht
    rw [ht', ← wf.target?_unioned ht', ht]

/-- **Merging afterwards and merging while exploring agree** on every grammar a builder gives: the collections are equal
state by state and transition by transition, and so are the cells of the tables and their conflicts. -/
theorem merged_agrees_with_unioned {requests : List Builder.Request} {g : Grammar}
    (h : (Builder.after requests).build = .ok g) :
    g.mergeItemSets g.canonicalItemSets = g.unionedItemSets ∧
      (g.table .merged).rows = (g.table .unioned).rows ∧
      (g.table .merged).conflicts = (g.table .unioned).conflicts := by
  have heq := (wellFormed_of_build h).merged_eq_unioned
  have htable : g.table .merged = g.table .unioned := by rw [table, table, itemSets, itemSets, heq]
  exact ⟨heq, by rw [htable], by rw [htable]⟩

/-- The two ways agree on nested parentheses. -/
theorem merged_agrees_with_unioned_parentheses :
    (Builder.after Builder.parentheses).build = .ok parentheses ∧
      (parentheses.table .merged).rows = (parentheses.table .unioned).rows :=
  ⟨build_parentheses, (merged_agrees_with_unioned build_parentheses).2.1⟩

end Grammar

end ShaderFront
