import Mathlib
import ShaderFront.Proofs.Canonical

/-!
# The collection of unions

Merging while exploring. A state is a union of reached sets with one kernel (`Grammar.Unioned`), and it only grows
(`Grammar.Grown`). A state that is not queued leads, over each of its symbols, to a state that has all of GOTO
(`Grammar.Covers`); while a state is explored this holds of the symbols followed so far (`Grammar.Pending`). When the queue
is empty the collection is an automaton (`Grammar.WellFormed.automaton_unioned`).

The queue runs empty within the bound on the steps, because whenever a state is queued again an item was added
somewhere. The states that were never explored stand in the queue in ascending order (`Grammar.Frontier`), so kernels are
found in the order of discovery (`Grammar.WellFormed.discovered_unioned`).
-/

namespace ShaderFront.Grammar

variable {g : Grammar}

/-! ## The moves of an exploration -/

namespace Exploration

/-- Sets a transition. -/
def connect (e : Exploration) (source : StateId) (symbol : SymbolId) (target : StateId) : Exploration :=
  { e with collection := e.collection.addTransition source symbol target }

/-- Replaces the items of a state and queues it again. -/
def grow (e : Exploration) (id : StateId) (set : ItemSet) : Exploration :=
  { e with
    collection := { e.collection with states := e.collection.states.setIfInBounds id set }
    queue := if id ∈ e.queue then e.queue else e.queue ++ [id] }

/-- Adds a state and queues it. -/
def discover (e : Exploration) (kernel : Kernel) (set : ItemSet) : Exploration :=
  { collection := e.collection.addState set
    kernels := e.kernels.push kernel
    queue := e.queue ++ [e.collection.states.size] }

end Exploration

/-! ## Unions -/

/-- A partial automaton with one state for each kernel. -/
structure Unioned (g : Grammar) (c : Collection) : Prop extends g.PartialAutomaton c where
  distinct : (g.kernels c).Nodup

/-- Each state of the first collection is part of the state with its number in the second one, and has its kernel. -/
def Grown (g : Grammar) (c c' : Collection) : Prop := ∀ (i : StateId) (S : ItemSet), c.states[i]? = some S →
  ∃ S', c'.states[i]? = some S' ∧ g.kernel S' = g.kernel S ∧ ∀ x ∈ S, x ∈ S'

theorem Grown.refl (c : Collection) : g.Grown c c := fun _ _ hS => ⟨_, hS, rfl, fun _ hx => hx⟩

theorem Grown.addState (c : Collection) (T : ItemSet) : g.Grown c (c.addState T) :=
  fun _ _ hS => ⟨_, states_addState_of_some hS, rfl, fun _ hx => hx⟩

theorem Grown.set {c : Collection} {id : StateId} {T U : ItemSet} (hT : c.states[id]? = some T)
    (hker : g.kernel U = g.kernel T) (hsub : ∀ x ∈ T, x ∈ U) :
    g.Grown c { c with states := c.states.setIfInBounds id U } := by
  intro i S hS
  by_cases hi : id = i
  · subst hi
    cases hT.symm.trans hS
    have hlt := (Array.getElem?_eq_some_iff.mp hT).1
    exact ⟨U, by simp [hlt], hker, hsub⟩
  · exact ⟨S, by simp [hi, hS], rfl, fun _ hx => hx⟩

/-- Transitions stay sound when states grow. -/
theorem Grown.sound (wf : g.WellFormed) {c c' : Collection} (hgrown : g.Grown c c') (h : g.PartialAutomaton c)
    (hjoined : ∀ {i : StateId} {S : ItemSet}, c'.states[i]? = some S → g.Joined (g.kernel S) S) {i t : StateId}
    {symbol : SymbolId} (ht : c.target? i symbol = some t) : ∃ S T, c'.states[i]? = some S ∧
      c'.states[t]? = some T ∧ symbol ∈ g.nextSymbols S ∧ g.kernel T = g.kernel (g.gotoNext S symbol) := by
  obtain ⟨S, T, hS, hT, hsymbol, hker⟩ := h.sound ht
  obtain ⟨S', hS', hkerS, -⟩ := hgrown _ _ hS
  obtain ⟨T', hT', hkerT, -⟩ := hgrown _ _ hT
  have hstate := (hjoined hS').isState wf
  have hstate' := (h.joined hS).isState wf
  refine ⟨S', T', hS', hT', ?_, ?_⟩
  · rw [hstate.nextSymbols_eq wf hstate' hkerS]
    exact hsymbol
  · rw [hkerT, hker, hstate.kernel_gotoNext_eq wf hstate' hkerS symbol]

theorem Grown.start {c c' : Collection} (hgrown : g.Grown c c') (h : g.PartialAutomaton c) :
    ∃ S, c'.states[0]? = some S ∧ g.kernel S = g.kernel g.initialItemSet ∧ ∀ i ∈ g.initialItemSet, i ∈ S := by
  obtain ⟨S, hS, hker, hsub⟩ := h.start
  obtain ⟨S', hS', hker', hsub'⟩ := hgrown _ _ hS
  exact ⟨S', hS', hker'.trans hker, fun i hi => hsub' i (hsub i hi)⟩

theorem Unioned.addTransition {c : Collection} (h : g.Unioned c) {source t : StateId} {symbol : SymbolId}
    {S T : ItemSet} (hS : c.states[source]? = some S) (hT : c.states[t]? = some T)
    (hsymbol : symbol ∈ g.nextSymbols S) (hker : g.kernel T = g.kernel (g.gotoNext S symbol)) :
    g.Unioned (c.addTransition source symbol t) := by
  have hlt : source < c.transitions.size := by
    rw [h.size_transitions]
    exact (Array.getElem?_eq_some_iff.mp hS).1
  refine ⟨⟨by simp [h.size_transitions], h.start, h.joined, ?_⟩, h.distinct⟩
  intro i t' x ht'
  rw [Collection.target?_addTransition hlt] at ht'
  split at ht'
  · rename_i heq
    obtain ⟨rfl, rfl⟩ := heq
    cases ht'
    exact ⟨S, T, hS, hT, hsymbol, hker⟩
  · exact h.sound ht'

theorem Unioned.addState (wf : g.WellFormed) {c : Collection} (h : g.Unioned c) {T : ItemSet}
    (hT : g.Joined (g.kernel T) T) (hnew : g.kernel T ∉ g.kernels c) : g.Unioned (c.addState T) := by
  have hjoined : ∀ {i : StateId} {S : ItemSet}, (c.addState T).states[i]? = some S → g.Joined (g.kernel S) S := by
    intro i S hS
    rcases Builder.getElem?_push_cases hS with hS | ⟨-, rfl⟩
    · exact h.joined hS
    · exact hT
  refine ⟨⟨?_, (Grown.addState c T).start h.toPartialAutomaton, hjoined, ?_⟩, ?_⟩
  · simp [Collection.addState, h.size_transitions]
  · intro i t symbol ht
    rw [Collection.target?_addState] at ht
    exact (Grown.addState c T).sound wf h.toPartialAutomaton hjoined ht
  · have hkernels : g.kernels (c.addState T) = addNew (g.kernels c) (g.kernel T) := by
      rw [addNew, if_neg hnew]
      simp [kernels, Collection.addState]
    rw [hkernels]
    exact nodup_addNew h.distinct _

/-- A kernel does not change when its state grows. -/
theorem kernels_set {c : Collection} {id : StateId} {T U : ItemSet} (hT : c.states[id]? = some T)
    (hker : g.kernel U = g.kernel T) :
    g.kernels { c with states := c.states.setIfInBounds id U } = g.kernels c := by
  have hget : (g.kernels c)[id]? = some (g.kernel U) := by simp [kernels, hT, hker]
  obtain ⟨hlt, hget⟩ := List.getElem?_eq_some_iff.mp hget
  have hset : g.kernels { c with states := c.states.setIfInBounds id U } = (g.kernels c).set id (g.kernel U) := by
    simp [kernels, List.map_set]
  rw [hset, ← hget, List.set_getElem_self]

theorem Unioned.set (wf : g.WellFormed) {c : Collection} (h : g.Unioned c) {id : StateId} {T U : ItemSet}
    (hT : c.states[id]? = some T) (hU : g.Joined (g.kernel T) U) (hsub : ∀ x ∈ T, x ∈ U) :
    g.Unioned { c with states := c.states.setIfInBounds id U } := by
  have hgrown : g.Grown c { c with states := c.states.setIfInBounds id U } := Grown.set hT hU.kernel_eq hsub
  have hjoined : ∀ {i : StateId} {S : ItemSet}, (c.states.setIfInBounds id U)[i]? = some S →
      g.Joined (g.kernel S) S := by
    intro i S hS
    rw [Array.getElem?_setIfInBounds] at hS
    split at hS
    · split at hS
      · cases hS
        rw [hU.kernel_eq]
        exact hU
      · cases hS
    · exact h.joined hS
  have hbase := h.toPartialAutomaton
  refine ⟨⟨?_, hgrown.start hbase, hjoined, fun ht => hgrown.sound wf hbase hjoined ht⟩, ?_⟩
  · simp [h.size_transitions]
  · rw [kernels_set hT hU.kernel_eq]
    exact h.distinct

/-! ## Coverage -/

/-- Over each of the symbols, a state leads to one that has all of GOTO of a set. -/
def Covers (g : Grammar) (c : Collection) (i : StateId) (S : ItemSet) (symbols : List SymbolId) : Prop :=
  ∀ symbol ∈ symbols, ∃ t T, c.target? i symbol = some t ∧ c.states[t]? = some T ∧ ∀ x ∈ g.gotoNext S symbol, x ∈ T

theorem Covers.grown {c c' : Collection} {i : StateId} {S : ItemSet} {symbols : List SymbolId}
    (h : g.Covers c i S symbols) (hgrown : g.Grown c c') (htarget : ∀ symbol, c'.target? i symbol = c.target? i symbol) :
    g.Covers c' i S symbols := by
  intro symbol hsymbol
  obtain ⟨t, T, ht, hT, hsub⟩ := h symbol hsymbol
  obtain ⟨T', hT', -, hsub'⟩ := hgrown _ _ hT
  exact ⟨t, T', (htarget symbol).trans ht, hT', fun x hx => hsub' x (hsub x hx)⟩

/-- The state `source` is being explored: its items were `set` when that began, and the symbols in `followed` are done.
If it grew since then, it is queued again. -/
structure Pending (g : Grammar) (source : StateId) (set : ItemSet) (followed : List SymbolId) (e : Exploration) :
    Prop where
  state : ∃ S, e.collection.states[source]? = some S ∧ g.kernel S = g.kernel set
  unchanged : source ∈ e.queue ∨ e.collection.states[source]? = some set
  covers : g.Covers e.collection source set followed
  others : ∀ {i : StateId} {S : ItemSet}, e.collection.states[i]? = some S → i ≠ source →
    i ∈ e.queue ∨ g.Covers e.collection i S (g.nextSymbols S).toList

theorem mem_queue_grow {e : Exploration} {id i : StateId} {set : ItemSet} :
    i ∈ (e.grow id set).queue ↔ i ∈ e.queue ∨ i = id := by
  rw [Exploration.grow]
  split
  · rename_i hid
    exact ⟨Or.inl, fun h => h.elim (fun h => h) fun heq => heq ▸ hid⟩
  · rw [List.mem_append, List.mem_singleton]

theorem Pending.connect {source : StateId} {set : ItemSet} {followed : List SymbolId} {e : Exploration}
    (h : g.Pending source set followed e) (hlt : source < e.collection.transitions.size) {symbol : SymbolId} {t : StateId}
    {T : ItemSet} (hT : e.collection.states[t]? = some T) (hsub : ∀ x ∈ g.gotoNext set symbol, x ∈ T) :
    g.Pending source set (followed ++ [symbol]) (e.connect source symbol t) := by
  have htarget := Collection.target?_addTransition hlt symbol t
  refine ⟨h.state, h.unchanged, ?_, ?_⟩
  · intro x hx
    by_cases heq : symbol = x
    · subst heq
      exact ⟨t, T, by rw [Exploration.connect, htarget, if_pos ⟨rfl, rfl⟩], hT, hsub⟩
    · have hx' : x ∈ followed := by
        rcases List.mem_append.mp hx with hx | hx
        · exact hx
        · exact absurd (List.mem_singleton.mp hx).symm heq
      obtain ⟨t', T', ht', hT', hsub'⟩ := h.covers x hx'
      exact ⟨t', T', by rw [Exploration.connect, htarget, if_neg fun h => heq h.2, ht'], hT', hsub'⟩
  · intro i S hS hne
    refine (h.others hS hne).imp id fun hcovers => hcovers.grown (Grown.refl _) fun x => ?_
    rw [Exploration.connect, htarget, if_neg fun h => hne h.1.symm]

theorem Pending.grow {source : StateId} {set : ItemSet} {followed : List SymbolId} {e : Exploration}
    (h : g.Pending source set followed e) {id : StateId} {T U : ItemSet} (hT : e.collection.states[id]? = some T)
    (hker : g.kernel U = g.kernel T) (hsub : ∀ x ∈ T, x ∈ U) : g.Pending source set followed (e.grow id U) := by
  have hgrown : g.Grown e.collection (e.grow id U).collection := Grown.set hT hker hsub
  have hget : ∀ {i : StateId}, i ≠ id → (e.grow id U).collection.states[i]? = e.collection.states[i]? :=
    fun hne => Array.getElem?_setIfInBounds_ne hne.symm
  refine ⟨?_, ?_, h.covers.grown hgrown fun _ => rfl, ?_⟩
  · obtain ⟨S, hS, hkerS⟩ := h.state
    obtain ⟨S', hS', hkerS', -⟩ := hgrown _ _ hS
    exact ⟨S', hS', hkerS'.trans hkerS⟩
  · by_cases heq : source = id
    · exact Or.inl (mem_queue_grow.mpr (Or.inr heq))
    · exact h.unchanged.imp (fun hq => mem_queue_grow.mpr (Or.inl hq)) (hget heq).trans
  · intro i S hS hne
    by_cases heq : i = id
    · exact Or.inl (mem_queue_grow.mpr (Or.inr heq))
    · rw [hget heq] at hS
      exact (h.others hS hne).imp (fun hq => mem_queue_grow.mpr (Or.inl hq)) fun hcovers =>
        hcovers.grown hgrown fun _ => rfl

theorem Pending.discover {source : StateId} {set : ItemSet} {followed : List SymbolId} {e : Exploration}
    (h : g.Pending source set followed e) (kernel : Kernel) (T : ItemSet) :
    g.Pending source set followed (e.discover kernel T) := by
  have hgrown : g.Grown e.collection (e.discover kernel T).collection := Grown.addState _ T
  have htarget : ∀ i symbol, (e.discover kernel T).collection.target? i symbol = e.collection.target? i symbol :=
    Collection.target?_addState T
  refine ⟨?_, ?_, h.covers.grown hgrown (htarget source), ?_⟩
  · obtain ⟨S, hS, hkerS⟩ := h.state
    exact ⟨S, states_addState_of_some hS, hkerS⟩
  · exact h.unchanged.imp (fun hq => List.mem_append_left _ hq) states_addState_of_some
  · intro i S hS hne
    rcases Builder.getElem?_push_cases hS with hS | ⟨rfl, -⟩
    · exact (h.others hS hne).imp (fun hq => List.mem_append_left _ hq) fun hcovers =>
        hcovers.grown hgrown (htarget i)
    · exact Or.inl (List.mem_append_right _ (List.mem_singleton.mpr rfl))

/-! ## The queue -/

/-- The states from `m` on are not explored yet, and stand in the queue in ascending order. -/
structure Frontier (g : Grammar) (m : Nat) (e : Exploration) : Prop where
  kernels : e.kernels.toList = g.kernels e.collection
  queued : ∀ i ∈ e.queue, i < e.collection.states.size
  le : m ≤ e.collection.states.size
  unexplored : e.queue.filter (m ≤ ·) = List.range' m (e.collection.states.size - m)

theorem Frontier.connect {m : Nat} {e : Exploration} (h : g.Frontier m e) (source : StateId) (symbol : SymbolId)
    (t : StateId) : g.Frontier m (e.connect source symbol t) :=
  ⟨h.kernels, h.queued, h.le, h.unexplored⟩

theorem Frontier.mem_queue {m : Nat} {e : Exploration} (h : g.Frontier m e) {i : Nat} (hle : m ≤ i)
    (hlt : i < e.collection.states.size) : i ∈ e.queue := by
  have hmem : i ∈ e.queue.filter (m ≤ ·) := by
    rw [h.unexplored]
    exact List.mem_range'_1.mpr ⟨hle, by omega⟩
  exact (List.mem_filter.mp hmem).1

theorem Frontier.grow {m : Nat} {e : Exploration} (h : g.Frontier m e) {id : StateId} {T U : ItemSet}
    (hT : e.collection.states[id]? = some T) (hker : g.kernel U = g.kernel T) : g.Frontier m (e.grow id U) := by
  have hlt := (Array.getElem?_eq_some_iff.mp hT).1
  have hsize : (e.grow id U).collection.states.size = e.collection.states.size := Array.size_setIfInBounds
  refine ⟨h.kernels.trans (kernels_set hT hker).symm, fun i hi => ?_, by rw [hsize]; exact h.le, ?_⟩
  · rw [hsize]
    rcases mem_queue_grow.mp hi with hi | rfl
    · exact h.queued i hi
    · exact hlt
  · rw [hsize, ← h.unexplored, Exploration.grow]
    split
    · rfl
    · rename_i hid
      have hexplored : ¬ m ≤ id := fun hle => hid (h.mem_queue hle hlt)
      simp [List.filter_append, hexplored]

theorem Frontier.discover {m : Nat} {e : Exploration} (h : g.Frontier m e) (T : ItemSet) :
    g.Frontier m (e.discover (g.kernel T) T) := by
  have hsize : (e.discover (g.kernel T) T).collection.states.size = e.collection.states.size + 1 :=
    Array.size_push _
  have hle := h.le
  refine ⟨?_, fun i hi => ?_, by rw [hsize]; omega, ?_⟩
  · simp [Exploration.discover, Grammar.kernels, Collection.addState, h.kernels]
  · rw [hsize]
    rcases List.mem_append.mp hi with hi | hi
    · exact Nat.lt_succ_of_lt (h.queued i hi)
    · rw [List.mem_singleton.mp hi]
      exact Nat.lt_succ_self _
  · have hlast : m + (e.collection.states.size - m) = e.collection.states.size := Nat.add_sub_cancel' hle
    rw [hsize, Nat.succ_sub hle, List.range'_1_concat, hlast, ← h.unexplored, Exploration.discover, List.filter_append]
    simp [hle]

/-- Taking the first state out of the queue: it is the next one in the order of discovery, or was explored before. -/
theorem Frontier.pop {m : Nat} {e : Exploration} {current : Nat} {queue : List StateId} (h : g.Frontier m e)
    (hqueue : e.queue = current :: queue) : (current < m ∧ g.Frontier m { e with queue }) ∨
      (current = m ∧ g.Frontier (m + 1) { e with queue }) := by
  have hqueued : ∀ i ∈ queue, i < e.collection.states.size :=
    fun i hi => h.queued i (hqueue ▸ List.mem_cons_of_mem current hi)
  have hlt : current < e.collection.states.size := h.queued current (hqueue ▸ List.mem_cons_self)
  have horder := h.unexplored
  rw [hqueue, List.filter_cons] at horder
  by_cases hle : m ≤ current
  · right
    obtain ⟨n, hn⟩ : ∃ n, e.collection.states.size - m = n + 1 := ⟨e.collection.states.size - m - 1, by omega⟩
    rw [if_pos (by simpa using hle), hn, List.range'_succ, List.cons.injEq] at horder
    obtain ⟨rfl, horder⟩ := horder
    refine ⟨rfl, h.kernels, hqueued, hlt, ?_⟩
    have hn' : e.collection.states.size - (current + 1) = n := by omega
    rw [hn']
    -- none of the states left is `current` again
    calc queue.filter (current + 1 ≤ ·) = (queue.filter (current ≤ ·)).filter (current + 1 ≤ ·) := by
          rw [List.filter_filter]
          refine List.filter_congr fun i _ => ?_
          simp only [← Bool.decide_and, decide_eq_decide]
          omega
      _ = List.range' (current + 1) n := by
          rw [horder]
          exact List.filter_eq_self.mpr fun i hi => by simpa using (List.mem_range'_1.mp hi).1
  · left
    rw [if_neg (by simpa using hle)] at horder
    exact ⟨Nat.lt_of_not_le hle, h.kernels, hqueued, h.le, horder⟩

/-! ## Counting items -/

/-- The number of items in all states. -/
def weight (c : Collection) : Nat := (c.states.toList.map OrderedSet.size).sum

theorem weight_addState (c : Collection) (T : ItemSet) : weight (c.addState T) = weight c + T.size := by
  simp [weight, Collection.addState]

/-- A set with more items than another one is longer. -/
theorem size_lt_of_subset {S T : ItemSet} (hsub : ∀ x ∈ S, x ∈ T) (hne : T ≠ S) : S.size < T.size := by
  have hlt : S.toList.toFinset ⊂ T.toList.toFinset := by
    refine Finset.ssubset_iff_subset_ne.mpr ⟨fun x hx => ?_, fun heq => hne (OrderedSet.ext fun x => ?_)⟩
    · exact List.mem_toFinset.mpr (hsub x (List.mem_toFinset.mp hx))
    · rw [OrderedSet.mem_def, OrderedSet.mem_def, ← List.mem_toFinset, ← heq, List.mem_toFinset]
  calc S.size = S.toList.toFinset.card := size_eq_card S
    _ < T.toList.toFinset.card := Finset.card_lt_card hlt
    _ = T.size := (size_eq_card T).symm

theorem weight_set_lt {c : Collection} {id : StateId} {T U : ItemSet} (hT : c.states[id]? = some T)
    (hlt : T.size < U.size) : weight c < weight { c with states := c.states.setIfInBounds id U } := by
  have key : ∀ (l : List ItemSet) (i : Nat), l[i]? = some T →
      (l.map OrderedSet.size).sum < ((l.set i U).map OrderedSet.size).sum := by
    intro l
    induction l with
    | nil => simp
    | cons S l ih =>
      intro i hi
      cases i with
      | zero =>
        cases hi
        simpa using hlt
      | succ i => simpa using ih i hi
  rw [weight, weight, Array.toList_setIfInBounds]
  exact key _ _ (Array.getElem?_toList ▸ hT)

/-- The states have distinct kernels, so there are no more of them than sets of items. -/
theorem Unioned.weight_le (wf : g.WellFormed) {c : Collection} (h : g.Unioned c) :
    weight c ≤ 2 ^ g.itemCount * g.itemCount := by
  have hmem : ∀ S ∈ c.states.toList, ∀ i ∈ S, g.ValidItem i := by
    intro S hS
    obtain ⟨i, hi⟩ := List.mem_iff_getElem?.mp hS
    exact ((h.joined (Array.getElem?_toList ▸ hi)).isState wf).valid
  have hlen : c.states.toList.length ≤ 2 ^ g.itemCount := wf.length_le_of_valid (List.Nodup.of_map _ h.distinct) hmem
  have hsize : ∀ n ∈ c.states.toList.map OrderedSet.size, n ≤ g.itemCount := by
    intro n hn
    obtain ⟨S, hS, rfl⟩ := List.mem_map.mp hn
    exact wf.size_le (hmem S hS)
  calc weight c ≤ (c.states.toList.map OrderedSet.size).length • g.itemCount := List.sum_le_card_nsmul _ _ hsize
    _ = c.states.toList.length * g.itemCount := by rw [List.length_map, smul_eq_mul]
    _ ≤ 2 ^ g.itemCount * g.itemCount := Nat.mul_le_mul_right _ hlen

/-! ## One symbol -/

/-- Following a symbol enters the state with the kernel of GOTO: as it is, after it has grown, or as a new one. -/
theorem WellFormed.followUnioned_cases (wf : g.WellFormed) {source : StateId} {set : ItemSet} {symbol : SymbolId}
    {e : Exploration} (hkernels : e.kernels.toList = g.kernels e.collection) (hsymbol : symbol ∈ g.nextSymbols set) :
    (∃ id T, e.collection.states[id]? = some T ∧ g.kernel T = g.kernel (g.gotoNext set symbol) ∧
      (∀ x ∈ g.gotoNext set symbol, x ∈ T) ∧ g.followUnioned source set e symbol = e.connect source symbol id) ∨
    (∃ id T, e.collection.states[id]? = some T ∧ g.kernel T = g.kernel (g.gotoNext set symbol) ∧
      T ∪ g.gotoNext set symbol ≠ T ∧ g.followUnioned source set e symbol =
        (e.grow id (T ∪ g.gotoNext set symbol)).connect source symbol id) ∨
    (g.kernel (g.gotoNext set symbol) ∉ g.kernels e.collection ∧ g.followUnioned source set e symbol =
      (e.discover (g.kernel (g.gotoNext set symbol)) (g.gotoNext set symbol)).connect source symbol
        e.collection.states.size) := by
  rw [followUnioned]
  simp only [wf.gotoNext_nonempty hsymbol, Bool.false_eq_true, if_false]
  cases hfind : e.kernels.findIdx? (· = g.kernel (g.gotoNext set symbol)) with
  | some id =>
    obtain ⟨hlt, heq, -⟩ := Array.findIdx?_eq_some_iff_getElem.mp hfind
    have hkernel : (g.kernels e.collection)[id]? = some (g.kernel (g.gotoNext set symbol)) := by
      rw [← hkernels, Array.getElem?_toList, Array.getElem?_eq_getElem hlt]
      simpa using heq
    obtain ⟨T, hT, hker⟩ : ∃ T, e.collection.states[id]? = some T ∧ g.kernel T = g.kernel (g.gotoNext set symbol) := by
      simpa [kernels] using hkernel
    have hitems : e.collection.itemsAt id = T := by
      rw [Collection.itemsAt, Array.getD_eq_getD_getElem?, hT, Option.getD_some]
    simp only [hitems]
    split
    · rename_i hjoined
      refine Or.inl ⟨id, T, hT, hker, fun x hx => ?_, rfl⟩
      rw [← hjoined]
      exact OrderedSet.mem_union.mpr (Or.inr hx)
    · rename_i hjoined
      exact Or.inr (Or.inl ⟨id, T, hT, hker, hjoined, rfl⟩)
  | none =>
    refine Or.inr (Or.inr ⟨fun hmem => ?_, rfl⟩)
    rw [← hkernels, Array.mem_toList_iff] at hmem
    simpa using Array.findIdx?_eq_none_iff.mp hfind _ hmem

/-- A state is being explored, and the first `m` states were explored before. -/
structure Exploring (g : Grammar) (m : Nat) (source : StateId) (set : ItemSet) (followed : List SymbolId)
    (e : Exploration) : Prop where
  unioned : g.Unioned e.collection
  pending : g.Pending source set followed e
  frontier : g.Frontier m e

theorem Exploring.connect (wf : g.WellFormed) {m : Nat} {source : StateId} {set : ItemSet} {followed : List SymbolId}
    {e : Exploration} (h : g.Exploring m source set followed e) (hset : g.IsState set) {symbol : SymbolId}
    (hsymbol : symbol ∈ g.nextSymbols set) {t : StateId} {T : ItemSet} (hT : e.collection.states[t]? = some T)
    (hker : g.kernel T = g.kernel (g.gotoNext set symbol)) (hsub : ∀ x ∈ g.gotoNext set symbol, x ∈ T) :
    g.Exploring m source set (followed ++ [symbol]) (e.connect source symbol t) := by
  obtain ⟨S, hS, hkerS⟩ := h.pending.state
  have hstate := (h.unioned.joined hS).isState wf
  have hlt : source < e.collection.transitions.size := by
    rw [h.unioned.size_transitions]
    exact (Array.getElem?_eq_some_iff.mp hS).1
  refine ⟨h.unioned.addTransition hS hT ?_ ?_, h.pending.connect hlt hT hsub, h.frontier.connect _ _ _⟩
  · rw [hstate.nextSymbols_eq wf hset hkerS]
    exact hsymbol
  · rw [hker, hstate.kernel_gotoNext_eq wf hset hkerS symbol]

theorem Exploring.grow (wf : g.WellFormed) {m : Nat} {source : StateId} {set : ItemSet} {followed : List SymbolId}
    {e : Exploration} (h : g.Exploring m source set followed e) {id : StateId} {T U : ItemSet}
    (hT : e.collection.states[id]? = some T) (hU : g.Joined (g.kernel T) U) (hsub : ∀ x ∈ T, x ∈ U) :
    g.Exploring m source set followed (e.grow id U) :=
  ⟨h.unioned.set wf hT hU hsub, h.pending.grow hT hU.kernel_eq hsub, h.frontier.grow hT hU.kernel_eq⟩

theorem Exploring.discover (wf : g.WellFormed) {m : Nat} {source : StateId} {set : ItemSet} {followed : List SymbolId}
    {e : Exploration} (h : g.Exploring m source set followed e) {T : ItemSet} (hT : g.Joined (g.kernel T) T)
    (hnew : g.kernel T ∉ g.kernels e.collection) : g.Exploring m source set followed (e.discover (g.kernel T) T) :=
  ⟨h.unioned.addState wf hT hnew, h.pending.discover _ _, h.frontier.discover _⟩

theorem length_queue_grow_le (e : Exploration) (id : StateId) (set : ItemSet) :
    (e.grow id set).queue.length ≤ e.queue.length + 1 := by
  rw [Exploration.grow]
  split <;> simp

/-- Following one symbol finds the kernel it leads to, and queues a state only when it adds an item. -/
theorem Exploring.follow (wf : g.WellFormed) {m : Nat} {source : StateId} {set : ItemSet} {followed : List SymbolId}
    {e : Exploration} (h : g.Exploring m source set followed e) (hset : g.Joined (g.kernel set) set)
    {symbol : SymbolId} (hsymbol : symbol ∈ g.nextSymbols set) :
    g.Exploring m source set (followed ++ [symbol]) (g.followUnioned source set e symbol) ∧
      g.kernels (g.followUnioned source set e symbol).collection =
        addNew (g.kernels e.collection) (g.kernel (g.gotoNext set symbol)) ∧
      (g.followUnioned source set e symbol).queue.length + weight e.collection ≤
        e.queue.length + weight (g.followUnioned source set e symbol).collection := by
  have hstate := hset.isState wf
  have hgoto := hset.gotoNext wf hsymbol
  have hknown : ∀ {id : StateId} {T : ItemSet}, e.collection.states[id]? = some T →
      g.kernel T = g.kernel (g.gotoNext set symbol) →
      addNew (g.kernels e.collection) (g.kernel (g.gotoNext set symbol)) = g.kernels e.collection := by
    intro id T hT hker
    refine addNew_of_mem (List.mem_map.mpr ⟨T, ?_, hker⟩)
    exact Array.mem_toList_iff.mpr (Array.mem_of_getElem? hT)
  rcases wf.followUnioned_cases h.frontier.kernels hsymbol with
    ⟨id, T, hT, hker, hsub, heq⟩ | ⟨id, T, hT, hker, hne, heq⟩ | ⟨hnew, heq⟩
  · rw [heq, hknown hT hker]
    exact ⟨h.connect wf hstate hsymbol hT hker hsub, rfl, Nat.le_refl _⟩
  · rw [heq, hknown hT hker]
    set U := T ∪ g.gotoNext set symbol with hUdef
    have hU : g.Joined (g.kernel T) U := (h.unioned.joined hT).union (hker ▸ hgoto)
    have hsub : ∀ x ∈ T, x ∈ U := fun x hx => OrderedSet.mem_union.mpr (Or.inl hx)
    have hget : (e.grow id U).collection.states[id]? = some U := by
      simp [Exploration.grow, (Array.getElem?_eq_some_iff.mp hT).1]
    refine ⟨?_, kernels_set hT hU.kernel_eq, ?_⟩
    · exact (h.grow wf hT hU hsub).connect wf hstate hsymbol hget (hU.kernel_eq.trans hker)
        fun x hx => OrderedSet.mem_union.mpr (Or.inr hx)
    · have hweight : weight e.collection < weight (e.grow id U).collection :=
        weight_set_lt hT (size_lt_of_subset hsub hne)
      have hqueue := length_queue_grow_le e id U
      change (e.grow id U).queue.length + weight e.collection ≤ e.queue.length + weight (e.grow id U).collection
      omega
  · rw [heq]
    set T := g.gotoNext set symbol with hTdef
    have hget : (e.discover (g.kernel T) T).collection.states[e.collection.states.size]? = some T := by
      simp [Exploration.discover, Collection.addState]
    refine ⟨(h.discover wf hgoto hnew).connect wf hstate hsymbol hget rfl fun _ hx => hx, ?_, ?_⟩
    · rw [addNew, if_neg hnew]
      simp [Exploration.connect, Exploration.discover, kernels, Collection.addState]
    · have hpos : 0 < T.size := by
        have hne := wf.gotoNext_nonempty hsymbol
        rw [OrderedSet.isEmpty, List.isEmpty_eq_false_iff] at hne
        exact List.length_pos_iff.mpr hne
      have hweight := weight_addState e.collection T
      change (e.queue ++ [e.collection.states.size]).length + weight e.collection ≤
        e.queue.length + weight (e.collection.addState T)
      rw [List.length_append, List.length_singleton]
      omega

/-! ## One state -/

/-- Following a list of symbols out of a state. -/
theorem Exploring.follow_all (wf : g.WellFormed) {m : Nat} {source : StateId} {set : ItemSet}
    (hset : g.Joined (g.kernel set) set) : ∀ (symbols followed : List SymbolId) (e : Exploration),
      g.Exploring m source set followed e → (∀ symbol ∈ symbols, symbol ∈ g.nextSymbols set) →
      g.Exploring m source set (followed ++ symbols) (symbols.foldl (g.followUnioned source set) e) ∧
        g.kernels (symbols.foldl (g.followUnioned source set) e).collection =
          (symbols.map fun symbol => g.kernel (g.gotoNext set symbol)).foldl addNew (g.kernels e.collection) ∧
        (symbols.foldl (g.followUnioned source set) e).queue.length + weight e.collection ≤
          e.queue.length + weight (symbols.foldl (g.followUnioned source set) e).collection
  | [], followed, e, h, _ => by
    rw [List.append_nil]
    exact ⟨h, rfl, Nat.le_refl _⟩
  | symbol :: symbols, followed, e, h, hsymbols => by
    obtain ⟨hfollow, hkernels, hweight⟩ := h.follow wf hset (hsymbols symbol List.mem_cons_self)
    obtain ⟨hall, hkernels', hweight'⟩ := Exploring.follow_all wf hset symbols _ _ hfollow
      fun x hx => hsymbols x (List.mem_cons_of_mem symbol hx)
    rw [List.append_assoc] at hall
    rw [hkernels] at hkernels'
    refine ⟨hall, hkernels', ?_⟩
    rw [List.foldl_cons]
    omega

/-- Between the explorations of two states: a state that is not queued leads to all of its GOTOs. -/
structure Settled (g : Grammar) (m : Nat) (e : Exploration) : Prop where
  unioned : g.Unioned e.collection
  frontier : g.Frontier m e
  discovered : g.Discovered m (g.kernels e.collection)
  covered : ∀ {i : StateId} {S : ItemSet}, e.collection.states[i]? = some S →
    i ∈ e.queue ∨ g.Covers e.collection i S (g.nextSymbols S).toList

/-- Exploring the first state of the queue. -/
theorem Settled.explore (wf : g.WellFormed) {m : Nat} {e : Exploration} {current : StateId} {queue : List StateId}
    (h : g.Settled m e) (hqueue : e.queue = current :: queue) {set : ItemSet}
    (hset : e.collection.states[current]? = some set) :
    (∃ m', g.Settled m' ((g.nextSymbols set).toList.foldl (g.followUnioned current set) { e with queue })) ∧
      ((g.nextSymbols set).toList.foldl (g.followUnioned current set) { e with queue }).queue.length +
          weight e.collection ≤
        queue.length +
          weight ((g.nextSymbols set).toList.foldl (g.followUnioned current set) { e with queue }).collection := by
  have hjoined := h.unioned.joined hset
  have hstate := hjoined.isState wf
  have hkernel : (g.kernels e.collection)[current]? = some (g.kernel set) := by simp [kernels, hset]
  -- the state that was taken out has no followed symbols yet
  have hpending : g.Pending current set [] { e with queue } := by
    refine ⟨⟨set, hset, rfl⟩, Or.inr hset, fun _ hx => absurd hx List.not_mem_nil, fun {i S} hS hne => ?_⟩
    refine (h.covered hS).imp (fun hi => ?_) fun hcovers => hcovers
    rw [hqueue] at hi
    exact (List.mem_cons.mp hi).resolve_left hne
  obtain ⟨m', hfrontier, hdiscovered⟩ : ∃ m', g.Frontier m' { e with queue } ∧
      g.Discovered m' ((g.targets set).foldl addNew (g.kernels e.collection)) := by
    rcases h.frontier.pop hqueue with ⟨hlt, hfrontier⟩ | ⟨rfl, hfrontier⟩
    · refine ⟨m, hfrontier, ?_⟩
      rw [foldl_addNew_of_subset (h.discovered.targets_subset wf hlt hstate hkernel)]
      exact h.discovered
    · exact ⟨current + 1, hfrontier, h.discovered.explore hstate hkernel⟩
  have hexploring : g.Exploring m' current set [] { e with queue } := ⟨h.unioned, hpending, hfrontier⟩
  obtain ⟨hall, hkernels, hweight⟩ := hexploring.follow_all wf hjoined (g.nextSymbols set).toList [] _ fun _ hx => hx
  refine ⟨⟨m', hall.unioned, hall.frontier, hkernels ▸ hdiscovered, fun {i S} hS => ?_⟩, hweight⟩
  by_cases hi : i = current
  · subst hi
    rcases hall.pending.unchanged with hi | hi
    · exact Or.inl hi
    · cases hS.symm.trans hi
      exact Or.inr hall.pending.covers
  · exact hall.pending.others hS hi

/-! ## The whole run -/

/-- One round of the exploration: the first state of the queue is explored, if there is one. -/
def exploreQueued (g : Grammar) (e : Exploration) : Option Exploration :=
  match e.queue with
  | [] => none
  | current :: queue =>
    let set := e.collection.itemsAt current
    some ((g.nextSymbols set).toList.foldl (g.followUnioned current set) { e with queue })

/-- The rounds end: the queue runs empty. -/
theorem WellFormed.exploreUnioned (wf : g.WellFormed) : ∀ (fuel m : Nat) (e : Exploration), g.Settled m e →
    e.queue.length + 2 ^ g.itemCount * g.itemCount ≤ fuel + weight e.collection →
    ∃ m' e', e' ∈ StateTransition.eval g.exploreQueued e ∧ g.Settled m' e' ∧ e'.queue = [] ∧
      g.exploreUnioned fuel e = e'.collection
  | 0, m, e, h, hfuel => by
    have hweight := h.unioned.weight_le wf
    have hqueue : e.queue = [] := by
      rw [← List.length_eq_zero_iff]
      omega
    exact ⟨m, e, StateTransition.mem_eval.mpr ⟨.refl, by rw [exploreQueued, hqueue]⟩, h, hqueue, rfl⟩
  | fuel + 1, m, e, h, hfuel => by
    rw [Grammar.exploreUnioned]
    cases hqueue : e.queue with
    | nil => exact ⟨m, e, StateTransition.mem_eval.mpr ⟨.refl, by rw [exploreQueued, hqueue]⟩, h, hqueue, rfl⟩
    | cons current queue =>
      have hlt := h.frontier.queued current (hqueue ▸ List.mem_cons_self)
      have hitems : e.collection.states[current]? = some (e.collection.itemsAt current) := by
        simp [Collection.itemsAt, Array.getD_eq_getD_getElem?, hlt]
      obtain ⟨⟨m', hsettled⟩, hweight⟩ := h.explore wf hqueue hitems
      rw [StateTransition.reaches_eval (.single (show g.exploreQueued e = some _ by rw [exploreQueued, hqueue]))]
      refine WellFormed.exploreUnioned wf fuel m' _ hsettled ?_
      rw [hqueue, List.length_cons] at hfuel
      omega

/-- What an exploration starts with: the initial set is queued. -/
def Exploration.start (g : Grammar) : Exploration :=
  ⟨Collection.addState {} g.initialItemSet, #[g.kernel g.initialItemSet], [0]⟩

theorem settled_start : g.Settled 0 (.start g) := by
  refine ⟨⟨⟨rfl, ⟨_, rfl, rfl, fun _ hx => hx⟩, ?_, fun ht => ?_⟩, List.nodup_singleton _⟩,
    ⟨rfl, ?_, Nat.zero_le _, rfl⟩, Discovered.start, ?_⟩
  · intro i S hS
    exact (canonical_start.reached hS).joined
  · rw [Exploration.start, Collection.target?_addState] at ht
    cases ht
  · intro i hi
    rw [List.mem_singleton.mp hi]
    exact Nat.zero_lt_one
  · intro i S hS
    left
    rcases Builder.getElem?_push_cases hS with h | ⟨rfl, -⟩
    · simp at h
    · exact List.mem_singleton.mpr rfl

theorem WellFormed.unioned_settled (wf : g.WellFormed) :
    ∃ m e, e ∈ StateTransition.eval g.exploreQueued (.start g) ∧ g.Settled m e ∧ e.queue = [] ∧
      g.unionedItemSets = e.collection := by
  refine wf.exploreUnioned _ 0 _ settled_start ?_
  have hle : 2 ^ g.itemCount * g.itemCount ≤ 4 ^ g.itemCount := by
    calc 2 ^ g.itemCount * g.itemCount ≤ 2 ^ g.itemCount * 2 ^ g.itemCount :=
        Nat.mul_le_mul_left _ Nat.lt_two_pow_self.le
      _ = 4 ^ g.itemCount := by rw [← Nat.mul_pow]
  have hpos : 0 < 4 ^ g.itemCount := Nat.pow_pos (by omega)
  have hbound : g.explorationBound = 4 ^ g.itemCount * 4 := Nat.pow_succ _ _
  rw [Exploration.start, List.length_singleton]
  omega

/-- **Merging while exploring makes an automaton.** -/
theorem WellFormed.automaton_unioned (wf : g.WellFormed) : g.Automaton g.unionedItemSets := by
  obtain ⟨m, e, -, h, hqueue, heq⟩ := wf.unioned_settled
  rw [heq]
  refine ⟨h.unioned.toPartialAutomaton, fun {i S symbol} hS hx => ?_⟩
  rcases h.covered hS with hi | hcovers
  · rw [hqueue] at hi
    exact absurd hi List.not_mem_nil
  · exact hcovers symbol hx

/-- **Merging while exploring finds kernels in the order of discovery.** -/
theorem WellFormed.discovered_unioned (wf : g.WellFormed) :
    g.Discovered (g.kernels g.unionedItemSets).length (g.kernels g.unionedItemSets) := by
  obtain ⟨m, e, -, h, hqueue, heq⟩ := wf.unioned_settled
  -- an empty queue leaves no state unexplored
  have hrange := h.frontier.unexplored
  rw [hqueue, List.filter_nil, eq_comm, List.range'_eq_nil_iff] at hrange
  have hm : m = (g.kernels e.collection).length := by
    have hle := h.frontier.le
    rw [kernels, List.length_map, Array.length_toList]
    omega
  rw [heq, ← hm]
  exact h.discovered

end ShaderFront.Grammar
