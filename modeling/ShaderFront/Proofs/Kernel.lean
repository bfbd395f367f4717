import Mathlib
import ShaderFront.Automaton.States
import ShaderFront.Proofs.Closure

/-!
# Kernels determine cores

The items that can occur in a state are valid: a dot inside the body of a production, and a lookahead that is a terminal
other than the empty symbol. For valid items the cores of the demanded items do not depend on the lookahead
(`Grammar.WellFormed.exists_demands`), so two states with the same kernel have the same cores
(`Grammar.IsState.coresIn`), the same symbols after a dot, and over each symbol they lead to sets with the same kernel.

* `Grammar.Reached`: the item sets of the exact LR(1) collection;
* `Grammar.Joined`: unions of reached sets with one kernel, the states of the merging constructions;
* `Grammar.WellFormed.length_le_of_valid`: there are at most `2 ^ itemCount` sets of valid items.
-/

namespace ShaderFront.Grammar

variable {g : Grammar}

/-! ## Valid items -/

/-- An item that can occur in a state. -/
structure ValidItem (g : Grammar) (i : Item) : Prop where
  production : ∃ p, g.production? i.production = some p ∧ i.dot ≤ p.body.length
  lookahead : g.isTerminal i.lookahead = true
  nonempty : i.lookahead ≠ g.empty

theorem WellFormed.validItem_of_demands (wf : g.WellFormed) {i j : Item} (h : g.Demands i j) : g.ValidItem j := by
  obtain ⟨p, symbol, s, -, -, hs, -, hq, hdot, ha⟩ := mem_demanded.mp h
  obtain ⟨q, hq, -⟩ := (wf.alternatives hs j.production).mp hq
  obtain ⟨hfirst, hne⟩ := mem_followers.mp ha
  exact ⟨⟨q, hq, by omega⟩, wf.isTerminal_of_mem_first hfirst, hne⟩

theorem WellFormed.validItem_of_yields (wf : g.WellFormed) {i j : Item} (hi : g.ValidItem i) (h : g.Yields i j) :
    g.ValidItem j := by
  cases h with
  | refl => exact hi
  | tail _ hstep => exact wf.validItem_of_demands hstep

/-- The symbol after the dot of an item. -/
theorem nextSymbol_eq_some {i : Item} {symbol : SymbolId} : g.nextSymbol i = some symbol ↔
    ∃ p, g.production? i.production = some p ∧ p.body[i.dot]? = some symbol :=
  Option.bind_eq_some_iff

theorem ValidItem.advanced {i : Item} (h : g.ValidItem i) {symbol : SymbolId} (hnext : g.nextSymbol i = some symbol) :
    g.ValidItem i.advanced := by
  obtain ⟨p, hp, hdot⟩ := nextSymbol_eq_some.mp hnext
  have hlt := (List.getElem?_eq_some_iff.mp hdot).1
  exact ⟨⟨p, hp, hlt⟩, h.lookahead, h.nonempty⟩

theorem WellFormed.validItem_initial (wf : g.WellFormed) {id : ProductionId} {p : Production}
    (hp : g.production? id = some p) : g.ValidItem ⟨id, 0, g.endOfInput⟩ :=
  ⟨⟨p, hp, Nat.zero_le _⟩, wf.endOfInput, wf.endOfInput_ne_empty⟩

/-! ## Cores -/

theorem core_eq_iff {i j : Item} : i.core = j.core ↔ i.production = j.production ∧ i.dot = j.dot := by
  simp [Item.core]

theorem nextSymbol_congr {i j : Item} (h : i.core = j.core) : g.nextSymbol i = g.nextSymbol j := by
  obtain ⟨hp, hd⟩ := core_eq_iff.mp h
  rw [nextSymbol, nextSymbol, hp, hd]

theorem isKernelItem_congr {i j : Item} (h : i.core = j.core) : g.isKernelItem i = g.isKernelItem j := by
  obtain ⟨hp, hd⟩ := core_eq_iff.mp h
  rw [isKernelItem, isKernelItem, hp, hd]

/-- An item with another valid lookahead demands items with the same cores. -/
theorem WellFormed.exists_demands (wf : g.WellFormed) {i i' j : Item} (hcore : i'.core = i.core)
    (hi' : g.ValidItem i') (h : g.Demands i j) : ∃ j', g.Demands i' j' ∧ j'.core = j.core := by
  obtain ⟨hprod, hdot⟩ := core_eq_iff.mp hcore
  obtain ⟨p, symbol, s, hp, hsymbol, hs, hterm, hq, hzero, ha⟩ := mem_demanded.mp h
  obtain ⟨hfirst, hne⟩ := mem_followers.mp ha
  -- either the symbols after the next one begin with the lookahead, or they can be empty
  have hfollow : ∃ b, b ∈ g.followers p i' := by
    rcases (mem_first_append _ _).mp hfirst with ⟨hrest, -⟩ | ⟨hempty, -⟩
    · refine ⟨j.lookahead, mem_followers.mpr ⟨(mem_first_append _ _).mpr (Or.inl ⟨?_, hne⟩), hne⟩⟩
      rw [hdot]
      exact hrest
    · refine ⟨i'.lookahead, mem_followers.mpr ⟨(mem_first_append _ _).mpr (Or.inr ⟨?_, ?_⟩), hi'.nonempty⟩⟩
      · rw [hdot]
        exact hempty
      · exact mem_first_singleton (wf.firstSets_terminal hi'.lookahead)
  obtain ⟨b, hb⟩ := hfollow
  refine ⟨⟨j.production, 0, b⟩, ?_, core_eq_iff.mpr ⟨rfl, hzero.symm⟩⟩
  exact mem_demanded.mpr ⟨p, symbol, s, by rw [hprod]; exact hp, by rw [hdot]; exact hsymbol, hs, hterm, hq, rfl, hb⟩

theorem WellFormed.exists_yields (wf : g.WellFormed) {i i' j : Item} (hcore : i'.core = i.core)
    (hi' : g.ValidItem i') (h : g.Yields i j) : ∃ j', g.Yields i' j' ∧ j'.core = j.core := by
  induction h with
  | refl => exact ⟨i', Yields.refl i', hcore⟩
  | tail _ hstep ih =>
    obtain ⟨k, hk, hkcore⟩ := ih
    obtain ⟨j', hj', hjcore⟩ := wf.exists_demands hkcore (wf.validItem_of_yields hi' hk) hstep
    exact ⟨j', hk.tail hj', hjcore⟩

/-- Every core of the first set is a core of the second one. -/
def CoresIn (S T : ItemSet) : Prop := ∀ i ∈ S, ∃ j ∈ T, j.core = i.core

theorem mem_kernel {set : ItemSet} {c : Core} : c ∈ g.kernel set ↔ ∃ i ∈ set, g.isKernelItem i = true ∧ i.core = c := by
  rw [kernel, ItemSet.coresWhere, OrderedSet.mem_ofList, List.mem_map]
  refine exists_congr fun i => ?_
  rw [List.mem_filter, OrderedSet.mem_def, and_assoc]

theorem mem_nextSymbols {set : ItemSet} {symbol : SymbolId} :
    symbol ∈ g.nextSymbols set ↔ ∃ i ∈ set, g.nextSymbol i = some symbol := by
  rw [nextSymbols, OrderedSet.mem_ofList, List.mem_filterMap]
  rfl

theorem CoresIn.kernel {S T : ItemSet} (h : CoresIn S T) {c : Core} (hc : c ∈ g.kernel S) : c ∈ g.kernel T := by
  obtain ⟨i, hi, hker, rfl⟩ := mem_kernel.mp hc
  obtain ⟨j, hj, hcore⟩ := h i hi
  exact mem_kernel.mpr ⟨j, hj, (isKernelItem_congr hcore).trans hker, hcore⟩

theorem kernel_eq_of_coresIn {S T : ItemSet} (h : CoresIn S T) (h' : CoresIn T S) : g.kernel S = g.kernel T :=
  OrderedSet.ext fun _ => ⟨h.kernel, h'.kernel⟩

theorem CoresIn.nextSymbols {S T : ItemSet} (h : CoresIn S T) {symbol : SymbolId} (hs : symbol ∈ g.nextSymbols S) :
    symbol ∈ g.nextSymbols T := by
  obtain ⟨i, hi, hnext⟩ := mem_nextSymbols.mp hs
  obtain ⟨j, hj, hcore⟩ := h i hi
  exact mem_nextSymbols.mpr ⟨j, hj, (nextSymbol_congr hcore).trans hnext⟩

theorem nextSymbols_eq_of_coresIn {S T : ItemSet} (h : CoresIn S T) (h' : CoresIn T S) :
    g.nextSymbols S = g.nextSymbols T :=
  OrderedSet.ext fun _ => ⟨h.nextSymbols, h'.nextSymbols⟩

/-- GOTO maps cores to cores. -/
theorem WellFormed.coresIn_gotoNext (wf : g.WellFormed) {S T : ItemSet} (h : CoresIn S T)
    (hT : ∀ i ∈ T, g.ValidItem i) (symbol : SymbolId) : CoresIn (g.gotoNext S symbol) (g.gotoNext T symbol) := by
  intro x hx
  obtain ⟨i, hi, hnext, hyields⟩ := wf.mem_gotoNext.mp hx
  obtain ⟨j, hj, hcore⟩ := h i hi
  have hnext' : g.nextSymbol j = some symbol := (nextSymbol_congr hcore).trans hnext
  have hadv : j.advanced.core = i.advanced.core := by
    obtain ⟨hp, hd⟩ := core_eq_iff.mp hcore
    exact core_eq_iff.mpr ⟨hp, congrArg (· + 1) hd⟩
  obtain ⟨y, hy, hycore⟩ := wf.exists_yields hadv ((hT j hj).advanced hnext') hyields
  exact ⟨y, wf.mem_gotoNext.mpr ⟨j, hj, hnext', hy⟩, hycore⟩

/-! ## States -/

/-- A closed set of valid items that its kernel items yield. -/
structure IsState (g : Grammar) (S : ItemSet) : Prop where
  valid : ∀ i ∈ S, g.ValidItem i
  closed : ∀ i ∈ S, ∀ j, g.Demands i j → j ∈ S
  generated : ∀ i ∈ S, ∃ k ∈ S, g.isKernelItem k = true ∧ g.Yields k i

theorem IsState.yields {S : ItemSet} (h : g.IsState S) {i j : Item} (hi : i ∈ S) (hij : g.Yields i j) : j ∈ S := by
  induction hij with
  | refl => exact hi
  | tail _ hstep ih => exact h.closed _ ih _ hstep

/-- **Kernels determine cores.** -/
theorem IsState.coresIn (wf : g.WellFormed) {S T : ItemSet} (hS : g.IsState S) (hT : g.IsState T)
    (h : g.kernel S = g.kernel T) : CoresIn S T := by
  intro i hi
  obtain ⟨k, hk, hker, hyields⟩ := hS.generated i hi
  have hmem : k.core ∈ g.kernel T := by
    rw [← h]
    exact mem_kernel.mpr ⟨k, hk, hker, rfl⟩
  obtain ⟨k', hk', -, hcore⟩ := mem_kernel.mp hmem
  obtain ⟨j, hj, hjcore⟩ := wf.exists_yields hcore (hT.valid k' hk') hyields
  exact ⟨j, hT.yields hk' hj, hjcore⟩

theorem IsState.nextSymbols_eq (wf : g.WellFormed) {S T : ItemSet} (hS : g.IsState S) (hT : g.IsState T)
    (h : g.kernel S = g.kernel T) : g.nextSymbols S = g.nextSymbols T :=
  nextSymbols_eq_of_coresIn (hS.coresIn wf hT h) (hT.coresIn wf hS h.symm)

theorem IsState.kernel_gotoNext_eq (wf : g.WellFormed) {S T : ItemSet} (hS : g.IsState S) (hT : g.IsState T)
    (h : g.kernel S = g.kernel T) (symbol : SymbolId) :
    g.kernel (g.gotoNext S symbol) = g.kernel (g.gotoNext T symbol) :=
  kernel_eq_of_coresIn (wf.coresIn_gotoNext (hS.coresIn wf hT h) hT.valid symbol)
    (wf.coresIn_gotoNext (hT.coresIn wf hS h.symm) hS.valid symbol)

theorem isKernelItem_advanced (i : Item) : g.isKernelItem i.advanced = true := by
  simp [isKernelItem, Item.advanced]

theorem WellFormed.isState_initial (wf : g.WellFormed) : g.IsState g.initialItemSet := by
  refine ⟨?_, ?_, ?_⟩
  · intro i hi
    obtain ⟨id, p, hp, -, hyields⟩ := wf.mem_initialItemSet.mp hi
    exact wf.validItem_of_yields (wf.validItem_initial hp) hyields
  · intro i hi j hij
    obtain ⟨id, p, hp, hhead, hyields⟩ := wf.mem_initialItemSet.mp hi
    exact wf.mem_initialItemSet.mpr ⟨id, p, hp, hhead, hyields.tail hij⟩
  · intro i hi
    obtain ⟨id, p, hp, hhead, hyields⟩ := wf.mem_initialItemSet.mp hi
    refine ⟨⟨id, 0, g.endOfInput⟩, wf.mem_initialItemSet.mpr ⟨id, p, hp, hhead, Yields.refl _⟩, ?_, hyields⟩
    simp [isKernelItem, hp, hhead]

theorem IsState.gotoNext (wf : g.WellFormed) {S : ItemSet} (h : g.IsState S) (symbol : SymbolId) :
    g.IsState (g.gotoNext S symbol) := by
  refine ⟨?_, ?_, ?_⟩
  · intro x hx
    obtain ⟨i, hi, hnext, hyields⟩ := wf.mem_gotoNext.mp hx
    exact wf.validItem_of_yields ((h.valid i hi).advanced hnext) hyields
  · intro x hx y hxy
    obtain ⟨i, hi, hnext, hyields⟩ := wf.mem_gotoNext.mp hx
    exact wf.mem_gotoNext.mpr ⟨i, hi, hnext, hyields.tail hxy⟩
  · intro x hx
    obtain ⟨i, hi, hnext, hyields⟩ := wf.mem_gotoNext.mp hx
    exact ⟨i.advanced, wf.mem_gotoNext.mpr ⟨i, hi, hnext, Yields.refl _⟩, isKernelItem_advanced i, hyields⟩

/-! ## Reached sets and their unions -/

/-- The item sets of the exact LR(1) collection. -/
inductive Reached (g : Grammar) : ItemSet → Prop
  | initial : Reached g g.initialItemSet
  | goto {S : ItemSet} {symbol : SymbolId} :
      Reached g S → symbol ∈ g.nextSymbols S → Reached g (g.gotoNext S symbol)

theorem Reached.isState (wf : g.WellFormed) {S : ItemSet} (h : g.Reached S) : g.IsState S := by
  induction h with
  | initial => exact wf.isState_initial
  | goto _ _ ih => exact ih.gotoNext wf _

/-- A union of reached sets that all have the same kernel. -/
structure Joined (g : Grammar) (K : Kernel) (S : ItemSet) : Prop where
  part : ∃ R, g.Reached R ∧ g.kernel R = K ∧ ∀ i ∈ R, i ∈ S
  cover : ∀ i ∈ S, ∃ R, g.Reached R ∧ g.kernel R = K ∧ (∀ j ∈ R, j ∈ S) ∧ i ∈ R

theorem Reached.joined {S : ItemSet} (h : g.Reached S) : g.Joined (g.kernel S) S :=
  ⟨⟨S, h, rfl, fun _ hi => hi⟩, fun _ hi => ⟨S, h, rfl, fun _ hj => hj, hi⟩⟩

theorem Joined.union {K : Kernel} {S T : ItemSet} (hS : g.Joined K S) (hT : g.Joined K T) : g.Joined K (S ∪ T) := by
  constructor
  · obtain ⟨R, hR, hK, hsub⟩ := hS.part
    exact ⟨R, hR, hK, fun i hi => OrderedSet.mem_union.mpr (Or.inl (hsub i hi))⟩
  · intro i hi
    rcases OrderedSet.mem_union.mp hi with hi | hi
    · obtain ⟨R, hR, hK, hsub, hmem⟩ := hS.cover i hi
      exact ⟨R, hR, hK, fun j hj => OrderedSet.mem_union.mpr (Or.inl (hsub j hj)), hmem⟩
    · obtain ⟨R, hR, hK, hsub, hmem⟩ := hT.cover i hi
      exact ⟨R, hR, hK, fun j hj => OrderedSet.mem_union.mpr (Or.inr (hsub j hj)), hmem⟩

theorem Joined.isState (wf : g.WellFormed) {K : Kernel} {S : ItemSet} (h : g.Joined K S) : g.IsState S := by
  refine ⟨?_, ?_, ?_⟩
  · intro i hi
    obtain ⟨R, hR, -, -, hmem⟩ := h.cover i hi
    exact (hR.isState wf).valid i hmem
  · intro i hi j hij
    obtain ⟨R, hR, -, hsub, hmem⟩ := h.cover i hi
    exact hsub j ((hR.isState wf).closed i hmem j hij)
  · intro i hi
    obtain ⟨R, hR, -, hsub, hmem⟩ := h.cover i hi
    obtain ⟨k, hk, hker, hyields⟩ := (hR.isState wf).generated i hmem
    exact ⟨k, hsub k hk, hker, hyields⟩

/-- A union has the kernel of its parts. -/
theorem Joined.kernel_eq {K : Kernel} {S : ItemSet} (h : g.Joined K S) : g.kernel S = K := by
  apply OrderedSet.ext
  intro c
  constructor
  · intro hc
    obtain ⟨i, hi, hker, rfl⟩ := mem_kernel.mp hc
    obtain ⟨R, -, hK, -, hmem⟩ := h.cover i hi
    rw [← hK]
    exact mem_kernel.mpr ⟨i, hmem, hker, rfl⟩
  · intro hc
    obtain ⟨R, -, hK, hsub⟩ := h.part
    rw [← hK] at hc
    obtain ⟨i, hi, hker, rfl⟩ := mem_kernel.mp hc
    exact mem_kernel.mpr ⟨i, hsub i hi, hker, rfl⟩

theorem WellFormed.gotoNext_mono (wf : g.WellFormed) {S T : ItemSet} (h : ∀ i ∈ S, i ∈ T) (symbol : SymbolId) :
    ∀ i ∈ g.gotoNext S symbol, i ∈ g.gotoNext T symbol := by
  intro x hx
  obtain ⟨i, hi, hnext, hyields⟩ := wf.mem_gotoNext.mp hx
  exact wf.mem_gotoNext.mpr ⟨i, h i hi, hnext, hyields⟩

/-- GOTO of a union is the union of the GOTOs of its parts. -/
theorem Joined.gotoNext (wf : g.WellFormed) {K : Kernel} {S : ItemSet} (h : g.Joined K S) {symbol : SymbolId}
    (hsymbol : symbol ∈ g.nextSymbols S) : g.Joined (g.kernel (g.gotoNext S symbol)) (g.gotoNext S symbol) := by
  have part : ∀ {R : ItemSet}, g.Reached R → g.kernel R = K → (∀ i ∈ R, i ∈ S) →
      g.Reached (g.gotoNext R symbol) ∧ g.kernel (g.gotoNext R symbol) = g.kernel (g.gotoNext S symbol) ∧
        ∀ i ∈ g.gotoNext R symbol, i ∈ g.gotoNext S symbol := by
    intro R hR hK hsub
    have hker : g.kernel R = g.kernel S := hK.trans h.kernel_eq.symm
    refine ⟨hR.goto ?_, (hR.isState wf).kernel_gotoNext_eq wf (h.isState wf) hker symbol, wf.gotoNext_mono hsub symbol⟩
    rw [(hR.isState wf).nextSymbols_eq wf (h.isState wf) hker]
    exact hsymbol
  constructor
  · obtain ⟨R, hR, hK, hsub⟩ := h.part
    exact ⟨_, part hR hK hsub⟩
  · intro x hx
    obtain ⟨i, hi, hnext, hyields⟩ := wf.mem_gotoNext.mp hx
    obtain ⟨R, hR, hK, hsub, hmem⟩ := h.cover i hi
    obtain ⟨h₁, h₂, h₃⟩ := part hR hK hsub
    exact ⟨_, h₁, h₂, h₃, wf.mem_gotoNext.mpr ⟨i, hmem, hnext, hyields⟩⟩

/-- No set is empty that a symbol leads to. -/
theorem WellFormed.advanced_mem_gotoNext (wf : g.WellFormed) {S : ItemSet} {i : Item} {symbol : SymbolId} (hi : i ∈ S)
    (hnext : g.nextSymbol i = some symbol) : i.advanced ∈ g.gotoNext S symbol :=
  wf.mem_gotoNext.mpr ⟨i, hi, hnext, Yields.refl _⟩

theorem WellFormed.gotoNext_nonempty (wf : g.WellFormed) {S : ItemSet} {symbol : SymbolId}
    (h : symbol ∈ g.nextSymbols S) : (g.gotoNext S symbol).isEmpty = false := by
  obtain ⟨i, hi, hnext⟩ := mem_nextSymbols.mp h
  have hmem := OrderedSet.mem_def.mp (wf.advanced_mem_gotoNext hi hnext)
  rw [OrderedSet.isEmpty, List.isEmpty_eq_false_iff]
  exact List.ne_nil_of_mem hmem

/-- In the initial set all dots are in front. -/
theorem WellFormed.dot_of_mem_initial (wf : g.WellFormed) {i : Item} (h : i ∈ g.initialItemSet) : i.dot = 0 := by
  obtain ⟨id, p, -, -, hyields⟩ := wf.mem_initialItemSet.mp h
  rcases hyields.eq_or_dot with rfl | hdot
  · rfl
  · exact hdot

/-! ## Counting states -/

/-- All productions with a dot. -/
def allCores (g : Grammar) : List (ProductionId × Nat) :=
  g.productions.toList.flatMap fun p => (List.range (p.body.length + 1)).map fun dot => (p.id, dot)

/-- All items with a known lookahead. -/
def allItems (g : Grammar) : Finset Item :=
  (g.allCores.toFinset ×ˢ g.symbolIds).image fun ((production, dot), lookahead) => ⟨production, dot, lookahead⟩

theorem length_allCores (g : Grammar) :
    g.allCores.length = g.productions.foldl (fun n p => n + (p.body.length + 1)) 0 := by
  have sum : ∀ (l : List Production) (n : Nat), l.foldl (fun n p => n + (p.body.length + 1)) n =
      n + (l.map fun p => p.body.length + 1).sum := by
    intro l
    induction l with
    | nil => simp
    | cons p rest ih =>
      intro n
      rw [List.foldl_cons, ih, List.map_cons, List.sum_cons]
      omega
  rw [← Array.foldl_toList, sum, allCores, List.length_flatMap]
  simp

theorem card_allItems_le (g : Grammar) : g.allItems.card ≤ g.itemCount := by
  calc g.allItems.card ≤ (g.allCores.toFinset ×ˢ g.symbolIds).card := Finset.card_image_le
    _ = g.allCores.toFinset.card * g.symbolIds.card := Finset.card_product _ _
    _ ≤ g.allCores.length * g.symbols.length := Nat.mul_le_mul (List.toFinset_card_le _) g.card_symbolIds_le
    _ = g.itemCount := by rw [length_allCores, itemCount]

theorem WellFormed.mem_allItems (wf : g.WellFormed) {i : Item} (h : g.ValidItem i) : i ∈ g.allItems := by
  obtain ⟨p, hp, hdot⟩ := h.production
  refine Finset.mem_image.mpr ⟨((i.production, i.dot), i.lookahead), Finset.mem_product.mpr ⟨?_, ?_⟩, rfl⟩
  · refine List.mem_toFinset.mpr (List.mem_flatMap.mpr ⟨p, ?_, ?_⟩)
    · exact Array.mem_toList_iff.mpr (Array.mem_of_getElem? hp)
    · exact List.mem_map.mpr ⟨i.dot, List.mem_range.mpr (by omega), by rw [wf.production_id hp]⟩
  · exact wf.mem_symbolIds_of_isTerminal h.lookahead

theorem size_eq_card (S : ItemSet) : S.size = S.toList.toFinset.card :=
  (List.toFinset_card_of_nodup S.nodup_toList).symm

/-- A set of valid items has no more elements than there are items. -/
theorem WellFormed.size_le (wf : g.WellFormed) {S : ItemSet} (h : ∀ i ∈ S, g.ValidItem i) : S.size ≤ g.itemCount := by
  calc S.size = S.toList.toFinset.card := size_eq_card S
    _ ≤ g.allItems.card := Finset.card_le_card fun i hi => wf.mem_allItems (h i (List.mem_toFinset.mp hi))
    _ ≤ g.itemCount := g.card_allItems_le

/-- **There are at most `2 ^ itemCount` different sets of valid items.** -/
theorem WellFormed.length_le_of_valid (wf : g.WellFormed) {l : List ItemSet} (hl : l.Nodup)
    (h : ∀ S ∈ l, ∀ i ∈ S, g.ValidItem i) : l.length ≤ 2 ^ g.itemCount := by
  have hinj : ∀ S T : ItemSet, S.toList.toFinset = T.toList.toFinset → S = T := by
    intro S T heq
    apply OrderedSet.ext
    intro i
    rw [OrderedSet.mem_def, OrderedSet.mem_def, ← List.mem_toFinset, heq, List.mem_toFinset]
  have hsub : l.toFinset.image (fun S : ItemSet => S.toList.toFinset) ⊆ g.allItems.powerset := by
    intro s hs
    obtain ⟨S, hS, rfl⟩ := Finset.mem_image.mp hs
    exact Finset.mem_powerset.mpr fun i hi =>
      wf.mem_allItems (h S (List.mem_toFinset.mp hS) i (List.mem_toFinset.mp hi))
  calc l.length = l.toFinset.card := (List.toFinset_card_of_nodup hl).symm
    _ = (l.toFinset.image fun S : ItemSet => S.toList.toFinset).card :=
      (Finset.card_image_of_injective _ fun S T => hinj S T).symm
    _ ≤ g.allItems.powerset.card := Finset.card_le_card hsub
    _ = 2 ^ g.allItems.card := Finset.card_powerset _
    _ ≤ 2 ^ g.itemCount := Nat.pow_le_pow_right (by omega) g.card_allItems_le

end ShaderFront.Grammar
