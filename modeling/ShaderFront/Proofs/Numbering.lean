import Mathlib
import ShaderFront.Proofs.Builder

/-!
# Built grammars are well formed

Building a grammar gives every pending symbol a number of its own (`Builder.nodup_assignIds`), adds the end and the empty
symbol where they are missing (`Builder.numbered_ensureRole`) and puts each symbol into the slot of its number
(`Builder.fillSlots_eq_some`). What the rest of the theory uses of a built grammar is `Grammar.WellFormed`.

Main statement: `Grammar.wellFormed_of_build`.
-/

namespace ShaderFront

/-- What holds of every grammar that a builder gives. -/
structure Grammar.WellFormed (g : Grammar) : Prop where
  symbol_id : ∀ {id : SymbolId} {s : Symbol}, g.symbol? id = some s → s.id = id
  production_id : ∀ {id : ProductionId} {p : Production}, g.production? id = some p → p.id = id
  head : ∀ {id : ProductionId} {p : Production}, g.production? id = some p →
    ∃ s, g.symbol? p.head = some s ∧ s.isTerminal = false
  body : ∀ {id : ProductionId} {p : Production}, g.production? id = some p →
    ∀ symbol ∈ p.body, (g.symbol? symbol).isSome ∧ symbol ≠ g.empty
  alternatives : ∀ {symbol : SymbolId} {s : Symbol}, g.symbol? symbol = some s →
    ∀ id, id ∈ s.productions ↔ ∃ p, g.production? id = some p ∧ p.head = symbol
  nodup_alternatives : ∀ {symbol : SymbolId} {s : Symbol}, g.symbol? symbol = some s → s.productions.Nodup
  start : ∃ s, g.symbol? g.start = some s ∧ s.isTerminal = false
  endOfInput : g.isTerminal g.endOfInput = true
  empty : g.isTerminal g.empty = true
  endOfInput_ne_empty : g.endOfInput ≠ g.empty
  wildcard : ∀ {symbol : SymbolId}, g.wildcard = some symbol →
    g.isTerminal symbol = true ∧ symbol ≠ g.endOfInput
  firstSets : g.firstSets = computeFirstSets g.slots g.productions g.empty

namespace Builder

/-! ## Fresh numbers -/

/-- Among the first `n + 1` numbers one is not in a list of `n`. -/
theorem leastFree_not_mem (used : List SymbolId) : leastFree used ∉ used := by
  unfold leastFree
  cases hfind : (List.range (used.length + 1)).find? fun n => !used.contains n with
  | some n => simpa using List.find?_some hfind
  | none =>
    exfalso
    have hall : List.range (used.length + 1) ⊆ used := by
      intro n hn
      simpa using List.find?_eq_none.mp hfind n hn
    have hle := (List.nodup_range.subperm hall).length_le
    rw [List.length_range] at hle
    omega

/-- All numbers given and all numbers used before are used afterwards. -/
theorem subset_assignIds : ∀ (l : List PendingSymbol) (used : List SymbolId),
    l.filterMap (·.terminal) ⊆ used → used ⊆ (assignIds l used).2 ∧ (assignIds l used).1 ⊆ (assignIds l used).2
  | [], used, _ => ⟨fun _ h => h, fun _ h => absurd h List.not_mem_nil⟩
  | s :: rest, used, hused => by
    unfold assignIds
    cases hs : s.terminal with
    | some id =>
      rw [List.filterMap_cons_some hs] at hused
      obtain ⟨hid, hrest⟩ := List.cons_subset.mp hused
      obtain ⟨h₁, h₂⟩ := subset_assignIds rest used hrest
      exact ⟨h₁, List.cons_subset.mpr ⟨h₁ hid, h₂⟩⟩
    | none =>
      rw [List.filterMap_cons_none hs] at hused
      obtain ⟨h₁, h₂⟩ := subset_assignIds rest (leastFree used :: used) (fun _ h => List.mem_cons_of_mem _ (hused h))
      obtain ⟨hid, h₁⟩ := List.cons_subset.mp h₁
      exact ⟨h₁, List.cons_subset.mpr ⟨hid, h₂⟩⟩

theorem length_assignIds : ∀ (l : List PendingSymbol) (used : List SymbolId),
    (assignIds l used).1.length = l.length
  | [], _ => rfl
  | s :: rest, used => by
    unfold assignIds
    cases s.terminal with
    | some id => simp [length_assignIds rest used]
    | none => simp [length_assignIds rest]

/-- Only terminals get numbers that were used before. -/
theorem mem_assignIds_used : ∀ (l : List PendingSymbol) (used : List SymbolId) {id : SymbolId},
    id ∈ (assignIds l used).1 → id ∈ used → id ∈ l.filterMap (·.terminal)
  | [], _, _, h, _ => absurd h List.not_mem_nil
  | s :: rest, used, id, h, hused => by
    unfold assignIds at h
    cases hs : s.terminal with
    | some n =>
      rw [hs] at h
      rw [List.filterMap_cons_some hs]
      rcases List.mem_cons.mp h with rfl | h
      · exact List.mem_cons_self
      · exact List.mem_cons_of_mem _ (mem_assignIds_used rest used h hused)
    | none =>
      rw [hs] at h
      rw [List.filterMap_cons_none hs]
      rcases List.mem_cons.mp h with rfl | h
      · exact absurd hused (leastFree_not_mem used)
      · exact mem_assignIds_used rest _ h (List.mem_cons_of_mem _ hused)

/-- No number is given twice. -/
theorem nodup_assignIds : ∀ (l : List PendingSymbol) (used : List SymbolId), (l.filterMap (·.terminal)).Nodup →
    l.filterMap (·.terminal) ⊆ used → (assignIds l used).1.Nodup
  | [], _, _, _ => List.nodup_nil
  | s :: rest, used, hnodup, hused => by
    unfold assignIds
    cases hs : s.terminal with
    | some id =>
      rw [List.filterMap_cons_some hs] at hnodup hused
      obtain ⟨hid, hrest⟩ := List.cons_subset.mp hused
      obtain ⟨hnew, hnodup⟩ := List.nodup_cons.mp hnodup
      refine List.nodup_cons.mpr ⟨fun h => hnew ?_, nodup_assignIds rest used hnodup hrest⟩
      exact mem_assignIds_used rest used h hid
    | none =>
      rw [List.filterMap_cons_none hs] at hnodup hused
      have hsub : rest.filterMap (·.terminal) ⊆ leastFree used :: used := fun _ h => List.mem_cons_of_mem _ (hused h)
      refine List.nodup_cons.mpr ⟨fun h => leastFree_not_mem used ?_, nodup_assignIds rest _ hnodup hsub⟩
      exact hused (mem_assignIds_used rest _ h List.mem_cons_self)

/-! ## Symbols with roles -/

/-- Symbols with pairwise different numbers, all of them used. -/
structure Numbered (symbols : List Symbol) (used : List SymbolId) : Prop where
  nodup : (symbols.map (·.id)).Nodup
  used : ∀ s ∈ symbols, s.id ∈ used

/-- Two symbols with one number are the same. -/
theorem Numbered.eq_of_id {symbols : List Symbol} {used : List SymbolId} (h : Numbered symbols used) {s t : Symbol}
    (hs : s ∈ symbols) (ht : t ∈ symbols) (hid : s.id = t.id) : s = t :=
  List.inj_on_of_nodup_map h.nodup hs ht hid

/-- The symbol that `ensureRole` adds. -/
def roleSymbol (role : Role) (name : String) (id : SymbolId) : Symbol :=
  { id, name, role, kind := .terminal, productions := [] }

/-- Nothing is lost, and at most a terminal with the role is added. -/
theorem mem_ensureRole {role : Role} {name : String} {symbols : List Symbol} {used : List SymbolId} {s : Symbol} :
    (s ∈ symbols → s ∈ (ensureRole role name symbols used).2.1) ∧
      (s ∈ (ensureRole role name symbols used).2.1 → s ∈ symbols ∨ ∃ id, s = roleSymbol role name id) := by
  unfold ensureRole
  split
  · exact ⟨id, Or.inl⟩
  · refine ⟨List.mem_append_left _, fun h => ?_⟩
    rcases List.mem_append.mp h with h | h
    · exact Or.inl h
    · exact Or.inr ⟨_, List.mem_singleton.mp h⟩

/-- The number that `ensureRole` gives is that of a symbol with the role. -/
theorem ensureRole_role (role : Role) (name : String) (symbols : List Symbol) (used : List SymbolId) :
    ∃ s ∈ (ensureRole role name symbols used).2.1,
      s.id = (ensureRole role name symbols used).1 ∧ s.role = role := by
  unfold ensureRole
  split
  · rename_i s hs
    exact ⟨s, List.mem_of_find?_eq_some hs, rfl, by simpa using List.find?_some hs⟩
  · exact ⟨roleSymbol role name (leastFree used), List.mem_append_right _ (List.mem_singleton.mpr rfl), rfl, rfl⟩

theorem numbered_ensureRole {symbols : List Symbol} {used : List SymbolId} (h : Numbered symbols used) (role : Role)
    (name : String) :
    Numbered (ensureRole role name symbols used).2.1 (ensureRole role name symbols used).2.2 := by
  unfold ensureRole
  split
  · exact h
  · constructor
    · rw [List.map_append, List.nodup_append]
      refine ⟨h.nodup, by simp, ?_⟩
      intro a ha b hb heq
      simp only [List.map_cons, List.map_nil, List.mem_singleton] at hb
      obtain ⟨s, hs, rfl⟩ := List.mem_map.mp ha
      exact leastFree_not_mem used (hb ▸ heq ▸ h.used s hs)
    · intro s hs
      rcases List.mem_append.mp hs with hs | hs
      · exact List.mem_cons_of_mem _ (h.used s hs)
      · rw [List.mem_singleton.mp hs]
        exact List.mem_cons_self

/-! ## Slots -/

theorem lt_slots_size {symbols : List Symbol} {s : Symbol} (h : s ∈ symbols) :
    s.id < symbols.foldl (fun n s => max n (s.id + 1)) 0 := by
  suffices ∀ (l : List Symbol) (n : Nat),
      n ≤ l.foldl (fun n s => max n (s.id + 1)) n ∧ ∀ s ∈ l, s.id < l.foldl (fun n s => max n (s.id + 1)) n from
    (this symbols 0).2 s h
  intro l
  induction l with
  | nil => exact fun n => ⟨le_refl n, fun _ h => absurd h List.not_mem_nil⟩
  | cons t rest ih =>
    intro n
    obtain ⟨hle, hlt⟩ := ih (max n (t.id + 1))
    refine ⟨(Nat.le_max_left _ _).trans hle, fun s hs => ?_⟩
    rcases List.mem_cons.mp hs with rfl | hs
    · exact (Nat.le_max_right _ _).trans hle
    · exact hlt s hs

/-- A slot whose number no symbol has stays as it is. -/
theorem foldl_set_of_ne {id : SymbolId} : ∀ (symbols : List Symbol) (slots : Array (Option Symbol)),
    (∀ s ∈ symbols, s.id ≠ id) → (symbols.foldl (fun slots s => slots.set! s.id (some s)) slots)[id]? = slots[id]?
  | [], _, _ => rfl
  | s :: rest, slots, h => by
    rw [List.foldl_cons, foldl_set_of_ne rest _ fun t ht => h t (List.mem_cons_of_mem _ ht)]
    rw [Array.set!_eq_setIfInBounds, Array.getElem?_setIfInBounds, if_neg (h s List.mem_cons_self)]

/-- Every symbol gets into the slot of its number. -/
theorem foldl_set_of_mem : ∀ (symbols : List Symbol) (slots : Array (Option Symbol)),
    (symbols.map (·.id)).Nodup → (∀ s ∈ symbols, s.id < slots.size) →
    ∀ s ∈ symbols, (symbols.foldl (fun slots s => slots.set! s.id (some s)) slots)[s.id]? = some (some s)
  | [], _, _, _, _, h => absurd h List.not_mem_nil
  | t :: rest, slots, hnodup, hsize, s, hs => by
    rw [List.map_cons, List.nodup_cons] at hnodup
    rw [List.foldl_cons]
    rcases List.mem_cons.mp hs with rfl | hs
    · rw [foldl_set_of_ne rest _ fun u hu heq => hnodup.1 (List.mem_map.mpr ⟨u, hu, heq⟩)]
      rw [Array.set!_eq_setIfInBounds, Array.getElem?_setIfInBounds_self_of_lt (hsize s List.mem_cons_self)]
    · refine foldl_set_of_mem rest _ hnodup.2 (fun u hu => ?_) s hs
      rw [Array.set!_eq_setIfInBounds, Array.size_setIfInBounds]
      exact hsize u (List.mem_cons_of_mem _ hu)

/-- The slots hold exactly the symbols, each at its number. -/
theorem fillSlots_eq_some {symbols : List Symbol} (h : (symbols.map (·.id)).Nodup) {id : SymbolId} {s : Symbol} :
    (fillSlots symbols)[id]?.join = some s ↔ s ∈ symbols ∧ s.id = id := by
  have hsize : ∀ t ∈ symbols,
      t.id < (Array.replicate (symbols.foldl (fun n s => max n (s.id + 1)) 0) (none : Option Symbol)).size := by
    intro t ht
    rw [Array.size_replicate]
    exact lt_slots_size ht
  constructor
  · intro hs
    by_cases hid : ∃ t ∈ symbols, t.id = id
    · obtain ⟨t, ht, rfl⟩ := hid
      rw [fillSlots, foldl_set_of_mem symbols _ h hsize t ht] at hs
      cases hs
      exact ⟨ht, rfl⟩
    · rw [fillSlots, foldl_set_of_ne symbols _ fun t ht heq => hid ⟨t, ht, heq⟩, Array.getElem?_replicate] at hs
      split at hs <;> simp at hs
  · rintro ⟨hs, rfl⟩
    rw [fillSlots, foldl_set_of_mem symbols _ h hsize s hs]
    rfl

/-! ## The frozen grammar -/

variable {b : Builder}

/-- The numbers of the pending symbols, and all numbers used. -/
def pendingIds (b : Builder) : List SymbolId × List SymbolId :=
  assignIds b.symbols.toList (b.symbols.toList.filterMap (·.terminal))

/-- The number of the pending symbol at an index. -/
def idAt (b : Builder) (index : Nat) : SymbolId := b.pendingIds.1.toArray.getD index 0

/-- The pending symbols under their numbers. -/
def frozenPending (b : Builder) : List Symbol := b.symbols.toList.zipWith PendingSymbol.freeze b.pendingIds.1

/-- The frozen symbols after the end of the input is ensured. -/
def frozenEnd (b : Builder) : SymbolId × List Symbol × List SymbolId :=
  ensureRole .endOfInput Symbol.endName b.frozenPending b.pendingIds.2

/-- The frozen symbols after the empty symbol is ensured, too. -/
def frozenEmpty (b : Builder) : SymbolId × List Symbol × List SymbolId :=
  ensureRole .empty Symbol.emptyName b.frozenEnd.2.1 b.frozenEnd.2.2

/-- A pending symbol is frozen under the number of its index. -/
theorem mem_frozenPending {s : Symbol} :
    s ∈ b.frozenPending ↔ ∃ (i : Nat) (t : PendingSymbol), b.symbols[i]? = some t ∧ s = PendingSymbol.freeze t (b.idAt i) := by
  have hlen : b.pendingIds.1.length = b.symbols.size := by simp [pendingIds, length_assignIds]
  rw [frozenPending, List.mem_iff_getElem?]
  refine exists_congr fun i => ?_
  rw [List.getElem?_zipWith', Array.getElem?_toList]
  by_cases hi : i < b.symbols.size
  · have hid : b.pendingIds.1[i]? = some (b.idAt i) := by
      simp [idAt, hlen, hi]
    simp [hid, Array.getElem?_eq_getElem hi, eq_comm]
  · simp [Array.getElem?_eq_none (Nat.le_of_not_lt hi)]

/-- The numbers of the terminals are pairwise different. -/
theorem WellFormed.nodup_terminals (h : b.WellFormed) : (b.symbols.toList.filterMap (·.terminal)).Nodup := by
  rw [List.Nodup, List.pairwise_filterMap, List.pairwise_iff_getElem]
  intro i j hi hj hij id hid id' hid' heq
  have hs : b.symbols[i]? = some b.symbols.toList[i] := by simp
  have ht : b.symbols[j]? = some b.symbols.toList[j] := by simp
  have := h.terminal_unique hs ht hid (heq ▸ hid')
  omega

theorem WellFormed.nodup_pendingIds (h : b.WellFormed) : b.pendingIds.1.Nodup :=
  nodup_assignIds _ _ h.nodup_terminals (List.Subset.refl _)

/-- Different pending symbols have different numbers. -/
theorem WellFormed.idAt_inj (h : b.WellFormed) {i j : Nat} {s t : PendingSymbol} (hs : b.symbols[i]? = some s)
    (ht : b.symbols[j]? = some t) (heq : b.idAt i = b.idAt j) : i = j := by
  have hlen : b.pendingIds.1.length = b.symbols.size := by simp [pendingIds, length_assignIds]
  have hi : i < b.pendingIds.1.length := by rw [hlen]; exact (Array.getElem?_eq_some_iff.mp hs).1
  have hj : j < b.pendingIds.1.length := by rw [hlen]; exact (Array.getElem?_eq_some_iff.mp ht).1
  have hget : b.pendingIds.1[i] = b.pendingIds.1[j] := by simpa [idAt, hi, hj] using heq
  exact (h.nodup_pendingIds.getElem_inj_iff).mp hget

theorem WellFormed.numbered_pending (h : b.WellFormed) : Numbered b.frozenPending b.pendingIds.2 := by
  have hids : b.frozenPending.map (·.id) = b.pendingIds.1 := by
    apply List.ext_getElem
    · simp [frozenPending, pendingIds, length_assignIds]
    · intro i _ _
      simp [frozenPending, PendingSymbol.freeze]
  constructor
  · rw [hids]
    exact h.nodup_pendingIds
  · intro s hs
    refine (subset_assignIds _ _ (List.Subset.refl _)).2 ?_
    change s.id ∈ b.pendingIds.1
    rw [← hids]
    exact List.mem_map_of_mem hs

theorem WellFormed.numbered_frozen (h : b.WellFormed) : Numbered b.frozenEmpty.2.1 b.frozenEmpty.2.2 :=
  numbered_ensureRole (numbered_ensureRole h.numbered_pending .endOfInput Symbol.endName) .empty Symbol.emptyName

theorem mem_frozen_of_pending {s : Symbol} (h : s ∈ b.frozenPending) : s ∈ b.frozenEmpty.2.1 :=
  mem_ensureRole.1 (mem_ensureRole.1 h)

/-- A frozen symbol was pending, or was added for its role. -/
theorem mem_frozen {s : Symbol} (h : s ∈ b.frozenEmpty.2.1) : s ∈ b.frozenPending ∨
    s.kind = .terminal ∧ s.productions = [] ∧ (s.role = .endOfInput ∨ s.role = .empty) := by
  rcases mem_ensureRole.2 h with h | ⟨id, rfl⟩
  · rcases mem_ensureRole.2 h with h | ⟨id, rfl⟩
    · exact Or.inl h
    · exact Or.inr ⟨rfl, rfl, Or.inl rfl⟩
  · exact Or.inr ⟨rfl, rfl, Or.inr rfl⟩

/-- The symbols of a frozen grammar. -/
theorem WellFormed.symbol?_freeze (h : b.WellFormed) {id : SymbolId} {s : Symbol} :
    b.freeze.symbol? id = some s ↔ s ∈ b.frozenEmpty.2.1 ∧ s.id = id :=
  fillSlots_eq_some h.numbered_frozen.nodup

/-- The symbol of a pending one. -/
theorem WellFormed.symbol?_idAt (h : b.WellFormed) {i : Nat} {t : PendingSymbol} (ht : b.symbols[i]? = some t) :
    b.freeze.symbol? (b.idAt i) = some (PendingSymbol.freeze t (b.idAt i)) :=
  h.symbol?_freeze.mpr ⟨mem_frozen_of_pending (mem_frozenPending.mpr ⟨i, t, ht, rfl⟩), rfl⟩

/-- The productions of a frozen grammar. -/
theorem production?_freeze {id : ProductionId} {p : Production} :
    b.freeze.production? id = some p ↔ ∃ q, b.productions[id]? = some q ∧
      p = { id, head := b.idAt q.head, body := q.body.map b.idAt } := by
  change (b.productions.mapIdx _)[id]? = some p ↔ _
  rw [Array.getElem?_mapIdx, Option.map_eq_some_iff]
  exact exists_congr fun q => and_congr Iff.rfl eq_comm

/-- A symbol with a role other than that of the start symbol is a terminal. -/
theorem WellFormed.isTerminal_of_role (h : b.WellFormed) {s : Symbol} (hs : s ∈ b.frozenEmpty.2.1)
    (hc : s.role ≠ .common) (hstart : s.role ≠ .start) : s.isTerminal = true := by
  rcases mem_frozen hs with hs | ⟨hkind, -⟩
  · obtain ⟨i, t, ht, rfl⟩ := mem_frozenPending.mp hs
    have hterm : t.terminal.isSome := by
      rcases h.role_terminal ht with hr | hr | hr
      · exact absurd hr hc
      · exact absurd hr hstart
      · exact hr
    simp [Symbol.isTerminal, PendingSymbol.freeze, hterm]
  · simp [Symbol.isTerminal, hkind]

/-- The end of the input. -/
theorem endOfInput_freeze (b : Builder) :
    ∃ s ∈ b.frozenEmpty.2.1, s.id = b.freeze.endOfInput ∧ s.role = .endOfInput := by
  obtain ⟨s, hs, hid, hrole⟩ := ensureRole_role .endOfInput Symbol.endName b.frozenPending b.pendingIds.2
  exact ⟨s, mem_ensureRole.1 hs, hid, hrole⟩

/-- The empty symbol. -/
theorem empty_freeze (b : Builder) : ∃ s ∈ b.frozenEmpty.2.1, s.id = b.freeze.empty ∧ s.role = .empty :=
  ensureRole_role .empty Symbol.emptyName b.frozenEnd.2.1 b.frozenEnd.2.2

/-- A pending nonterminal is a nonterminal of the frozen grammar. -/
theorem isTerminal_freeze_of_none {t : PendingSymbol} {id : SymbolId} (h : t.terminal = none) :
    (PendingSymbol.freeze t id).isTerminal = false := by
  simp [Symbol.isTerminal, PendingSymbol.freeze, h]

/-- The alternatives of a symbol are the productions it heads. -/
theorem WellFormed.alternatives_freeze (h : b.WellFormed) {symbol : SymbolId} {s : Symbol}
    (hs : b.freeze.symbol? symbol = some s) (id : ProductionId) :
    id ∈ s.productions ↔ ∃ p, b.freeze.production? id = some p ∧ p.head = symbol := by
  obtain ⟨hmem, rfl⟩ := h.symbol?_freeze.mp hs
  rcases mem_frozen hmem with hpend | ⟨hkind, hnil, -⟩
  · obtain ⟨i, t, ht, rfl⟩ := mem_frozenPending.mp hpend
    change id ∈ t.productions ↔ ∃ p, b.freeze.production? id = some p ∧ p.head = b.idAt i
    rw [h.alternatives ht id]
    constructor
    · rintro ⟨q, hq, rfl⟩
      exact ⟨_, production?_freeze.mpr ⟨q, hq, rfl⟩, rfl⟩
    · rintro ⟨p, hp, hhead⟩
      obtain ⟨q, hq, rfl⟩ := production?_freeze.mp hp
      obtain ⟨u, hu, -⟩ := h.head hq
      exact ⟨q, hq, h.idAt_inj hu ht hhead⟩
  · -- an added symbol is a terminal, so it heads nothing
    rw [hnil]
    refine ⟨fun hid => absurd hid List.not_mem_nil, ?_⟩
    rintro ⟨p, hp, hhead⟩
    obtain ⟨q, hq, rfl⟩ := production?_freeze.mp hp
    obtain ⟨u, hu, hnone⟩ := h.head hq
    have hsu := h.symbol?_idAt hu
    change b.idAt q.head = s.id at hhead
    rw [hhead, hs] at hsu
    have hterm : s.isTerminal = false := by
      rw [Option.some.inj hsu]
      exact isTerminal_freeze_of_none hnone
    simp [Symbol.isTerminal, hkind] at hterm

/-- The alternatives of a symbol are different. -/
theorem WellFormed.nodup_alternatives_freeze (h : b.WellFormed) {symbol : SymbolId} {s : Symbol}
    (hs : b.freeze.symbol? symbol = some s) : s.productions.Nodup := by
  obtain ⟨hmem, -⟩ := h.symbol?_freeze.mp hs
  rcases mem_frozen hmem with hpend | ⟨-, hnil, -⟩
  · obtain ⟨i, t, ht, rfl⟩ := mem_frozenPending.mp hpend
    exact (h.increasing ht).imp Nat.ne_of_lt
  · rw [hnil]
    exact List.nodup_nil

/-- Symbols with different roles have different numbers. -/
theorem WellFormed.id_ne_of_role (h : b.WellFormed) {s t : Symbol} (hs : s ∈ b.frozenEmpty.2.1)
    (ht : t ∈ b.frozenEmpty.2.1) (hrole : s.role ≠ t.role) : s.id ≠ t.id :=
  fun hid => hrole (congrArg Symbol.role (h.numbered_frozen.eq_of_id hs ht hid))

/-- A symbol of the frozen grammar, looked up by its number. -/
theorem WellFormed.isTerminal_freeze (h : b.WellFormed) {s : Symbol} (hs : s ∈ b.frozenEmpty.2.1) :
    b.freeze.isTerminal s.id = s.isTerminal := by
  rw [Grammar.isTerminal, h.symbol?_freeze.mpr ⟨hs, rfl⟩]
  rfl

/-- A body holds known symbols other than the empty symbol. -/
theorem WellFormed.body_freeze (h : b.WellFormed) {id : ProductionId} {p : Production}
    (hp : b.freeze.production? id = some p) :
    ∀ symbol ∈ p.body, (b.freeze.symbol? symbol).isSome ∧ symbol ≠ b.freeze.empty := by
  intro symbol hsymbol
  obtain ⟨q, hq, rfl⟩ := production?_freeze.mp hp
  obtain ⟨i, hi, rfl⟩ := List.mem_map.mp hsymbol
  obtain ⟨t, ht, hne⟩ := h.body hq i hi
  obtain ⟨e, he, hid, hrole⟩ := b.empty_freeze
  have hlookup := h.symbol?_idAt ht
  refine ⟨by rw [hlookup]; rfl, ?_⟩
  rw [← hid]
  refine h.id_ne_of_role (h.symbol?_freeze.mp hlookup).1 he ?_
  rw [hrole]
  exact hne

/-- Freezing a builder that requests can reach gives a well-formed grammar. -/
theorem WellFormed.freeze (h : b.WellFormed) : b.freeze.WellFormed := by
  obtain ⟨e, he, heid, herole⟩ := b.endOfInput_freeze
  obtain ⟨m, hm, hmid, hmrole⟩ := b.empty_freeze
  refine ⟨fun hs => (h.symbol?_freeze.mp hs).2, ?_, ?_, h.body_freeze, h.alternatives_freeze,
    h.nodup_alternatives_freeze, ?_, ?_, ?_, ?_, ?_, rfl⟩
  · intro id p hp
    obtain ⟨q, -, rfl⟩ := production?_freeze.mp hp
    rfl
  · intro id p hp
    obtain ⟨q, hq, rfl⟩ := production?_freeze.mp hp
    obtain ⟨t, ht, hnone⟩ := h.head hq
    exact ⟨_, h.symbol?_idAt ht, isTerminal_freeze_of_none hnone⟩
  · obtain ⟨t, ht, -, hnone⟩ := h.start
    exact ⟨_, h.symbol?_idAt ht, isTerminal_freeze_of_none hnone⟩
  · rw [← heid, h.isTerminal_freeze he]
    exact h.isTerminal_of_role he (by simp [herole]) (by simp [herole])
  · rw [← hmid, h.isTerminal_freeze hm]
    exact h.isTerminal_of_role hm (by simp [hmrole]) (by simp [hmrole])
  · rw [← heid, ← hmid]
    exact h.id_ne_of_role he hm (by simp [herole, hmrole])
  · intro symbol hsymbol
    obtain ⟨s, hs, rfl⟩ := Option.map_eq_some_iff.mp hsymbol
    have hmem : s ∈ b.frozenEmpty.2.1 := List.mem_of_find?_eq_some hs
    have hrole : s.role = .wildcard := by simpa using List.find?_some hs
    refine ⟨?_, ?_⟩
    · rw [h.isTerminal_freeze hmem]
      exact h.isTerminal_of_role hmem (by simp [hrole]) (by simp [hrole])
    · rw [← heid]
      exact h.id_ne_of_role hmem he (by simp [hrole, herole])

/-- What a successful build gives. -/
theorem build_eq_ok {g : Grammar} (h : b.build = .ok g) : g = b.freeze := by
  unfold build at h
  split at h
  · cases h
  · split at h
    · cases h
    · exact (Except.ok.inj h).symm

theorem build_of_isOk (h : b.build.isOk = true) : b.build = .ok b.freeze := by
  cases hbuild : b.build with
  | error e =>
    rw [hbuild] at h
    cases h
  | ok g => rw [build_eq_ok hbuild]

end Builder

/-- **Every built grammar is well formed.** -/
theorem Grammar.wellFormed_of_build {requests : List Builder.Request} {g : Grammar}
    (h : (Builder.after requests).build = .ok g) : g.WellFormed := by
  rw [Builder.build_eq_ok h]
  exact (Builder.wellFormed_after requests).freeze

/-! ## A sample grammar -/

/-- Requests for the grammar of nested parentheses. -/
def Builder.parentheses : List Builder.Request :=
  [.terminal "(" 1 .common, .terminal ")" 2 .common, .symbols "$START$" ["S"], .symbols "S" ["(", "S", ")"],
    .symbols "S" []]

/-- The grammar of nested parentheses. -/
def parentheses : Grammar := (Builder.after Builder.parentheses).freeze

theorem build_parentheses : (Builder.after Builder.parentheses).build = .ok parentheses :=
  Builder.build_of_isOk (by decide +kernel)

end ShaderFront
