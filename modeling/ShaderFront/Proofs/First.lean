import Mathlib
import ShaderFront.Proofs.Numbering

/-!
# FIRST sets reach their fixpoint

The FIRST sets of a well-formed grammar only hold terminals, and the set of a terminal is the terminal alone
(`FirstInvariant`). Rounds add what is missing and take nothing away, so they run into a fixpoint before the bound on
their number is used up (`Grammar.WellFormed.firstRounds_fixed`), and there every production's inclusion holds.

Main statements:

* `Grammar.mem_first_append`, the FIRST set of a sequence in two parts;
* `Grammar.WellFormed.begins_head`, the inclusion of a production;
* `Grammar.WellFormed.firstSets_terminal`, `Grammar.WellFormed.isTerminal_of_mem_first`.
-/

namespace ShaderFront

/-! ## Sequences -/

/-- The FIRST set of two sequences in a row. -/
theorem mem_firstOfSequence_append {first : Array (OrderedSet SymbolId)} {empty x : SymbolId}
    (l r : List SymbolId) : x ∈ firstOfSequence first empty (l ++ r) ↔
      x ∈ firstOfSequence first empty l ∧ x ≠ empty ∨
        empty ∈ firstOfSequence first empty l ∧ x ∈ firstOfSequence first empty r := by
  induction l with
  | nil => simp [firstOfSequence]
  | cons s rest ih =>
    simp only [List.cons_append, firstOfSequence]
    cases first[s]? with
    | none => simp
    | some set =>
      simp only
      split
      · simp only [OrderedSet.mem_union, OrderedSet.mem_erase, ih]
        grind
      · rename_i hempty
        constructor
        · intro hx
          exact Or.inl ⟨hx, fun heq => hempty (heq ▸ hx)⟩
        · rintro (hx | hx)
          · exact hx.1
          · exact absurd hx.1 hempty

/-- The table of FIRST sets says that a symbol can begin with another one. -/
def Begins (first : Array (OrderedSet SymbolId)) (symbol x : SymbolId) : Prop :=
  ∃ set, first[symbol]? = some set ∧ x ∈ set

/-- A sequence begins with what one of its symbols begins with, or is empty. -/
theorem begins_of_mem_firstOfSequence {first : Array (OrderedSet SymbolId)} {empty x : SymbolId} :
    ∀ {l : List SymbolId}, x ∈ firstOfSequence first empty l → x = empty ∨ ∃ s, Begins first s x
  | [], h => Or.inl (OrderedSet.mem_singleton.mp h)
  | s :: rest, h => by
    rw [firstOfSequence] at h
    split at h
    · exact absurd h OrderedSet.mem_empty
    · rename_i set hset
      split at h
      · rcases OrderedSet.mem_union.mp h with h | h
        · exact Or.inr ⟨s, set, hset, (OrderedSet.mem_erase.mp h).1⟩
        · exact begins_of_mem_firstOfSequence h
      · exact Or.inr ⟨s, set, hset, h⟩

/-! ## The order on tables -/

/-- A table knows all that another one knows. -/
structure FirstLe (first first' : Array (OrderedSet SymbolId)) : Prop where
  size : first'.size = first.size
  begins : ∀ {s x : SymbolId}, Begins first s x → Begins first' s x

theorem FirstLe.refl (first : Array (OrderedSet SymbolId)) : FirstLe first first := ⟨rfl, id⟩

theorem FirstLe.trans {a b c : Array (OrderedSet SymbolId)} (h₁ : FirstLe a b) (h₂ : FirstLe b c) : FirstLe a c :=
  ⟨h₂.size.trans h₁.size, fun h => h₂.begins (h₁.begins h)⟩

theorem FirstLe.antisymm {a b : Array (OrderedSet SymbolId)} (h₁ : FirstLe a b) (h₂ : FirstLe b a) : a = b := by
  apply Array.ext h₂.size
  intro i hi hi'
  apply OrderedSet.ext
  intro x
  have mem : ∀ {f f' : Array (OrderedSet SymbolId)} (hf : i < f.size) (hf' : i < f'.size), FirstLe f f' →
      x ∈ f[i] → x ∈ f'[i] := by
    intro f f' hf hf' hle hx
    obtain ⟨set, hset, hx⟩ := hle.begins ⟨f[i], Array.getElem?_eq_getElem hf, hx⟩
    rw [Array.getElem?_eq_getElem hf'] at hset
    rwa [Option.some.inj hset]
  exact ⟨mem hi hi' h₁, mem hi' hi h₂⟩

/-- What one production adds. -/
theorem begins_growFirst {empty : SymbolId} {first : Array (OrderedSet SymbolId)} {p : Production} {s x : SymbolId} :
    Begins (growFirst empty first p) s x ↔
      Begins first s x ∨ s = p.head ∧ s < first.size ∧ x ∈ firstOfSequence first empty p.body := by
  unfold Begins growFirst
  rw [Array.getElem?_modify]
  by_cases hs : p.head = s
  · subst hs
    rw [if_pos rfl]
    cases hset : first[p.head]? with
    | none => simp [Array.getElem?_eq_none_iff.mp hset]
    | some set => simp [(Array.getElem?_eq_some_iff.mp hset).1]
  · rw [if_neg hs]
    exact ⟨Or.inl, fun h => h.elim id fun h => absurd h.1.symm hs⟩

theorem firstLe_growFirst (empty : SymbolId) (first : Array (OrderedSet SymbolId)) (p : Production) :
    FirstLe first (growFirst empty first p) :=
  ⟨Array.size_modify, fun h => begins_growFirst.mpr (Or.inl h)⟩

theorem firstLe_foldl_growFirst (empty : SymbolId) : ∀ (l : List Production) (first : Array (OrderedSet SymbolId)),
    FirstLe first (l.foldl (growFirst empty) first)
  | [], first => FirstLe.refl first
  | p :: rest, first => (firstLe_growFirst empty first p).trans (firstLe_foldl_growFirst empty rest _)

/-- If a whole round adds nothing, no production adds anything. -/
theorem growFirst_of_foldl_eq {empty : SymbolId} {first : Array (OrderedSet SymbolId)} : ∀ {l : List Production},
    l.foldl (growFirst empty) first = first → ∀ p ∈ l, growFirst empty first p = first
  | [], _, _, hp => absurd hp List.not_mem_nil
  | q :: rest, h, p, hp => by
    rw [List.foldl_cons] at h
    have hq : growFirst empty first q = first := by
      have hle := firstLe_foldl_growFirst empty rest (growFirst empty first q)
      rw [h] at hle
      exact hle.antisymm (firstLe_growFirst empty first q)
    rw [hq] at h
    rcases List.mem_cons.mp hp with rfl | hp
    · exact hq
    · exact growFirst_of_foldl_eq h p hp

/-! ## Counting -/

/-- The pairs of a symbol and something it begins with. -/
def firstPairs (first : Array (OrderedSet SymbolId)) : Finset (SymbolId × SymbolId) :=
  (Finset.range first.size).biUnion fun s => (first.getD s ∅).toList.toFinset.image (Prod.mk s)

theorem mem_firstPairs {first : Array (OrderedSet SymbolId)} {s x : SymbolId} :
    (s, x) ∈ firstPairs first ↔ Begins first s x := by
  simp only [firstPairs, Finset.mem_biUnion, Finset.mem_range, Finset.mem_image, List.mem_toFinset, Prod.mk.injEq]
  constructor
  · rintro ⟨s, hs, x, hx, rfl, rfl⟩
    refine ⟨first[s], Array.getElem?_eq_getElem hs, ?_⟩
    simpa [Array.getD, hs, OrderedSet.mem_def] using hx
  · rintro ⟨set, hset, hx⟩
    obtain ⟨hs, rfl⟩ := Array.getElem?_eq_some_iff.mp hset
    refine ⟨s, hs, x, ?_, rfl, rfl⟩
    simpa [Array.getD, hs, OrderedSet.mem_def] using hx

/-- A table that knows more has more pairs. -/
theorem card_firstPairs_lt {first first' : Array (OrderedSet SymbolId)} (hle : FirstLe first first')
    (hne : first' ≠ first) : (firstPairs first).card < (firstPairs first').card := by
  apply Finset.card_lt_card
  refine Finset.ssubset_iff_subset_ne.mpr ⟨?_, fun heq => hne ?_⟩
  · rintro ⟨s, x⟩ h
    exact mem_firstPairs.mpr (hle.begins (mem_firstPairs.mp h))
  · refine FirstLe.antisymm ⟨hle.size.symm, fun h => ?_⟩ hle
    rw [← mem_firstPairs, heq]
    exact mem_firstPairs.mpr h

/-! ## The fixpoint -/

namespace Grammar

variable {g : Grammar}

/-- A known symbol is in the list of the symbols. -/
theorem mem_symbols_of_symbol? {id : SymbolId} {s : Symbol} (h : g.symbol? id = some s) : s ∈ g.symbols := by
  rw [symbol?, Option.join_eq_some_iff] at h
  exact List.mem_filterMap.mpr ⟨some s, Array.mem_toList_iff.mpr (Array.mem_of_getElem? h), rfl⟩

theorem isTerminal_iff {id : SymbolId} : g.isTerminal id = true ↔ ∃ s, g.symbol? id = some s ∧ s.isTerminal = true := by
  rw [isTerminal]
  cases g.symbol? id <;> simp

/-- The numbers of the symbols. -/
def symbolIds (g : Grammar) : Finset SymbolId := (g.symbols.map (·.id)).toFinset

theorem card_symbolIds_le (g : Grammar) : g.symbolIds.card ≤ g.symbols.length := by
  have h := List.toFinset_card_le (g.symbols.map (·.id))
  rwa [List.length_map] at h

theorem WellFormed.mem_symbolIds (wf : g.WellFormed) {id : SymbolId} {s : Symbol} (h : g.symbol? id = some s) :
    id ∈ g.symbolIds := by
  rw [← wf.symbol_id h]
  exact List.mem_toFinset.mpr (List.mem_map_of_mem (mem_symbols_of_symbol? h))

theorem WellFormed.mem_symbolIds_of_isTerminal (wf : g.WellFormed) {id : SymbolId} (h : g.isTerminal id = true) :
    id ∈ g.symbolIds := by
  obtain ⟨s, hs, -⟩ := isTerminal_iff.mp h
  exact wf.mem_symbolIds hs

/-- What the tables of FIRST sets keep: symbols begin with terminals, and a terminal with itself alone. -/
structure FirstInvariant (g : Grammar) (first : Array (OrderedSet SymbolId)) : Prop where
  size : first.size = g.slots.size
  terminals : ∀ {s x : SymbolId}, Begins first s x → s ∈ g.symbolIds ∧ g.isTerminal x = true
  self : ∀ {a : SymbolId}, g.isTerminal a = true → first[a]? = some (.singleton a)

/-- Before the first round only terminals begin with something, and only with themselves. -/
theorem WellFormed.begins_initialFirst (wf : g.WellFormed) {s x : SymbolId} (h : Begins (initialFirst g.slots) s x) :
    g.isTerminal s = true ∧ x = s := by
  obtain ⟨set, hset, hx⟩ := h
  rw [initialFirst, Array.getElem?_map, Option.map_eq_some_iff] at hset
  obtain ⟨slot, hslot, rfl⟩ := hset
  cases slot with
  | none => exact absurd hx OrderedSet.mem_empty
  | some symbol =>
    have hsymbol : g.symbol? s = some symbol := by rw [symbol?, hslot]; rfl
    simp only at hx
    split at hx
    · rename_i hterm
      rw [OrderedSet.mem_singleton, wf.symbol_id hsymbol] at hx
      exact ⟨isTerminal_iff.mpr ⟨symbol, hsymbol, hterm⟩, hx⟩
    · exact absurd hx OrderedSet.mem_empty

theorem WellFormed.firstInvariant_initial (wf : g.WellFormed) : g.FirstInvariant (initialFirst g.slots) := by
  refine ⟨Array.size_map, ?_, ?_⟩
  · intro s x h
    obtain ⟨hterminal, rfl⟩ := wf.begins_initialFirst h
    exact ⟨wf.mem_symbolIds_of_isTerminal hterminal, hterminal⟩
  · intro a ha
    obtain ⟨symbol, hsymbol, hterm⟩ := isTerminal_iff.mp ha
    have hslot : g.slots[a]? = some (some symbol) := Option.join_eq_some_iff.mp hsymbol
    rw [initialFirst, Array.getElem?_map, hslot, Option.map_some]
    simp only [hterm, if_true, wf.symbol_id hsymbol]

/-- A production keeps the invariant, since its head is no terminal. -/
theorem WellFormed.firstInvariant_growFirst (wf : g.WellFormed) {first : Array (OrderedSet SymbolId)}
    (h : g.FirstInvariant first) {p : Production} (hp : p ∈ g.productions) :
    g.FirstInvariant (growFirst g.empty first p) := by
  obtain ⟨id, hid⟩ := Array.getElem?_of_mem hp
  obtain ⟨head, hhead, hnon⟩ := wf.head hid
  refine ⟨(firstLe_growFirst g.empty first p).size.trans h.size, ?_, ?_⟩
  · intro s x hx
    rcases begins_growFirst.mp hx with hx | ⟨rfl, -, hx⟩
    · exact h.terminals hx
    · refine ⟨wf.mem_symbolIds hhead, ?_⟩
      rcases begins_of_mem_firstOfSequence hx with rfl | ⟨s, hs⟩
      · exact wf.empty
      · exact (h.terminals hs).2
  · intro a ha
    have hne : p.head ≠ a := by
      rintro rfl
      obtain ⟨s, hs, hterm⟩ := isTerminal_iff.mp ha
      rw [hhead] at hs
      cases hs
      rw [hnon] at hterm
      cases hterm
    rw [growFirst, Array.getElem?_modify, if_neg hne]
    exact h.self ha

theorem WellFormed.firstInvariant_firstRound (wf : g.WellFormed) {first : Array (OrderedSet SymbolId)}
    (h : g.FirstInvariant first) : g.FirstInvariant (firstRound g.empty g.productions first) := by
  rw [firstRound, ← Array.foldl_toList]
  suffices ∀ (l : List Production) (first : Array (OrderedSet SymbolId)), (∀ p ∈ l, p ∈ g.productions) →
      g.FirstInvariant first → g.FirstInvariant (l.foldl (growFirst g.empty) first) from
    this _ first (fun p hp => Array.mem_toList_iff.mp hp) h
  intro l
  induction l with
  | nil => exact fun _ _ h => h
  | cons p rest ih =>
    intro first hmem h
    exact ih _ (fun q hq => hmem q (List.mem_cons_of_mem _ hq))
      (wf.firstInvariant_growFirst h (hmem p List.mem_cons_self))

/-- There are no more pairs than pairs of symbols. -/
theorem FirstInvariant.card_le (wf : g.WellFormed) {first : Array (OrderedSet SymbolId)} (h : g.FirstInvariant first) :
    (firstPairs first).card ≤ g.symbols.length * g.symbols.length := by
  have hsub : firstPairs first ⊆ g.symbolIds ×ˢ g.symbolIds := by
    rintro ⟨s, x⟩ hx
    obtain ⟨hs, hterm⟩ := h.terminals (mem_firstPairs.mp hx)
    exact Finset.mem_product.mpr ⟨hs, wf.mem_symbolIds_of_isTerminal hterm⟩
  calc (firstPairs first).card ≤ (g.symbolIds ×ˢ g.symbolIds).card := Finset.card_le_card hsub
    _ = g.symbolIds.card * g.symbolIds.card := Finset.card_product _ _
    _ ≤ g.symbols.length * g.symbols.length := Nat.mul_le_mul g.card_symbolIds_le g.card_symbolIds_le

/-- With enough rounds left, the rounds end in a fixpoint. -/
theorem WellFormed.firstRounds_fixed (wf : g.WellFormed) : ∀ (fuel : Nat) {first : Array (OrderedSet SymbolId)},
    g.FirstInvariant first → g.symbols.length * g.symbols.length < fuel + (firstPairs first).card →
    g.FirstInvariant (firstRounds g.empty g.productions fuel first) ∧
      firstRound g.empty g.productions (firstRounds g.empty g.productions fuel first) =
        firstRounds g.empty g.productions fuel first
  | 0, first, h, hfuel => by
    have := h.card_le wf
    omega
  | fuel + 1, first, h, hfuel => by
    unfold firstRounds
    simp only
    split
    · rename_i hfixed
      exact ⟨h, hfixed⟩
    · rename_i hne
      have hle : FirstLe first (firstRound g.empty g.productions first) := by
        rw [firstRound, ← Array.foldl_toList]
        exact firstLe_foldl_growFirst g.empty _ first
      have := card_firstPairs_lt hle hne
      exact WellFormed.firstRounds_fixed wf fuel (wf.firstInvariant_firstRound h) (by omega)

theorem WellFormed.firstSets_fixed (wf : g.WellFormed) :
    g.FirstInvariant g.firstSets ∧ firstRound g.empty g.productions g.firstSets = g.firstSets := by
  rw [wf.firstSets]
  refine wf.firstRounds_fixed _ wf.firstInvariant_initial ?_
  change g.symbols.length * g.symbols.length < g.symbols.length * g.symbols.length + 1 + _
  omega

/-! ## What the rest of the theory uses -/

theorem mem_first_append {x : SymbolId} (l r : List SymbolId) :
    x ∈ g.first (l ++ r) ↔ x ∈ g.first l ∧ x ≠ g.empty ∨ g.empty ∈ g.first l ∧ x ∈ g.first r :=
  mem_firstOfSequence_append l r

theorem empty_mem_first_nil : g.empty ∈ g.first [] := OrderedSet.mem_singleton.mpr rfl

/-- A single symbol begins with what its FIRST set holds. -/
theorem mem_first_singleton {s x : SymbolId} (h : Begins g.firstSets s x) : x ∈ g.first [s] := by
  obtain ⟨set, hset, hx⟩ := h
  rw [first, firstOfSequence, hset]
  simp only [firstOfSequence]
  split
  · rw [OrderedSet.mem_union, OrderedSet.mem_erase, OrderedSet.mem_singleton]
    by_cases hne : x = g.empty
    · exact Or.inr hne
    · exact Or.inl ⟨hx, hne⟩
  · exact hx

/-- The FIRST set of a terminal is the terminal. -/
theorem WellFormed.firstSets_terminal (wf : g.WellFormed) {a : SymbolId} (ha : g.isTerminal a = true) :
    Begins g.firstSets a a :=
  ⟨_, wf.firstSets_fixed.1.self ha, OrderedSet.mem_singleton.mpr rfl⟩

/-- FIRST sets hold terminals only. -/
theorem WellFormed.isTerminal_of_mem_first (wf : g.WellFormed) {l : List SymbolId} {x : SymbolId} (h : x ∈ g.first l) :
    g.isTerminal x = true := by
  rcases begins_of_mem_firstOfSequence h with rfl | ⟨s, hs⟩
  · exact wf.empty
  · exact (wf.firstSets_fixed.1.terminals hs).2

/-- **The inclusion of a production**: its head begins with whatever its body begins with. -/
theorem WellFormed.begins_head (wf : g.WellFormed) {id : ProductionId} {p : Production}
    (hp : g.production? id = some p) {x : SymbolId} (hx : x ∈ g.first p.body) : Begins g.firstSets p.head x := by
  obtain ⟨inv, hfixed⟩ := wf.firstSets_fixed
  rw [firstRound, ← Array.foldl_toList] at hfixed
  have hp' : p ∈ g.productions.toList := Array.mem_toList_iff.mpr (Array.mem_of_getElem? hp)
  rw [← growFirst_of_foldl_eq hfixed p hp']
  obtain ⟨s, hs, -⟩ := wf.head hp
  have hlt : p.head < g.firstSets.size := by
    rw [inv.size]
    exact (Array.getElem?_eq_some_iff.mp (Option.join_eq_some_iff.mp hs)).1
  exact begins_growFirst.mpr (Or.inr ⟨rfl, hlt, hx⟩)

end Grammar

end ShaderFront
