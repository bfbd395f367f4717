import Mathlib
import ShaderFront.Automaton.Closure
import ShaderFront.Proofs.First

/-!
# CLOSURE by demands

An item demands the alternatives of the nonterminal after its dot. The closure of a set holds exactly what its items
demand in any number of steps (`Grammar.WellFormed.mem_closure`): the worklist only adds demanded items
(`Grammar.Saturates`), and it runs empty before its bound is used up, because every item enters it once
(`Grammar.WellFormed.acc_looks`). The order in which pending items are looked at does not matter.

Everything else is a consequence of that description: a closure is the least saturated set and additive, and
so is GOTO (`Grammar.WellFormed.mem_gotoNext`). Main statement: `Grammar.closure_least`.
-/

namespace ShaderFront.Grammar

variable {g : Grammar}

/-! ## Demands -/

/-- The lookaheads of an expansion. -/
theorem mem_followers {p : Production} {i : Item} {a : SymbolId} :
    a ∈ g.followers p i ↔ a ∈ g.first (p.after (i.dot + 1) ++ [i.lookahead]) ∧ a ≠ g.empty := by
  rw [followers, ← OrderedSet.mem_def, OrderedSet.mem_erase]

/-- What an item demands. -/
theorem mem_demanded {i j : Item} : j ∈ g.demanded i ↔ ∃ p symbol s, g.production? i.production = some p ∧
    p.symbolAt i.dot = some symbol ∧ g.symbol? symbol = some s ∧ s.isTerminal = false ∧
    j.production ∈ s.productions ∧ j.dot = 0 ∧ j.lookahead ∈ g.followers p i := by
  unfold demanded
  cases hp : g.production? i.production with
  | none => simp
  | some p =>
    cases hsymbol : p.symbolAt i.dot with
    | none => simp [hsymbol]
    | some symbol =>
      cases hs : g.symbol? symbol with
      | none => simp [hsymbol, hs]
      | some s =>
        simp only [hsymbol, Option.bind_some, hs]
        constructor
        · intro hj
          split at hj
          · exact absurd hj List.not_mem_nil
          · rename_i hterm
            obtain ⟨q, hq, hj⟩ := List.mem_flatMap.mp hj
            obtain ⟨a, ha, rfl⟩ := List.mem_map.mp hj
            exact ⟨p, symbol, s, rfl, hsymbol, hs, by simpa using hterm, hq, rfl, ha⟩
        · rintro ⟨p', symbol', s', hp', hsymbol', hs', hterm, hq, hdot, ha⟩
          cases hp'
          cases hsymbol.symm.trans hsymbol'
          cases hs.symm.trans hs'
          rw [if_neg (by simp [hterm])]
          refine List.mem_flatMap.mpr ⟨j.production, hq, List.mem_map.mpr ⟨j.lookahead, ha, ?_⟩⟩
          rw [← hdot]

/-- No item is demanded twice at once. -/
theorem WellFormed.nodup_demanded (wf : g.WellFormed) (i : Item) : (g.demanded i).Nodup := by
  unfold demanded
  split
  · exact List.nodup_nil
  · rename_i p _
    split
    · exact List.nodup_nil
    · rename_i s hs
      obtain ⟨symbol, -, hs⟩ := Option.bind_eq_some_iff.mp hs
      split
      · exact List.nodup_nil
      · refine List.nodup_flatMap.mpr ⟨fun q _ => ?_, ?_⟩
        · have hnodup : (g.followers p i).Nodup := OrderedSet.nodup_toList _
          exact hnodup.map fun a b hab => (Item.mk.inj hab).2.2
        · refine (wf.nodup_alternatives hs).imp fun hne => ?_
          intro j hj hj'
          obtain ⟨_, -, rfl⟩ := List.mem_map.mp hj
          obtain ⟨_, -, heq⟩ := List.mem_map.mp hj'
          exact hne (Item.mk.inj heq).1.symm

/-- Whether the first item is in need of the second one. -/
def Demands (g : Grammar) (i j : Item) : Prop := j ∈ g.demanded i

/-- The second item is demanded by the first one in any number of steps. -/
def Yields (g : Grammar) : Item → Item → Prop := Relation.ReflTransGen g.Demands

theorem Yields.refl (i : Item) : g.Yields i i := Relation.ReflTransGen.refl

/-- All items an item yields, apart from itself, have their dot in front. -/
theorem Yields.eq_or_dot {i j : Item} (h : g.Yields i j) : j = i ∨ j.dot = 0 := by
  cases h with
  | refl => exact Or.inl rfl
  | tail _ hstep =>
    obtain ⟨_, _, _, -, -, -, -, -, hdot, -⟩ := mem_demanded.mp hstep
    exact Or.inr hdot

/-! ## The worklist -/

/-- The items that are still to be looked at, in no order, and the items that are seen. -/
structure Worklist where
  pending : Multiset Item
  seen : Std.TreeSet Item

/-- The items that are seen, as a set. -/
def Worklist.items (w : Worklist) : ItemSet := ⟨w.seen.toList, Std.TreeSet.ordered_toList⟩

theorem Worklist.mem_items {w : Worklist} {i : Item} : i ∈ w.items ↔ i ∈ w.seen := Std.TreeSet.mem_toList

/-- The items an item demands that are not seen yet. -/
def newlyDemanded (g : Grammar) (seen : Std.TreeSet Item) (item : Item) : List Item :=
  (g.demanded item).filter (!seen.contains ·)

/-- One of the pending items is looked at, whichever it is: what it newly demands is seen, and pending. -/
inductive Looks (g : Grammar) : Worklist → Worklist → Prop
  | look (item : Item) (pending : Multiset Item) (seen : Std.TreeSet Item) :
      Looks g ⟨item ::ₘ pending, seen⟩ ⟨g.newlyDemanded seen item + pending, seen.insertMany (g.newlyDemanded seen item)⟩

/-- The items that can be demanded. -/
def expansions (g : Grammar) : Finset Item :=
  (Finset.range g.productions.size ×ˢ g.symbolIds).image fun (q, a) => ⟨q, 0, a⟩

theorem card_expansions_le (g : Grammar) : g.expansions.card ≤ g.expansionBound := by
  calc g.expansions.card ≤ (Finset.range g.productions.size ×ˢ g.symbolIds).card := Finset.card_image_le
    _ = g.productions.size * g.symbolIds.card := by rw [Finset.card_product, Finset.card_range]
    _ ≤ g.productions.size * g.symbols.length := Nat.mul_le_mul_left _ g.card_symbolIds_le

theorem WellFormed.mem_expansions (wf : g.WellFormed) {i j : Item} (h : g.Demands i j) : j ∈ g.expansions := by
  obtain ⟨p, symbol, s, -, -, hs, -, hq, hdot, ha⟩ := mem_demanded.mp h
  obtain ⟨q, hq, -⟩ := (wf.alternatives hs j.production).mp hq
  have hlt : j.production < g.productions.size := (Array.getElem?_eq_some_iff.mp hq).1
  have hmem := wf.mem_symbolIds_of_isTerminal (wf.isTerminal_of_mem_first (mem_followers.mp ha).1)
  refine Finset.mem_image.mpr ⟨(j.production, j.lookahead), ?_, ?_⟩
  · exact Finset.mem_product.mpr ⟨Finset.mem_range.mpr hlt, hmem⟩
  · rw [← hdot]

/-- The items that can be demanded and are not seen. -/
def unseen (g : Grammar) (seen : Std.TreeSet Item) : Finset Item := g.expansions.filter fun i => !seen.contains i

/-- What is left to be seen shrinks by what is new. -/
theorem WellFormed.card_unseen (wf : g.WellFormed) (item : Item) (seen : Std.TreeSet Item) :
    (g.unseen (seen.insertMany (g.newlyDemanded seen item))).card + (g.newlyDemanded seen item).length =
      (g.unseen seen).card := by
  set new := g.newlyDemanded seen item with hnew
  have hnodup : new.Nodup := (wf.nodup_demanded item).filter _
  have hmem : ∀ {i : Item}, i ∈ new → i ∈ g.expansions ∧ seen.contains i = false := by
    intro i hi
    obtain ⟨hi, hseen⟩ := List.mem_filter.mp hi
    exact ⟨wf.mem_expansions hi, by simpa using hseen⟩
  rw [← List.toFinset_card_of_nodup hnodup, ← Finset.card_union_of_disjoint]
  · congr 1
    ext i
    simp only [unseen, Finset.mem_union, Finset.mem_filter, List.mem_toFinset, Std.TreeSet.contains_insertMany_list]
    constructor
    · rintro (⟨hi, hcontains⟩ | hi)
      · exact ⟨hi, by simp_all⟩
      · exact ⟨(hmem hi).1, by simp [(hmem hi).2]⟩
    · rintro ⟨hi, hcontains⟩
      by_cases hin : i ∈ new
      · exact Or.inr hin
      · exact Or.inl ⟨hi, by simp_all⟩
  · refine Finset.disjoint_left.mpr fun i hi hin => ?_
    simp [unseen, List.mem_toFinset.mp hin] at hi

/-- How often pending items can still be looked at. -/
def Worklist.remaining (g : Grammar) (w : Worklist) : Nat := w.pending.card + (g.unseen w.seen).card

theorem WellFormed.remaining_of_looks (wf : g.WellFormed) {w w' : Worklist} (h : g.Looks w w') :
    w.remaining g = w'.remaining g + 1 := by
  obtain ⟨item, pending, seen⟩ := h
  have hcard := wf.card_unseen item seen
  simp only [Worklist.remaining, Multiset.card_cons, Multiset.card_add, Multiset.coe_card]
  omega

/-- **The worklist runs empty**, in whatever order pending items are looked at. -/
theorem WellFormed.acc_looks (wf : g.WellFormed) (w : Worklist) : Acc (fun w' w => g.Looks w w') w := by
  have hacc : Acc (fun w' w : Worklist => w'.remaining g < w.remaining g) w := (measure (Worklist.remaining g)).wf.apply w
  refine Subrelation.accessible (fun {w' w} h => ?_) hacc
  have hremaining := wf.remaining_of_looks h
  omega

/-- What the worklist keeps that starts with some items: it sees what they yield, and what a seen item demands is seen
unless the item is pending. -/
structure Saturates (g : Grammar) (start : ItemSet) (w : Worklist) : Prop where
  started : ∀ i ∈ start, i ∈ w.seen
  yielded : ∀ i ∈ w.seen, ∃ k ∈ start, g.Yields k i
  pending : ∀ i ∈ w.pending, i ∈ w.seen
  met : ∀ i ∈ w.seen, i ∈ w.pending ∨ ∀ j, g.Demands i j → j ∈ w.seen

/-- The worklist a closure starts with. -/
def Worklist.start (set : ItemSet) : Worklist := ⟨set.toList, .ofList set.toList⟩

theorem saturates_start (set : ItemSet) : g.Saturates set (.start set) := by
  have hseen : ∀ {i : Item}, i ∈ (.ofList set.toList : Std.TreeSet Item) ↔ i ∈ set := by
    intro i
    rw [Std.TreeSet.mem_ofList, List.contains_iff_mem, OrderedSet.mem_def]
  exact ⟨fun i hi => hseen.mpr hi, fun i hi => ⟨i, hseen.mp hi, Yields.refl i⟩, fun i hi => hseen.mpr hi,
    fun i hi => Or.inl (hseen.mp hi)⟩

/-- Looking at an item keeps what was seen and meets its demands. -/
theorem Saturates.look {start : ItemSet} {w w' : Worklist} (h : g.Saturates start w) (hlook : g.Looks w w') :
    g.Saturates start w' := by
  obtain ⟨item, pending, seen⟩ := hlook
  have hitem : item ∈ seen := h.pending item (Multiset.mem_cons_self item pending)
  have hkeep : ∀ {i : Item}, i ∈ seen → i ∈ seen.insertMany (g.newlyDemanded seen item) :=
    fun hi => Std.TreeSet.mem_insertMany_list.mpr (Or.inl hi)
  have hnew : ∀ {i : Item}, i ∈ g.newlyDemanded seen item → i ∈ seen.insertMany (g.newlyDemanded seen item) :=
    fun hi => Std.TreeSet.mem_insertMany_list.mpr (Or.inr (List.contains_iff_mem.mpr hi))
  have hdemands : ∀ j, g.Demands item j → j ∈ seen.insertMany (g.newlyDemanded seen item) := by
    intro j hj
    by_cases hseen : j ∈ seen
    · exact hkeep hseen
    · rw [Std.TreeSet.mem_iff_contains, Bool.not_eq_true] at hseen
      exact hnew (List.mem_filter.mpr ⟨hj, by rw [hseen]; rfl⟩)
  refine ⟨fun i hi => hkeep (h.started i hi), fun i hi => ?_, fun i hi => ?_, fun i hi => ?_⟩
  · rcases Std.TreeSet.mem_insertMany_list.mp hi with hi | hi
    · exact h.yielded i hi
    · obtain ⟨k, hk, hyields⟩ := h.yielded item hitem
      exact ⟨k, hk, hyields.tail (List.mem_filter.mp (List.contains_iff_mem.mp hi)).1⟩
  · rcases Multiset.mem_add.mp hi with hi | hi
    · exact hnew (Multiset.mem_coe.mp hi)
    · exact hkeep (h.pending i (Multiset.mem_cons_of_mem hi))
  · -- a seen item is pending, or was the one looked at, or had its demands met before
    rcases Std.TreeSet.mem_insertMany_list.mp hi with hi | hi
    · rcases h.met i hi with hpending | hmet
      · rcases Multiset.mem_cons.mp hpending with rfl | hpending
        · exact Or.inr hdemands
        · exact Or.inl (Multiset.mem_add.mpr (Or.inr hpending))
      · exact Or.inr fun j hj => hkeep (hmet j hj)
    · exact Or.inl (Multiset.mem_add.mpr (Or.inl (Multiset.mem_coe.mpr (List.contains_iff_mem.mp hi))))

theorem Saturates.looks {start : ItemSet} {w w' : Worklist} (h : g.Saturates start w)
    (hlooks : Relation.ReflTransGen g.Looks w w') : g.Saturates start w' := by
  induction hlooks with
  | refl => exact h
  | tail _ hlook ih => exact ih.look hlook

/-- **An empty worklist has seen what the first items yield, and nothing else.** -/
theorem Saturates.mem_items {start : ItemSet} {w : Worklist} (h : g.Saturates start w) (hempty : w.pending = 0) {i : Item} :
    i ∈ w.items ↔ ∃ k ∈ start, g.Yields k i := by
  rw [Worklist.mem_items]
  constructor
  · exact h.yielded i
  · rintro ⟨k, hk, hyields⟩
    induction hyields with
    | refl => exact h.started k hk
    | tail _ hdemands ih =>
      refine (h.met _ ih).elim (fun hpending => ?_) fun hmet => hmet _ hdemands
      rw [hempty] at hpending
      exact absurd hpending (Multiset.notMem_zero _)

/-- With enough steps left, `closeOver` looks at pending items until there are none. -/
theorem WellFormed.closeOver_looks (wf : g.WellFormed) : ∀ (fuel : Nat) (pending : List Item) (seen : Std.TreeSet Item),
    Worklist.remaining g ⟨pending, seen⟩ < fuel → ∃ w, Relation.ReflTransGen g.Looks ⟨pending, seen⟩ w ∧ w.pending = 0 ∧
      w.seen = g.closeOver fuel pending seen
  | 0, _, _, hfuel => absurd hfuel (Nat.not_lt_zero _)
  | _ + 1, [], seen, _ => ⟨⟨0, seen⟩, .refl, rfl, rfl⟩
  | fuel + 1, item :: pending, seen, hfuel => by
    have hlook : g.Looks ⟨(item :: pending : List Item), seen⟩
        ⟨(g.newlyDemanded seen item ++ pending : List Item), seen.insertMany (g.newlyDemanded seen item)⟩ := by
      rw [← Multiset.cons_coe, ← Multiset.coe_add]
      exact .look item pending seen
    have hremaining := wf.remaining_of_looks hlook
    obtain ⟨w, hlooks, hempty, hseen⟩ := WellFormed.closeOver_looks wf fuel (g.newlyDemanded seen item ++ pending)
      (seen.insertMany (g.newlyDemanded seen item)) (by omega)
    exact ⟨w, .head hlook hlooks, hempty, hseen⟩

/-! ## Closures -/

/-- A closure is what the worklist has seen when it is empty. -/
theorem WellFormed.closure_looks (wf : g.WellFormed) (set : ItemSet) :
    ∃ w, Relation.ReflTransGen g.Looks (.start set) w ∧ w.pending = 0 ∧ w.items = g.closure set := by
  have hfuel : (Worklist.start set).remaining g < set.size + g.expansionBound + 1 := by
    have hunseen : (g.unseen (.ofList set.toList)).card ≤ g.expansions.card := Finset.card_filter_le _ _
    have hbound := g.card_expansions_le
    simp only [Worklist.remaining, Worklist.start, Multiset.coe_card, OrderedSet.size]
    omega
  obtain ⟨w, hlooks, hempty, hseen⟩ := wf.closeOver_looks _ _ _ hfuel
  exact ⟨w, hlooks, hempty, OrderedSet.eq_of_toList_eq (congrArg Std.TreeSet.toList hseen)⟩

/-- **The closure of a set holds what its items yield, and nothing else.** -/
theorem WellFormed.mem_closure (wf : g.WellFormed) {set : ItemSet} {x : Item} :
    x ∈ g.closure set ↔ ∃ i ∈ set, g.Yields i x := by
  obtain ⟨w, hlooks, hempty, hitems⟩ := wf.closure_looks set
  rw [← hitems]
  exact ((saturates_start set).looks hlooks).mem_items hempty

/-- **GOTO, item by item.** -/
theorem WellFormed.mem_gotoNext (wf : g.WellFormed) {set : ItemSet} {symbol : SymbolId} {x : Item} :
    x ∈ g.gotoNext set symbol ↔ ∃ i ∈ set, g.nextSymbol i = some symbol ∧ g.Yields i.advanced x := by
  rw [gotoNext, wf.mem_closure]
  constructor
  · rintro ⟨j, hj, hx⟩
    obtain ⟨i, hi, rfl⟩ := List.mem_map.mp (OrderedSet.mem_ofList.mp hj)
    obtain ⟨hi, hnext⟩ := List.mem_filter.mp hi
    exact ⟨i, hi, by simpa using hnext, hx⟩
  · rintro ⟨i, hi, hnext, hx⟩
    refine ⟨i.advanced, OrderedSet.mem_ofList.mpr (List.mem_map.mpr ⟨i, ?_, rfl⟩), hx⟩
    exact List.mem_filter.mpr ⟨hi, by simpa using hnext⟩

/-- The initial item set, item by item. -/
theorem WellFormed.mem_initialItemSet (wf : g.WellFormed) {x : Item} : x ∈ g.initialItemSet ↔
    ∃ id p, g.production? id = some p ∧ p.head = g.start ∧ g.Yields ⟨id, 0, g.endOfInput⟩ x := by
  obtain ⟨s, hs, -⟩ := wf.start
  rw [initialItemSet, wf.mem_closure]
  simp only [hs]
  constructor
  · rintro ⟨j, hj, hx⟩
    obtain ⟨id, hid, rfl⟩ := List.mem_map.mp (OrderedSet.mem_ofList.mp hj)
    obtain ⟨p, hp, hhead⟩ := (wf.alternatives hs id).mp hid
    exact ⟨id, p, hp, hhead, hx⟩
  · rintro ⟨id, p, hp, hhead, hx⟩
    refine ⟨_, OrderedSet.mem_ofList.mpr (List.mem_map.mpr ⟨id, ?_, rfl⟩), hx⟩
    exact (wf.alternatives hs id).mpr ⟨p, hp, hhead⟩

/-! ## Least closed sets -/

/-- A set holds, with every item whose dot is in front of a nonterminal, the productions of that nonterminal with their dot
in front, under all terminals that can follow it. -/
def Saturated (g : Grammar) (set : ItemSet) : Prop :=
  ∀ i ∈ set, ∀ p symbol, g.production? i.production = some p → p.symbolAt i.dot = some symbol → g.isTerminal symbol = false →
    ∀ id q, g.production? id = some q → q.head = symbol →
      ∀ a ∈ g.first (p.after (i.dot + 1) ++ [i.lookahead]), a ≠ g.empty → ⟨id, 0, a⟩ ∈ set

/-- A set is saturated iff it holds what its items demand. -/
theorem WellFormed.saturated_iff (wf : g.WellFormed) {set : ItemSet} :
    g.Saturated set ↔ ∀ i ∈ set, ∀ j, g.Demands i j → j ∈ set := by
  constructor
  · intro h i hi j hj
    obtain ⟨p, symbol, s, hp, hsymbol, hs, hterminal, hid, hdot, ha⟩ := mem_demanded.mp hj
    obtain ⟨q, hq, hhead⟩ := (wf.alternatives hs j.production).mp hid
    obtain ⟨hfirst, hne⟩ := mem_followers.mp ha
    have hnonterminal : g.isTerminal symbol = false := by rw [isTerminal, hs, Option.any_some, hterminal]
    have hmem := h i hi p symbol hp hsymbol hnonterminal j.production q hq hhead j.lookahead hfirst hne
    rwa [← hdot] at hmem
  · intro h i hi p symbol hp hsymbol hnonterminal id q hq hhead a ha hne
    obtain ⟨s, hs, hterminal⟩ := wf.head hq
    rw [hhead] at hs
    have hid : id ∈ s.productions := (wf.alternatives hs id).mpr ⟨q, hq, hhead⟩
    exact h i hi _ (mem_demanded.mpr ⟨p, symbol, s, hp, hsymbol, hs, hterminal, hid, rfl, mem_followers.mpr ⟨ha, hne⟩⟩)

theorem WellFormed.subset_closure (wf : g.WellFormed) (set : ItemSet) : ∀ i ∈ set, i ∈ g.closure set :=
  fun i hi => wf.mem_closure.mpr ⟨i, hi, Yields.refl i⟩

theorem WellFormed.saturated_closure (wf : g.WellFormed) (set : ItemSet) : g.Saturated (g.closure set) := by
  refine wf.saturated_iff.mpr fun i hi j hj => ?_
  obtain ⟨k, hk, hyields⟩ := wf.mem_closure.mp hi
  exact wf.mem_closure.mpr ⟨k, hk, hyields.tail hj⟩

/-- A saturated set holds what its items yield. -/
theorem WellFormed.mem_of_yields (wf : g.WellFormed) {set : ItemSet} (h : g.Saturated set) {i j : Item} (hi : i ∈ set)
    (hyields : g.Yields i j) : j ∈ set := by
  induction hyields with
  | refl => exact hi
  | tail _ hdemands ih => exact wf.saturated_iff.mp h _ ih _ hdemands

theorem WellFormed.closure_subset (wf : g.WellFormed) {set S : ItemSet} (hsub : ∀ i ∈ set, i ∈ S) (h : g.Saturated S) :
    ∀ i ∈ g.closure set, i ∈ S := by
  intro i hi
  obtain ⟨k, hk, hyields⟩ := wf.mem_closure.mp hi
  exact wf.mem_of_yields h (hsub k hk) hyields

/-- The saturated sets are the closures of themselves. -/
theorem WellFormed.closure_eq_self (wf : g.WellFormed) {set : ItemSet} (h : g.Saturated set) : g.closure set = set :=
  OrderedSet.ext fun i => ⟨wf.closure_subset (fun _ hi => hi) h i, wf.subset_closure set i⟩

theorem WellFormed.closure_union (wf : g.WellFormed) (S T : ItemSet) : g.closure (S ∪ T) = g.closure S ∪ g.closure T := by
  refine OrderedSet.ext fun i => ?_
  simp only [wf.mem_closure, OrderedSet.mem_union, or_and_right, exists_or]

theorem WellFormed.gotoNext_union (wf : g.WellFormed) (S T : ItemSet) (symbol : SymbolId) :
    g.gotoNext (S ∪ T) symbol = g.gotoNext S symbol ∪ g.gotoNext T symbol := by
  refine OrderedSet.ext fun i => ?_
  simp only [wf.mem_gotoNext, OrderedSet.mem_union, or_and_right, exists_or]

/-- **CLOSURE is the least saturated superset, and additive**, for every grammar a builder gives and every set of items. Computing
it ends, whichever pending item is looked at next, and all runs of the worklist end with the closure. So a closure is its own
closure, and closures and GOTOs of unions are unions of closures and GOTOs. -/
theorem closure_least {requests : List Builder.Request} {g : Grammar} (hbuild : (Builder.after requests).build = .ok g) :
    (∀ set : ItemSet, ((∀ i ∈ set, i ∈ g.closure set) ∧ g.Saturated (g.closure set) ∧
        ∀ S, (∀ i ∈ set, i ∈ S) → g.Saturated S → ∀ i ∈ g.closure set, i ∈ S) ∧
      Acc (fun w' w => g.Looks w w') (.start set) ∧
      ∀ w, Relation.ReflTransGen g.Looks (.start set) w → w.pending = 0 → w.items = g.closure set) ∧
    (∀ set, g.closure (g.closure set) = g.closure set) ∧
    (∀ S T, g.closure (S ∪ T) = g.closure S ∪ g.closure T) ∧
    ∀ S T symbol, g.gotoNext (S ∪ T) symbol = g.gotoNext S symbol ∪ g.gotoNext T symbol := by
  have wf := wellFormed_of_build hbuild
  refine ⟨fun set => ⟨⟨wf.subset_closure set, wf.saturated_closure set, fun S hsub h => wf.closure_subset hsub h⟩,
    wf.acc_looks _, fun w hlooks hempty => ?_⟩, fun set => wf.closure_eq_self (wf.saturated_closure set), wf.closure_union,
    wf.gotoNext_union⟩
  exact OrderedSet.ext fun i => (((saturates_start set).looks hlooks).mem_items hempty).trans wf.mem_closure.symm

/-- An item of nested parentheses is expanded; an unknown production and a dot behind the end of a body are kept as they are. -/
theorem closure_least_unknown :
    let expanded : ItemSet := .ofList [⟨1, 1, 2⟩]
    let unknown : ItemSet := .ofList [⟨9, 0, 1⟩, ⟨1, 7, 8⟩]
    (parentheses.closure expanded).toList = [⟨1, 0, 2⟩, ⟨1, 1, 2⟩, ⟨2, 0, 2⟩] ∧ parentheses.closure unknown = unknown ∧
      parentheses.closure (expanded ∪ unknown) = parentheses.closure expanded ∪ unknown := by
  intro expanded unknown
  have hexpanded : (parentheses.closure expanded).toList = [⟨1, 0, 2⟩, ⟨1, 1, 2⟩, ⟨2, 0, 2⟩] := by decide +kernel
  have hunknown : parentheses.closure unknown = unknown := by decide +kernel
  obtain ⟨-, -, hunion, -⟩ := closure_least build_parentheses
  exact ⟨hexpanded, hunknown, by rw [hunion, hunknown]⟩

end ShaderFront.Grammar
