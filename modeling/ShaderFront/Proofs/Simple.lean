import Mathlib
import ShaderFront.Proofs.Vanishing

/-!
# Tables without conflicts, from less than their states

Whether a table has conflicts can be decided without its states. It is enough to know of each state which cores it may hold
at most (`Grammar.CoresWithin`), and of each nonterminal which terminals may follow it at most (`Grammar.Follows`). If two
actions never meet on that account, no construction has a conflict (`Grammar.WellFormed.conflicts_eq_nil`).

The accounts are upper bounds: a core may be listed in a state that does not hold it, and a terminal may be listed that
never follows. The proof goes along `Grammar.Reached` and carries over to unions, since kernels determine cores.
-/

namespace ShaderFront.Grammar

variable {g : Grammar} {Q : Type} {holds : Q → Core → Prop} {follow : SymbolId → SymbolId → Prop}

/-! ## Cores -/

/-- Every reached set has its cores in one of some collections, the members of `Q`. -/
structure CoresWithin (g : Grammar) (holds : Q → Core → Prop) : Prop where
  start : ∃ q, ∀ {id : ProductionId} {p : Production}, g.production? id = some p → p.head = g.start → holds q ⟨id, 0⟩
  expand : ∀ {q : Q} {core : Core} {p p' : Production} {id : ProductionId}, holds q core →
    g.production? core.production = some p → p.body[core.dot]? = some p'.head → g.production? id = some p' → holds q ⟨id, 0⟩
  advance : ∀ (q : Q) (symbol : SymbolId), ∃ q', ∀ {core : Core} {p : Production}, holds q core →
    g.production? core.production = some p → p.body[core.dot]? = some symbol → holds q' ⟨core.production, core.dot + 1⟩

theorem CoresWithin.demands (h : g.CoresWithin holds) (wf : g.WellFormed) {q : Q} {i j : Item} (hi : holds q i.core)
    (hij : g.Demands i j) : holds q j.core := by
  obtain ⟨p, symbol, s, hp, hsymbol, hs, -, hj, hdot, -⟩ := mem_demanded.mp hij
  obtain ⟨p', hp', rfl⟩ := (wf.alternatives hs _).mp hj
  rw [Item.core, hdot]
  exact h.expand hi hp hsymbol hp'

theorem CoresWithin.yields (h : g.CoresWithin holds) (wf : g.WellFormed) {q : Q} {i j : Item} (hi : holds q i.core)
    (hij : g.Yields i j) : holds q j.core := by
  induction hij with
  | refl => exact hi
  | tail _ hstep ih => exact h.demands wf ih hstep

theorem CoresWithin.reached (h : g.CoresWithin holds) (wf : g.WellFormed) {R : ItemSet} (hR : g.Reached R) :
    ∃ q, ∀ i ∈ R, holds q i.core := by
  induction hR with
  | initial =>
    obtain ⟨q, hq⟩ := h.start
    refine ⟨q, fun i hi => ?_⟩
    obtain ⟨id, p, hp, hhead, hyields⟩ := wf.mem_initialItemSet.mp hi
    exact h.yields wf (i := ⟨id, 0, g.endOfInput⟩) (hq hp hhead) hyields
  | @goto S symbol _ _ ih =>
    obtain ⟨q, hq⟩ := ih
    obtain ⟨q', hq'⟩ := h.advance q symbol
    refine ⟨q', fun i hi => ?_⟩
    obtain ⟨j, hj, hnext, hyields⟩ := wf.mem_gotoNext.mp hi
    obtain ⟨p, hp, hsymbol⟩ := nextSymbol_eq_some.mp hnext
    exact h.yields wf (i := j.advanced) (hq' (hq j hj) hp hsymbol) hyields

/-- A union of reached sets has no other cores than each of them. -/
theorem CoresWithin.joined (h : g.CoresWithin holds) (wf : g.WellFormed) {K : Kernel} {S : ItemSet} (hS : g.Joined K S) :
    ∃ q, ∀ i ∈ S, holds q i.core := by
  obtain ⟨R, hR, hK, -⟩ := hS.part
  obtain ⟨q, hq⟩ := h.reached wf hR
  refine ⟨q, fun i hi => ?_⟩
  obtain ⟨j, hj, hcore⟩ := (hS.isState wf).coresIn wf (hR.isState wf) (hS.kernel_eq.trans hK.symm) i hi
  exact hcore ▸ hq j hj

/-! ## Lookaheads -/

/-- A terminal begins with itself. -/
theorem WellFormed.eq_of_mem_first_terminal (wf : g.WellFormed) {a x : SymbolId} (ha : g.isTerminal a = true)
    (h : x ∈ g.first [a]) : x = a ∨ x = g.empty := by
  have hset := wf.firstSets_fixed.1.self ha
  rw [first, firstOfSequence, hset] at h
  simp only [firstOfSequence] at h
  split at h
  · rcases OrderedSet.mem_union.mp h with h | h
    · exact Or.inl (OrderedSet.mem_singleton.mp (OrderedSet.mem_erase.mp h).1)
    · exact Or.inr (OrderedSet.mem_singleton.mp h)
  · exact Or.inl (OrderedSet.mem_singleton.mp h)

/-- The terminals that follow a nonterminal are among some. -/
structure Follows (g : Grammar) (follow : SymbolId → SymbolId → Prop) : Prop where
  start : follow g.start g.endOfInput
  first : ∀ {id : ProductionId} {p : Production} {dot : Nat} {symbol a : SymbolId}, g.production? id = some p →
    p.body[dot]? = some symbol → g.isTerminal symbol = false → a ∈ g.first (p.body.drop (dot + 1)) → a ≠ g.empty →
    follow symbol a
  last : ∀ {id : ProductionId} {p : Production} {dot : Nat} {symbol a : SymbolId}, g.production? id = some p →
    p.body[dot]? = some symbol → g.isTerminal symbol = false → g.empty ∈ g.first (p.body.drop (dot + 1)) →
    follow p.head a → follow symbol a

/-- The lookahead of an item follows the head of its production. -/
def Expected (g : Grammar) (follow : SymbolId → SymbolId → Prop) (i : Item) : Prop :=
  ∀ p, g.production? i.production = some p → follow p.head i.lookahead

theorem Follows.demands (h : g.Follows follow) (wf : g.WellFormed) {i j : Item} (hvalid : g.ValidItem i)
    (hi : g.Expected follow i) (hij : g.Demands i j) : g.Expected follow j := by
  intro p' hp'
  obtain ⟨p, symbol, s, hp, hsymbol, hs, hnone, hj, -, hfollowers⟩ := mem_demanded.mp hij
  obtain ⟨q, hq, rfl⟩ := (wf.alternatives hs _).mp hj
  cases hq.symm.trans hp'
  have hterminal : g.isTerminal p'.head = false := by simp [isTerminal, hs, hnone]
  obtain ⟨hfirst, hne⟩ := mem_followers.mp hfollowers
  rcases (mem_first_append _ _).mp hfirst with ⟨hrest, -⟩ | ⟨hempty, hlookahead⟩
  · exact h.first hp hsymbol hterminal hrest hne
  · have heq : j.lookahead = i.lookahead :=
      (wf.eq_of_mem_first_terminal hvalid.lookahead hlookahead).resolve_right hne
    rw [heq]
    exact h.last hp hsymbol hterminal hempty (hi p hp)

theorem Follows.yields (h : g.Follows follow) (wf : g.WellFormed) {i j : Item} (hvalid : g.ValidItem i)
    (hi : g.Expected follow i) (hij : g.Yields i j) : g.Expected follow j := by
  induction hij with
  | refl => exact hi
  | tail hfirst hstep ih => exact h.demands wf (wf.validItem_of_yields hvalid hfirst) ih hstep

theorem Follows.reached (h : g.Follows follow) (wf : g.WellFormed) {R : ItemSet} (hR : g.Reached R) :
    ∀ i ∈ R, g.Expected follow i := by
  induction hR with
  | initial =>
    intro i hi
    obtain ⟨id, p, hp, hhead, hyields⟩ := wf.mem_initialItemSet.mp hi
    refine h.yields wf (wf.validItem_initial hp) (fun p' hp' => ?_) hyields
    cases hp.symm.trans hp'
    rw [hhead]
    exact h.start
  | @goto S symbol hS _ ih =>
    intro i hi
    obtain ⟨j, hj, hnext, hyields⟩ := wf.mem_gotoNext.mp hi
    have hvalid := ((hS.isState wf).valid j hj).advanced hnext
    exact h.yields wf hvalid (ih j hj) hyields

/-- A union of reached sets has no other lookaheads than those of its parts. -/
theorem Follows.joined (h : g.Follows follow) (wf : g.WellFormed) {K : Kernel} {S : ItemSet} (hS : g.Joined K S) :
    ∀ i ∈ S, g.Expected follow i := by
  intro i hi
  obtain ⟨R, hR, -, -, hmem⟩ := hS.cover i hi
  exact h.reached wf hR i hmem

/-! ## Conflicts -/

/-- Where nothing is left to read, the dot is at the end. -/
theorem ValidItem.dot_eq {i : Item} (h : g.ValidItem i) {p : Production} (hp : g.production? i.production = some p)
    (hnone : p.body[i.dot]? = none) : i.dot = p.body.length := by
  obtain ⟨p', hp', hle⟩ := h.production
  cases hp.symm.trans hp'
  exact Nat.le_antisymm hle (List.getElem?_eq_none_iff.mp hnone)

/-- On two accounts no two actions meet. -/
structure Apart (g : Grammar) (holds : Q → Core → Prop) (follow : SymbolId → SymbolId → Prop) : Prop where
  covers : g.CoresWithin holds
  follows : g.Follows follow
  shift : ∀ {q : Q} {id : ProductionId} {p : Production} {core : Core} {p' : Production} {a : SymbolId},
    g.production? id = some p → holds q ⟨id, p.body.length⟩ → holds q core → g.production? core.production = some p' →
    p'.body[core.dot]? = some a → g.isTerminal a = true → ¬follow p.head a
  reduce : ∀ {q : Q} {id id' : ProductionId} {p p' : Production} {a : SymbolId}, g.production? id = some p →
    g.production? id' = some p' → holds q ⟨id, p.body.length⟩ → holds q ⟨id', p'.body.length⟩ → follow p.head a →
    follow p'.head a → id = id'

/-- **No construction has a conflict where no two actions meet.** -/
theorem WellFormed.conflicts_eq_nil (wf : g.WellFormed) (h : g.Apart holds follow) (construction : Construction) :
    (g.table construction).conflicts = [] := by
  refine conflicts_eq_nil_iff.mpr fun i S hS => ?_
  have hjoined := (wf.automaton construction).joined hS
  obtain ⟨q, hq⟩ := h.covers.joined wf hjoined
  have hexpected := h.follows.joined wf hjoined
  -- a complete item and a symbol that is read do not meet
  have hshift : ∀ {item item' : Item} {p : Production} {a : SymbolId}, item ∈ S → item' ∈ S →
      g.nextSymbol item = some a → g.isTerminal a = true → g.production? item'.production = some p →
      p.body[item'.dot]? = none → a ≠ item'.lookahead := by
    intro item item' p a hitem hitem' hnext hterminal hp hnone heq
    obtain ⟨p', hp', ha⟩ := nextSymbol_eq_some.mp hnext
    have hdot := ((hjoined.isState wf).valid item' hitem').dot_eq hp hnone
    have hcore := hq item' hitem'
    rw [Item.core, hdot] at hcore
    exact h.shift hp hcore (hq item hitem) hp' ha hterminal (heq ▸ hexpected item' hitem' p hp)
  have hreduce : ∀ {item item' : Item} {p p' : Production}, item ∈ S → item' ∈ S →
      g.production? item.production = some p → p.body[item.dot]? = none → g.production? item'.production = some p' →
      p'.body[item'.dot]? = none → item.lookahead = item'.lookahead → p = p' := by
    intro item item' p p' hitem hitem' hp hnone hp' hnone' heq
    have hcore := hq item hitem
    have hcore' := hq item' hitem'
    rw [Item.core, ((hjoined.isState wf).valid item hitem).dot_eq hp hnone] at hcore
    rw [Item.core, ((hjoined.isState wf).valid item' hitem').dot_eq hp' hnone'] at hcore'
    have hid := h.reduce hp hp' hcore hcore' (hexpected item hitem p hp) (heq ▸ hexpected item' hitem' p' hp')
    rw [hid] at hp
    exact Option.some.inj (hp.symm.trans hp')
  intro item hitem item' hitem' symbol action action' hdemand hdemand'
  rcases demand?_eq_act hdemand with ⟨t, hnext, hterminal, ht, rfl⟩ | ⟨p, hp, hnone, hcase⟩ <;>
    rcases demand?_eq_act hdemand' with ⟨t', hnext', hterminal', ht', rfl⟩ | ⟨p', hp', hnone', hcase'⟩
  · rw [Option.some.inj (ht.symm.trans ht')]
  · have hne := hshift hitem hitem' hnext hterminal hp' hnone'
    rcases hcase' with ⟨-, hlookahead, rfl, -⟩ | ⟨-, rfl, -⟩
    · exact absurd hlookahead.symm hne
    · exact absurd rfl hne
  · have hne := hshift hitem' hitem hnext' hterminal' hp hnone
    rcases hcase with ⟨-, hlookahead, rfl, -⟩ | ⟨-, rfl, -⟩
    · exact absurd hlookahead.symm hne
    · exact absurd rfl hne
  · have hlookahead : item.lookahead = item'.lookahead := by
      rcases hcase with ⟨-, h₁, h₂, -⟩ | ⟨-, h₁, -⟩ <;> rcases hcase' with ⟨-, h₃, h₄, -⟩ | ⟨-, h₃, -⟩ <;> simp_all
    obtain rfl := hreduce hitem hitem' hp hnone hp' hnone' hlookahead
    rw [← hlookahead] at hcase'
    rcases hcase with ⟨h₁, h₂, -, rfl⟩ | ⟨h₁, -, rfl⟩ <;> rcases hcase' with ⟨h₃, h₄, -, rfl⟩ | ⟨h₃, -, rfl⟩
    · rfl
    · exact absurd ⟨h₁, h₂⟩ h₃
    · exact absurd ⟨h₃, h₄⟩ h₁
    · rfl

end ShaderFront.Grammar
