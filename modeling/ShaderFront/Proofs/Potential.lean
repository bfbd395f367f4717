import Mathlib
import ShaderFront.Proofs.Attributes
import ShaderFront.Proofs.Viable

/-!
# Parses in linearly many moves

A reduction pays for itself. Every symbol on the stack is worth something, and a symbol on top of it more than one that is
buried. If the symbols of each body are worth more than its head, and a symbol on top is worth more than itself buried under
any nonterminal that can vanish there (`Grammar.Budget`), each reduction lowers the value of the stack, and a shift raises it
by a bounded amount. So a parse makes at most so many moves for each token (`Grammar.Budget.exists_last_move`).
-/

namespace ShaderFront.Grammar

open Engine

variable {g : Grammar} {c : Collection} {σ N : Type}

/-! ## Productions that an expansion brings in -/

/-- The expansion of a symbol brings in a production. -/
inductive Corner (g : Grammar) (symbol : SymbolId) : ProductionId → Prop
  | here {id : ProductionId} {p : Production} : g.production? id = some p → p.head = symbol → Corner g symbol id
  | deeper {id id' : ProductionId} {p p' : Production} : Corner g symbol id → g.production? id = some p →
      p.body[0]? = some p'.head → g.production? id' = some p' → Corner g symbol id'

theorem Corner.demands (wf : g.WellFormed) {symbol : SymbolId} {i j : Item} (hi : g.Corner symbol i.production)
    (hdot : i.dot = 0) (hij : g.Demands i j) : g.Corner symbol j.production := by
  obtain ⟨p, next, s, hp, hnext, hs, -, hj, -, -⟩ := mem_demanded.mp hij
  obtain ⟨p', hp', rfl⟩ := (wf.alternatives hs _).mp hj
  rw [hdot] at hnext
  exact hi.deeper hp hnext hp'

/-- What an item yields is brought in by the symbol after its dot. -/
theorem Yields.corner (wf : g.WellFormed) {i j : Item} (h : g.Yields i j) :
    j = i ∨ j.dot = 0 ∧ ∃ symbol, g.nextSymbol i = some symbol ∧ g.Corner symbol j.production := by
  induction h with
  | refl => exact .inl rfl
  | @tail k j _ hstep ih =>
    obtain ⟨p, next, s, hp, hnext, hs, -, hj, hzero, -⟩ := mem_demanded.mp hstep
    refine .inr ⟨hzero, ?_⟩
    rcases ih with rfl | ⟨hdot, symbol, hsymbol, hcorner⟩
    · obtain ⟨p', hp', hhead⟩ := (wf.alternatives hs _).mp hj
      exact ⟨next, nextSymbol_eq_some.mpr ⟨p, hp, hnext⟩, .here hp' hhead⟩
    · exact ⟨symbol, hsymbol, hcorner.demands wf hdot hstep⟩

theorem Corner.trans {symbol next : SymbolId} {id id' : ProductionId} {p : Production} (h : g.Corner symbol id)
    (hp : g.production? id = some p) (hnext : p.body[0]? = some next) (h' : g.Corner next id') : g.Corner symbol id' := by
  induction h' with
  | here hp' hhead => exact h.deeper hp (hhead ▸ hnext) hp'
  | deeper _ hp' hhead hp'' ih => exact ih.deeper hp' hhead hp''

/-- A kernel item with its dot in front belongs to a start production. -/
theorem exists_start_of_isKernelItem {i : Item} (h : g.isKernelItem i = true) (hdot : i.dot = 0) :
    ∃ p, g.production? i.production = some p ∧ p.head = g.start := by
  rw [isKernelItem, hdot] at h
  obtain ⟨p, hp, hhead⟩ := (Option.any_eq_true _ _).mp h
  exact ⟨p, hp, of_decide_eq_true hhead⟩

/-- A production with its dot in front stands in the start state because of the start symbol. -/
theorem Automaton.corner_start (wf : g.WellFormed) (hc : g.Automaton c) {S : ItemSet} (hS : c.states[startState]? = some S)
    {item : Item} (hitem : item ∈ S) : g.Corner g.start item.production := by
  obtain ⟨k, hk, hkernel, hyields⟩ := ((hc.joined hS).isState wf).generated item hitem
  have hdot := hc.dot_start wf hS hk
  obtain ⟨p, hp, hhead⟩ := exists_start_of_isKernelItem hkernel hdot
  rcases hyields.corner wf with rfl | ⟨-, next, hnext, hcorner⟩
  · exact .here hp hhead
  · obtain ⟨p', hp', hat⟩ := nextSymbol_eq_some.mp hnext
    rw [hdot] at hat
    exact (Corner.here hp hhead).trans hp' hat hcorner

/-- A production with its dot in front stands in any other state because of the symbol after the one that led there. -/
theorem Automaton.corner_of_target (wf : g.WellFormed) (haug : g.Augmented) (hc : g.Automaton c) {i t : StateId}
    {symbol : SymbolId} (ht : c.target? i symbol = some t) {T : ItemSet} (hT : c.states[t]? = some T) {item : Item}
    (hitem : item ∈ T) (hdot : item.dot = 0) : ∃ id p dot next, g.production? id = some p ∧ p.body[dot]? = some symbol ∧
      p.body[dot + 1]? = some next ∧ g.Corner next item.production := by
  obtain ⟨k, hk, hkernel, hyields⟩ := ((hc.joined hT).isState wf).generated item hitem
  obtain ⟨dot, hkdot⟩ : ∃ dot, k.dot = dot + 1 := by
    refine Nat.exists_eq_succ_of_ne_zero fun hzero => ?_
    obtain ⟨p, hp, hhead⟩ := exists_start_of_isKernelItem hkernel hzero
    exact hc.dot_ne_zero_of_start wf haug ht hT hk hp hhead hzero
  rcases hyields.corner wf with rfl | ⟨-, next, hnext, hcorner⟩
  · omega
  · obtain ⟨S, -, before, -, hproduction, hbefore, hsymbol⟩ := hc.exists_before wf ht hT hk hkdot
    obtain ⟨p, hp, hat⟩ := nextSymbol_eq_some.mp hsymbol
    obtain ⟨p', hp', hat'⟩ := nextSymbol_eq_some.mp hnext
    rw [hproduction] at hp
    cases hp.symm.trans hp'
    rw [hbefore] at hat
    rw [hkdot] at hat'
    exact ⟨_, p, dot, next, hp, hat, hat', hcorner⟩

/-! ## Budgets -/

/-- What symbols are worth on top of the stack and below it, so that each reduction costs something. The empty stack is worth
`ground`, and no token more than `cap`. -/
structure Budget (g : Grammar) (top buried : SymbolId → Nat) (ground cap : Nat) : Prop where
  le : ∀ symbol, buried symbol ≤ top symbol
  token : ∀ {symbol : SymbolId}, g.isTerminal symbol = true → top symbol ≤ cap
  body : ∀ {id : ProductionId} {p : Production} {init : List SymbolId} {last : SymbolId}, g.production? id = some p →
    p.body = init ++ [last] → top p.head < (init.map buried).sum + top last
  bottom : ∀ {id : ProductionId} {p : Production}, g.production? id = some p → p.body = [] → g.Corner g.start id →
    top p.head < ground
  hollow : ∀ {id id' : ProductionId} {p p' : Production} {dot : Nat} {symbol next : SymbolId}, g.production? id = some p →
    p.body = [] → g.production? id' = some p' → p'.body[dot]? = some symbol → p'.body[dot + 1]? = some next →
    g.Corner next id → top p.head + buried symbol < top symbol

variable {top buried : SymbolId → Nat} {ground cap : Nat}

/-- The value of a stack. -/
def value (top buried : SymbolId → Nat) (ground : Nat) : Trail → Nat
  | [] => ground
  | (symbol, _) :: below => top symbol + (below.map fun entry => buried entry.1).sum

/-- A symbol put on a stack raises its value by no more than its own worth. -/
theorem Budget.value_cons_le (h : g.Budget top buried ground cap) (symbol : SymbolId) (state : StateId) (trail : Trail) :
    value top buried ground ((symbol, state) :: trail) ≤ value top buried ground trail + top symbol := by
  cases trail with
  | nil => simp [value]
  | cons entry below =>
    have := h.le entry.1
    simp only [value, List.map_cons, List.sum_cons]
    omega

/-- **A reduction lowers the value of the stack.** -/
theorem Budget.value_reduce_lt (h : g.Budget top buried ground cap) (wf : g.WellFormed) (haug : g.Augmented)
    (hc : g.Automaton c) {trail : Trail} (htrail : IsTrail c trail) {id : ProductionId} {p : Production}
    (hp : g.production? id = some p) (hbody : (trail.take p.body.length).map Prod.fst = p.body.reverse) {S : ItemSet}
    (hS : c.states[Trail.state (trail.drop p.body.length)]? = some S) {item : Item} (hitem : item ∈ S)
    (hproduction : item.production = id) (hdot : item.dot = 0) (state : StateId) :
    value top buried ground ((p.head, state) :: trail.drop p.body.length) < value top buried ground trail := by
  rcases List.eq_nil_or_concat p.body with hempty | ⟨init, last, hconcat⟩
  · rw [hempty, List.length_nil, List.drop_zero] at hS ⊢
    subst hproduction
    cases htrail with
    | nil =>
      have := h.bottom hp hempty (hc.corner_start wf hS hitem)
      simpa [value] using this
    | @cons symbol state' below _ htarget =>
      obtain ⟨id', p', dot, next, hp', hat, hnext, hcorner⟩ := hc.corner_of_target wf haug htarget hS hitem hdot
      have := h.hollow hp hempty hp' hat hnext hcorner
      simp only [value, List.map_cons, List.sum_cons]
      omega
  · rw [List.concat_eq_append] at hconcat
    have hpays := h.body hp hconcat
    -- the symbols of the body lie on top, the last one first
    have hsplit : value top buried ground trail =
        top last + (init.map buried).sum + ((trail.drop p.body.length).map fun entry => buried entry.1).sum := by
      obtain ⟨front, hfront⟩ : ∃ front, trail.take p.body.length = front := ⟨_, rfl⟩
      rw [hfront, hconcat, List.reverse_append, List.reverse_singleton, List.singleton_append] at hbody
      obtain ⟨entry, rest, rfl, rfl, hrest⟩ := List.map_eq_cons_iff.mp hbody
      have htrail' : trail = entry :: (rest ++ trail.drop p.body.length) := by
        rw [← List.cons_append, ← hfront, List.take_append_drop]
      have hsum : (rest.map fun entry => buried entry.1).sum = (init.map buried).sum := by
        rw [← Function.comp_def buried, ← List.map_map, hrest, List.map_reverse, List.sum_reverse]
      nth_rewrite 1 [htrail']
      rw [value, List.map_append, List.sum_append, hsum, Nat.add_assoc]
    rw [hsplit, value]
    omega

/-! ## Runs -/

/-- What is pending once a token is read. -/
theorem pending_le {t : Tables} {lastEnd : Nat} {input : List Token} {config : Config σ N}
    (hlookahead : config.lookahead = (nextToken t lastEnd input).1) (hrest : config.rest = (nextToken t lastEnd input).2.1) :
    pending t config ≤ input.length := by
  rw [pending, hlookahead, hrest]
  cases input with
  | nil => simp [nextToken]
  | cons token rest =>
    rw [nextToken]
    dsimp only
    split <;> simp

/-- The value of the stack, and what the tokens to come may add. -/
def charge (top buried : SymbolId → Nat) (ground cap : Nat) (t : Tables) (trail : Trail) (config : Config σ N) : Nat :=
  value top buried ground trail + (cap + 1) * pending t config

variable {semantics : Semantics σ N}

/-- **One move lowers the charge.** -/
theorem Budget.step (h : g.Budget top buried ground cap) (wf : g.WellFormed) (haug : g.Augmented) (hc : g.Automaton c)
    {config next : Config σ N} {trail : Trail} (hspelled : g.Spelled c config.frames trail)
    (hstep : Engine.step (g.tableOf c).tables semantics config = .next next) :
    ∃ trail', g.Spelled c next.frames trail' ∧ charge top buried ground cap (g.tableOf c).tables trail' next <
      charge top buried ground cap (g.tableOf c).tables trail config := by
  rcases step_next hstep with ⟨target, haction, rfl⟩ | ⟨id, haction, hreduce⟩
  · obtain ⟨_, symbol, -, hterminal, htarget, hfits⟩ := shift_cases haction
    have hend : config.lookahead.symbol ≠ g.endOfInput := shift_ne_end haug.end_not_mem haction
    refine ⟨_, hspelled.cons htarget hfits, ?_⟩
    have hvalue := h.value_cons_le symbol target trail
    have hcap := h.token hterminal
    have hpending : pending (g.tableOf c).tables config = config.rest.length + 1 := by
      rw [pending, if_neg (show ¬config.lookahead.symbol = (g.tableOf c).tables.endOfInput from hend)]
    rw [charge, charge, hpending, Nat.mul_succ]
    refine Nat.lt_of_le_of_lt (Nat.add_le_add hvalue (Nat.mul_le_mul_left (cap + 1) (pending_le rfl rfl))) ?_
    omega
  · obtain ⟨S, item, p, hS, hitem, rfl, hp, hdot⟩ := reduce_sound wf hc haction
    rw [hspelled.topState_eq] at hS
    obtain ⟨-, hbody, -, S', hS', item', hitem', hproduction, hdot'⟩ := hspelled.1.pop wf hc p.body.length hS hitem hdot hp
    rw [List.take_length] at hbody
    obtain ⟨p', target, hp', -, -, hspelled', hlookahead, hrest⟩ := hspelled.reduce_next wf hc haction hreduce
    cases hp.symm.trans hp'
    refine ⟨_, hspelled', ?_⟩
    have hvalue := h.value_reduce_lt wf haug hc hspelled.1 hp hbody hS' hitem' hproduction hdot' target
    rw [charge, charge, pending, pending, hlookahead, hrest]
    omega

/-- **A parse ends within its charge.** -/
theorem Budget.exists_last_move (h : g.Budget top buried ground cap) (wf : g.WellFormed) (haug : g.Augmented)
    (hc : g.Automaton c) : ∀ (fuel : Nat) {config : Config σ N} {trail : Trail}, g.Spelled c config.frames trail →
      charge top buried ground cap (g.tableOf c).tables trail config < fuel →
      ∃ last, Steps (g.tableOf c).tables semantics config last ∧
        Engine.step (g.tableOf c).tables semantics last = .done (Engine.run (g.tableOf c).tables semantics fuel config)
  | 0, _, _, _, hlt => absurd hlt (Nat.not_lt_zero _)
  | fuel + 1, config, trail, hspelled, hlt => by
    rw [Engine.run]
    split
    · rename_i next hstep
      obtain ⟨trail', hspelled', hless⟩ := h.step wf haug hc hspelled hstep
      obtain ⟨last, hsteps, hlast⟩ := h.exists_last_move wf haug hc fuel hspelled' (by omega)
      exact ⟨last, .head hstep hsteps, hlast⟩
    · rename_i outcome hstep
      exact ⟨config, .refl, hstep⟩

end ShaderFront.Grammar
