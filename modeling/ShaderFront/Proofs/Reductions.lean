import Mathlib
import ShaderFront.Proofs.Vanishing

/-!
# Runs of reductions

Between two shifts the engine only reduces, and which reduction it makes depends on the state on top of a trail and on the
symbol ahead (`Grammar.Reduces`). In a table without conflicts such a run does what the items of its states ask for:

* `Grammar.Orderly.vanishes_reaches`: it reduces vanishing symbols out of nothing, where one of their followers is ahead;
* `Grammar.Orderly.starts_reaches`: it gets to shift a terminal that the rest of a body starts with;
* `Grammar.Orderly.stops_of_ahead`, `Grammar.Orderly.stops_of_waiting`: above a state where the terminal ahead is expected, the
  run stops, by a shift, by an acceptance or by a reduction that takes the state away.

The second one needs a productive grammar: an item of which no rest can be derived has no expansions, and what it waits for
is never shifted.
-/

namespace ShaderFront.Grammar

open Engine

variable {g : Grammar} {c : Collection} {a : SymbolId} {allowed : SymbolId → Prop}

/-! ## What can stand ahead of an item -/

/-- A terminal can stand ahead of the dot of an item. -/
def Ahead (g : Grammar) (i : Item) (a : SymbolId) : Prop :=
  ∃ p, g.production? i.production = some p ∧ a ∈ g.first (p.body.drop i.dot ++ [i.lookahead]) ∧ a ≠ g.empty

theorem Ahead.ne_empty {i : Item} (h : g.Ahead i a) : a ≠ g.empty := by
  obtain ⟨_, _, _, hne⟩ := h
  exact hne

theorem WellFormed.isTerminal_of_ahead (wf : g.WellFormed) {i : Item} (h : g.Ahead i a) : g.isTerminal a = true := by
  obtain ⟨_, _, ha, _⟩ := h
  exact wf.isTerminal_of_mem_first ha

theorem WellFormed.eq_of_mem_first_singleton (wf : g.WellFormed) {b : SymbolId} (hb : g.isTerminal b = true)
    (hne : b ≠ g.empty) (h : a ∈ g.first [b]) : a = b := by
  have hempty : ¬ g.empty ∈ (.singleton b : OrderedSet SymbolId) := fun h => hne (OrderedSet.mem_singleton.mp h).symm
  rw [first, firstOfSequence, wf.firstSets_fixed.1.self hb] at h
  simp only [if_neg hempty] at h
  exact OrderedSet.mem_singleton.mp h

/-- The followers of an item stand ahead of the item with its dot moved. -/
theorem ahead_advanced_iff {i : Item} {p : Production} (hp : g.production? i.production = some p) :
    g.Ahead i.advanced a ↔ a ∈ g.followers p i := by
  rw [mem_followers]
  constructor
  · rintro ⟨p', hp', ha⟩
    cases hp.symm.trans hp'
    exact ha
  · exact fun ha => ⟨p, hp, ha⟩

theorem drop_eq_cons {p : Production} {dot : Nat} {symbol : SymbolId} (h : p.body[dot]? = some symbol) :
    p.body.drop dot = symbol :: p.body.drop (dot + 1) := by
  obtain ⟨hlt, rfl⟩ := List.getElem?_eq_some_iff.mp h
  exact List.drop_eq_getElem_cons hlt

/-- What stands ahead of a demanded item stands ahead of the item that demands it. -/
theorem WellFormed.ahead_of_demands (wf : g.WellFormed) {i j : Item} (h : g.Demands i j) (ha : g.Ahead j a) :
    g.Ahead i a := by
  have hvalid := wf.validItem_of_demands h
  obtain ⟨p, symbol, s, hp, hsymbol, hs, -, hq, hdot, hfollow⟩ := mem_demanded.mp h
  obtain ⟨q, hq, rfl⟩ := (wf.alternatives hs j.production).mp hq
  obtain ⟨q', hq', ha, hne⟩ := ha
  cases hq.symm.trans hq'
  rw [hdot, List.drop_zero] at ha
  refine ⟨p, hp, ?_, hne⟩
  rw [drop_eq_cons hsymbol, List.cons_append]
  refine (mem_first_append [q.head] _).mpr ?_
  rcases (mem_first_append _ _).mp ha with ⟨ha, -⟩ | ⟨hempty, ha⟩
  · exact Or.inl ⟨mem_first_singleton (wf.begins_head hq ha), hne⟩
  · rw [wf.eq_of_mem_first_singleton hvalid.lookahead hvalid.nonempty ha]
    exact Or.inr ⟨mem_first_singleton (wf.begins_head hq hempty), (mem_followers.mp hfollow).1⟩

theorem WellFormed.ahead_of_yields (wf : g.WellFormed) {i j : Item} (h : g.Yields i j) (ha : g.Ahead j a) :
    g.Ahead i a := by
  induction h with
  | refl => exact ha
  | tail _ hstep ih => exact ih (wf.ahead_of_demands hstep ha)

/-- What stands ahead of a dot after a vanishing symbol stands ahead of the dot before it. -/
theorem WellFormed.ahead_of_advanced (wf : g.WellFormed) {i : Item} {symbol : SymbolId}
    (hnext : g.nextSymbol i = some symbol) (hvanishes : g.Vanishes allowed [symbol]) (ha : g.Ahead i.advanced a) :
    g.Ahead i a := by
  obtain ⟨p, hp, hsymbol⟩ := nextSymbol_eq_some.mp hnext
  obtain ⟨ha, hne⟩ := mem_followers.mp ((ahead_advanced_iff hp).mp ha)
  refine ⟨p, hp, ?_, hne⟩
  rw [drop_eq_cons hsymbol, List.cons_append]
  exact (mem_first_append [symbol] _).mpr (Or.inr ⟨wf.empty_mem_first hvanishes, ha⟩)

/-- What stands ahead of an item starts the rest of its body, or is its lookahead after a rest that vanishes. -/
theorem WellFormed.ahead_cases (wf : g.WellFormed) {i : Item} (hi : g.ValidItem i) {p : Production}
    (hp : g.production? i.production = some p) (ha : g.Ahead i a) :
    g.Starts a (p.body.drop i.dot) ∨ g.Vanishes (fun _ => True) (p.body.drop i.dot) ∧ a = i.lookahead := by
  have hbody : ∀ symbol ∈ p.body.drop i.dot, symbol ≠ g.empty :=
    fun symbol hsymbol => (wf.body hp symbol (List.mem_of_mem_drop hsymbol)).2
  obtain ⟨p', hp', ha, hne⟩ := ha
  cases hp.symm.trans hp'
  rcases (mem_first_append _ _).mp ha with ⟨ha, -⟩ | ⟨hempty, ha⟩
  · exact Or.inl ((wf.mem_first_iff hbody hne).mp ha)
  · exact Or.inr ⟨(wf.empty_mem_first_iff hbody).mp hempty, wf.eq_of_mem_first_singleton hi.lookahead hi.nonempty ha⟩

/-! ## Reductions of a trail -/

/-- A reduction of a trail that the table makes with a symbol ahead. -/
def Reduces (g : Grammar) (c : Collection) (a : SymbolId) (F G : Trail) : Prop :=
  ∃ id p target, (g.tableOf c).action F.state a = .reduce id ∧ g.production? id = some p ∧ p.body.length ≤ F.length ∧
    c.target? (Trail.state (F.drop p.body.length)) p.head = some target ∧
    G = (p.head, target) :: F.drop p.body.length

/-- A reduction that keeps the lowest entries of a trail, and pushes its head on top of them. -/
def ReducesAbove (g : Grammar) (c : Collection) (a : SymbolId) (height : Nat) (F G : Trail) : Prop :=
  g.Reduces c a F G ∧ height < G.length

/-- Some number of such reductions. -/
def Reaches (g : Grammar) (c : Collection) (a : SymbolId) (height : Nat) : Trail → Trail → Prop :=
  Relation.ReflTransGen (g.ReducesAbove c a height)

/-- From a trail there are only finitely many such reductions in a row. -/
def Stops (g : Grammar) (c : Collection) (a : SymbolId) (height : Nat) : Trail → Prop :=
  Acc fun G F => g.ReducesAbove c a height F G

/-- No reduction is made. -/
def AtRest (g : Grammar) (c : Collection) (a : SymbolId) (F : Trail) : Prop :=
  ∀ id, (g.tableOf c).action F.state a ≠ .reduce id

theorem Reduces.unique {F G G' : Trail} (h : g.Reduces c a F G) (h' : g.Reduces c a F G') : G = G' := by
  obtain ⟨id, p, target, haction, hp, -, htarget, rfl⟩ := h
  obtain ⟨id', p', target', haction', hp', -, htarget', rfl⟩ := h'
  cases haction.symm.trans haction'
  cases hp.symm.trans hp'
  cases htarget.symm.trans htarget'
  rfl

/-- Where a run gets to, it stops if it stops from there. -/
theorem Reaches.stops {height : Nat} {F G : Trail} (h : g.Reaches c a height F G) (hG : g.Stops c a height G) :
    g.Stops c a height F := by
  induction h using Relation.ReflTransGen.head_induction_on with
  | refl => exact hG
  | head hstep _ ih =>
    refine Acc.intro _ fun F' hF' => ?_
    rwa [← hstep.1.unique hF'.1]

theorem AtRest.stops {height : Nat} {F : Trail} (h : g.AtRest c a F) : g.Stops c a height F :=
  Acc.intro _ fun _ ⟨⟨id, _, _, haction, _⟩, _⟩ => absurd haction (h id)

/-- A run that stops does not come back to where it was. -/
theorem Stops.not_cycle {height : Nat} {F : Trail} (h : g.Stops c a height F) :
    ¬ Relation.TransGen (g.ReducesAbove c a height) F F := by
  induction h with
  | intro F _ ih =>
    intro hcycle
    obtain ⟨G, hstep, hback⟩ := Relation.TransGen.head'_iff.mp hcycle
    exact ih G hstep (Relation.TransGen.tail' hback hstep)

/-- The trails of a run that stops are of bounded length. -/
theorem Stops.bounded {height : Nat} {F : Trail} (h : g.Stops c a height F) :
    ∃ n, ∀ G, g.Reaches c a height F G → G.length ≤ n := by
  induction h with
  | intro F _ ih =>
    by_cases hnext : ∃ F', g.ReducesAbove c a height F F'
    · obtain ⟨F', hF'⟩ := hnext
      obtain ⟨n, hn⟩ := ih F' hF'
      refine ⟨max F.length n, fun G hG => ?_⟩
      rcases hG.cases_head with rfl | ⟨F'', hF'', hG⟩
      · exact le_max_left _ _
      · rw [← hF'.1.unique hF''.1] at hG
        exact (hn G hG).trans (le_max_right _ _)
    · refine ⟨F.length, fun G hG => ?_⟩
      rcases hG.cases_head with rfl | ⟨F', hF', -⟩
      · exact le_rfl
      · exact absurd ⟨F', hF'⟩ hnext

/-! ## Runs of a table without conflicts -/

/-- A table without conflicts, of a productive grammar that has the end of the input in no body. -/
structure Orderly (g : Grammar) (c : Collection) : Prop where
  wellFormed : g.WellFormed
  automaton : g.Automaton c
  conflicts : (g.tableOf c).conflicts = []
  productive : g.Productive
  avoids_end : g.Avoids g.endOfInput

/-- A complete item is accepted or reduced on its lookahead. -/
theorem Orderly.action_complete (h : g.Orderly c) {i : StateId} {S : ItemSet} {id : ProductionId} {p : Production}
    (hS : c.states[i]? = some S) (hp : g.production? id = some p) (hitem : ⟨id, p.body.length, a⟩ ∈ S) :
    p.head = g.start ∧ a = g.endOfInput ∧ (g.tableOf c).action i a = .accept ∨
      ¬ (p.head = g.start ∧ a = g.endOfInput) ∧ (g.tableOf c).action i a = .reduce id := by
  by_cases hstart : p.head = g.start ∧ a = g.endOfInput
  · obtain ⟨hhead, rfl⟩ := hstart
    have hdemand : g.demand? (c.transitionsAt i) ⟨id, p.body.length, g.endOfInput⟩ = some (.act g.endOfInput .accept) :=
      demand?_accept hp (List.getElem?_length _) hhead rfl
    exact Or.inl ⟨hhead, rfl, action_of_demand h.conflicts hS hitem hdemand⟩
  · have hdemand : g.demand? (c.transitionsAt i) ⟨id, p.body.length, a⟩ = some (.act a (.reduce p.id)) :=
      demand?_reduce hp (List.getElem?_length _) hstart
    rw [h.wellFormed.production_id hp] at hdemand
    exact Or.inr ⟨hstart, action_of_demand h.conflicts hS hitem hdemand⟩

/-- **A run over vanishing symbols**: with a terminal ahead that can follow them, the table reduces the symbols after a dot
out of nothing, one after the other. The only other way out is an acceptance on the way. -/
theorem Orderly.vanishes_reaches (h : g.Orderly c) {β : List SymbolId} (hβ : g.Vanishes allowed β) {height : Nat} :
    ∀ {F : Trail} {S : ItemSet} {i : Item} {p : Production} {δ : List SymbolId}, height ≤ F.length →
      c.states[F.state]? = some S → i ∈ S → g.production? i.production = some p → p.body.drop i.dot = β ++ δ →
      a ∈ g.first (δ ++ [i.lookahead]) → a ≠ g.empty →
      (∃ H : Trail, H.length = β.length ∧ g.Reaches c a height F (H ++ F) ∧
        ∃ S', c.states[Trail.state (H ++ F)]? = some S' ∧ { i with dot := i.dot + β.length } ∈ S') ∨
      allowed g.start ∧ a = g.endOfInput ∧ ∃ G, g.Reaches c a height F G ∧ g.AtRest c a G := by
  induction hβ with
  | nil =>
    intro F S i p δ _ hS hi _ _ _ _
    exact Or.inl ⟨[], rfl, Relation.ReflTransGen.refl, S, hS, hi⟩
  | @cons id q rest hq hallowed _ hrest ihbody ihrest =>
    intro F S i p δ hheight hS hi hp hdrop ha hne
    have hnext : p.body[i.dot]? = some q.head := by
      rw [← List.head?_drop, hdrop]
      rfl
    have hdrop' : p.body.drop (i.dot + 1) = rest ++ δ := by
      rw [← List.tail_drop, hdrop]
      rfl
    -- the terminal ahead can follow the first of the symbols, because the others vanish
    have hfollow : a ∈ g.followers p i := by
      rw [mem_followers, Production.after, hdrop', List.append_assoc]
      exact ⟨(mem_first_append _ _).mpr (Or.inr ⟨h.wellFormed.empty_mem_first hrest, ha⟩), hne⟩
    have hterminal := h.wellFormed.isTerminal_of_mem_first ha
    have hexpansion := h.automaton.expansion_mem h.wellFormed hS hi hp hnext hq hfollow
    have hself : a ∈ g.first ([] ++ [a]) := mem_first_singleton (h.wellFormed.firstSets_terminal hterminal)
    rcases ihbody hheight hS hexpansion hq (List.append_nil q.body).symm hself hne with
      ⟨H, hlength, hreaches, S', hS', hend⟩ | hidle
    · simp only [Nat.zero_add] at hend
      rcases h.action_complete hS' hq hend with ⟨hhead, hend, haccept⟩ | ⟨-, hreduce⟩
      · refine Or.inr ⟨hhead ▸ hallowed, hend, H ++ F, hreaches, fun id' => ?_⟩
        rw [haccept]
        simp
      · have hnext' : g.nextSymbol i = some q.head := nextSymbol_eq_some.mpr ⟨p, hp, hnext⟩
        obtain ⟨t, T, ht, hT, hadvanced⟩ := h.automaton.exists_target h.wellFormed hS hi hnext'
        have hstep : g.ReducesAbove c a height (H ++ F) ((q.head, t) :: F) := by
          refine ⟨⟨id, q, t, hreduce, hq, by simp [hlength], ?_, ?_⟩, Nat.lt_succ_of_le hheight⟩
          · rw [← hlength, List.drop_left]
            exact ht
          · rw [← hlength, List.drop_left]
        have hreaches' := hreaches.tail hstep
        rcases ihrest (F := (q.head, t) :: F) (Nat.le_succ_of_le hheight) hT hadvanced hp hdrop' ha hne with
          ⟨H', hlength', hreaches'', S'', hS'', hend'⟩ | ⟨hstart, hend', G, hG, hidle⟩
        · refine Or.inl ⟨H' ++ [(q.head, t)], by simp [hlength'], ?_, S'', ?_, ?_⟩
          · rw [List.append_assoc]
            exact hreaches'.trans hreaches''
          · rw [List.append_assoc]
            exact hS''
          · rw [List.length_cons, Nat.add_comm rest.length, ← Nat.add_assoc]
            exact hend'
        · exact Or.inr ⟨hstart, hend', G, hreaches'.trans hG, hidle⟩
    · exact Or.inr hidle

/-- **A run to a shift**: with a terminal ahead that the symbols after a dot start with, the table gets to shift it, or
accepts before. -/
theorem Orderly.starts_reaches (h : g.Orderly c) {l : List SymbolId} (hl : g.Starts a l) (hne : a ≠ g.empty)
    {height : Nat} : ∀ {F : Trail} {S : ItemSet} {i : Item} {p : Production} {δ : List SymbolId}, height ≤ F.length →
      c.states[F.state]? = some S → i ∈ S → g.production? i.production = some p → p.body.drop i.dot = l ++ δ →
      ∃ G, g.Reaches c a height F G ∧ g.AtRest c a G := by
  induction hl with
  | here hterminal =>
    intro F S i p δ _ hS hi hp hdrop
    have hnext : g.nextSymbol i = some a := by
      refine nextSymbol_eq_some.mpr ⟨p, hp, ?_⟩
      rw [← List.head?_drop, hdrop]
      rfl
    obtain ⟨t, _, ht, -, -⟩ := h.automaton.exists_target h.wellFormed hS hi hnext
    have hshift := action_of_demand h.conflicts hS hi (demand?_shift hnext hterminal ht)
    refine ⟨F, Relation.ReflTransGen.refl, fun id => ?_⟩
    rw [hshift]
    simp
  | @skip symbol rest hvanishes hrest ih =>
    intro F S i p δ hheight hS hi hp hdrop
    have ha : a ∈ g.first ((rest ++ δ) ++ [i.lookahead]) :=
      h.wellFormed.mem_first hne ((hrest.append δ).append [i.lookahead])
    rcases h.vanishes_reaches hvanishes hheight hS hi hp hdrop ha hne with
      ⟨H, hlength, hreaches, S', hS', hi'⟩ | ⟨-, -, G, hG, hidle⟩
    · have hdrop' : p.body.drop (i.dot + 1) = rest ++ δ := by
        rw [← List.tail_drop, hdrop]
        rfl
      have hheight' : height ≤ (H ++ F).length := by
        rw [List.length_append]
        omega
      obtain ⟨G, hG, hidle⟩ := ih hheight' hS' hi' hp hdrop'
      exact ⟨G, hreaches.trans hG, hidle⟩
    · exact ⟨G, hG, hidle⟩
  | @into id q rest hq _ ih =>
    intro F S i p δ hheight hS hi hp hdrop
    have hnext : p.body[i.dot]? = some q.head := by
      rw [← List.head?_drop, hdrop]
      rfl
    have hvalid := h.automaton.validItem h.wellFormed hS hi
    obtain ⟨y, hy⟩ := h.productive.exists_ahead h.wellFormed hp (i.dot + 1) hvalid.lookahead hvalid.nonempty
    have hexpansion := h.automaton.expansion_mem h.wellFormed hS hi hp hnext hq (mem_followers.mpr hy)
    exact ih hheight hS hexpansion hq (List.append_nil q.body).symm

/-- With a terminal ahead that can stand there, a run settles, or completes the item on its lookahead. -/
theorem Orderly.ahead_reaches (h : g.Orderly c) {height : Nat} {F : Trail} {S : ItemSet} {i : Item} {p : Production}
    (hheight : height ≤ F.length) (hS : c.states[F.state]? = some S) (hi : i ∈ S)
    (hp : g.production? i.production = some p) (ha : g.Ahead i a) :
    ∃ G, g.Reaches c a height F G ∧ (g.AtRest c a G ∨
      a = i.lookahead ∧ ∃ H S', G = H ++ F ∧ H.length + i.dot = p.body.length ∧ c.states[G.state]? = some S' ∧
        ⟨i.production, p.body.length, a⟩ ∈ S') := by
  have hvalid := h.automaton.validItem h.wellFormed hS hi
  rcases h.wellFormed.ahead_cases hvalid hp ha with hstarts | ⟨hvanishes, rfl⟩
  · obtain ⟨G, hG, hidle⟩ := h.starts_reaches hstarts ha.ne_empty hheight hS hi hp (List.append_nil _).symm
    exact ⟨G, hG, Or.inl hidle⟩
  · have hself : i.lookahead ∈ g.first ([] ++ [i.lookahead]) :=
      mem_first_singleton (h.wellFormed.firstSets_terminal hvalid.lookahead)
    rcases h.vanishes_reaches hvanishes hheight hS hi hp (List.append_nil _).symm hself hvalid.nonempty with
      ⟨H, hlength, hreaches, S', hS', hend⟩ | ⟨-, -, G, hG, hidle⟩
    · obtain ⟨p', hp', hdot⟩ := hvalid.production
      cases hp.symm.trans hp'
      have hall : i.dot + (p.body.drop i.dot).length = p.body.length := by
        rw [List.length_drop]
        omega
      rw [hall] at hend
      exact ⟨H ++ F, hreaches, Or.inr ⟨rfl, H, S', rfl, by omega, hS', hend⟩⟩
    · exact ⟨G, hG, Or.inl hidle⟩

/-! ## Where the items of a state come from -/

/-- An item that nothing has to demand: its dot has moved, or it opens a start production at the end of the input. -/
def Seed (g : Grammar) (i : Item) : Prop :=
  i.dot ≠ 0 ∨ i.lookahead = g.endOfInput ∧ ∃ p, g.production? i.production = some p ∧ p.head = g.start

theorem Reached.exists_seed (wf : g.WellFormed) {R : ItemSet} (h : g.Reached R) {i : Item} (hi : i ∈ R) :
    ∃ k ∈ R, g.Seed k ∧ g.Yields k i := by
  cases h with
  | initial =>
    obtain ⟨id, p, hp, hhead, hyields⟩ := wf.mem_initialItemSet.mp hi
    refine ⟨⟨id, 0, g.endOfInput⟩, ?_, Or.inr ⟨rfl, p, hp, hhead⟩, hyields⟩
    exact wf.mem_initialItemSet.mpr ⟨id, p, hp, hhead, Yields.refl _⟩
  | goto _ _ =>
    obtain ⟨i', hi', hnext, hyields⟩ := wf.mem_gotoNext.mp hi
    exact ⟨i'.advanced, wf.advanced_mem_gotoNext hi' hnext, Or.inl (Nat.succ_ne_zero _), hyields⟩

theorem Automaton.exists_seed (wf : g.WellFormed) (hc : g.Automaton c) {s : StateId} {S : ItemSet}
    (hS : c.states[s]? = some S) {i : Item} (hi : i ∈ S) : ∃ k ∈ S, g.Seed k ∧ g.Yields k i := by
  obtain ⟨R, hR, -, hsub, hmem⟩ := (hc.joined hS).cover i hi
  obtain ⟨k, hk, hseed, hyields⟩ := hR.exists_seed wf hmem
  exact ⟨k, hsub k hk, hseed, hyields⟩

/-- From a complete item a run stops if it does so after the reduction. -/
theorem Orderly.stops_of_complete (h : g.Orderly c) {height dot : Nat} {F H : Trail} {S : ItemSet} {id : ProductionId}
    {p : Production} (hS : c.states[Trail.state (H ++ F)]? = some S) (hp : g.production? id = some p)
    (hmem : ⟨id, p.body.length, a⟩ ∈ S) (hlength : H.length + dot = p.body.length)
    (hnext : ¬ (p.head = g.start ∧ a = g.endOfInput) → height + dot ≤ F.length →
      ∀ target, c.target? (Trail.state (F.drop dot)) p.head = some target →
        g.Stops c a height ((p.head, target) :: F.drop dot)) : g.Stops c a height (H ++ F) := by
  rcases h.action_complete hS hp hmem with ⟨-, -, haccept⟩ | ⟨hstart, hreduce⟩
  · refine AtRest.stops fun id' => ?_
    rw [haccept]
    simp
  · refine Acc.intro _ ?_
    rintro G ⟨⟨id', p', target, haction, hp', hle, htarget, rfl⟩, hheight⟩
    cases hreduce.symm.trans haction
    cases hp.symm.trans hp'
    have hdrop : (H ++ F).drop p.body.length = F.drop dot := by
      rw [← hlength, List.drop_append, List.drop_of_length_le (by omega)]
      simp
    rw [hdrop] at htarget hheight ⊢
    rw [List.length_append] at hle
    rw [List.length_cons, List.length_drop] at hheight
    exact hnext hstart (by omega) target htarget

/-- **Runs stop above a state** on whatever can stand ahead of one of its items. -/
theorem Orderly.stops_of_ahead (h : g.Orderly c) {F : Trail} {S : ItemSet} {i : Item}
    (hS : c.states[F.state]? = some S) (hi : i ∈ S) (ha : g.Ahead i a) : g.Stops c a F.length F := by
  obtain ⟨k, hk, hseed, hyields⟩ := h.automaton.exists_seed h.wellFormed hS hi
  have hahead := h.wellFormed.ahead_of_yields hyields ha
  obtain ⟨p, hp, -⟩ := hahead
  obtain ⟨G, hG, hidle | ⟨rfl, H, S', rfl, hlength, hS', hmem⟩⟩ :=
    h.ahead_reaches le_rfl hS hk hp (h.wellFormed.ahead_of_yields hyields ha)
  · exact hG.stops hidle.stops
  · refine hG.stops (h.stops_of_complete hS' hp hmem hlength fun hstart hle => ?_)
    -- the reduction goes below the state, or the item is accepted
    rcases hseed with hdot | ⟨hlookahead, p', hp', hhead⟩
    · omega
    · cases hp.symm.trans hp'
      exact absurd ⟨hhead, hlookahead⟩ hstart

/-- Once the symbol after a dot is on the trail, a run stops if it does so after the reduction of the whole body. -/
theorem Orderly.stops_of_advanced (h : g.Orderly c) {F : Trail} {S : ItemSet} {i : Item} {p : Production}
    {symbol : SymbolId} {t : StateId} (hS : c.states[F.state]? = some S) (hi : i ∈ S)
    (hp : g.production? i.production = some p) (hnext : g.nextSymbol i = some symbol)
    (ht : c.target? F.state symbol = some t) (ha : g.Ahead i.advanced a)
    (hback : i.dot = 0 → a = i.lookahead → ¬ (p.head = g.start ∧ a = g.endOfInput) →
      ∀ target, c.target? F.state p.head = some target → g.Stops c a F.length ((p.head, target) :: F)) :
    g.Stops c a F.length ((symbol, t) :: F) := by
  obtain ⟨t', T, ht', hT, hadvanced⟩ := h.automaton.exists_target h.wellFormed hS hi hnext
  cases ht.symm.trans ht'
  obtain ⟨G, hG, hidle | ⟨hlookahead, H, S', rfl, hlength, hS', hmem⟩⟩ :=
    h.ahead_reaches (F := (symbol, t) :: F) (Nat.le_succ _) hT hadvanced hp ha
  · exact hG.stops hidle.stops
  · refine hG.stops (h.stops_of_complete hS' hp hmem hlength fun hstart hle target htarget => ?_)
    have hdot : i.dot = 0 := by
      simp only [Item.advanced, List.length_cons] at hle
      omega
    simp only [Item.advanced, hdot, Nat.zero_add, List.drop_one, List.tail_cons] at htarget ⊢
    exact hback hdot hlookahead hstart target htarget

/-- **Runs stop above a state that waits for a symbol**, once the symbol is there with something ahead that can follow it. -/
theorem Orderly.stops_of_waiting (h : g.Orderly c) {F : Trail} {S : ItemSet} {i : Item} {symbol : SymbolId} {t : StateId}
    (hS : c.states[F.state]? = some S) (hi : i ∈ S) (hnext : g.nextSymbol i = some symbol)
    (ht : c.target? F.state symbol = some t) (ha : g.Ahead i.advanced a) :
    g.Stops c a F.length ((symbol, t) :: F) := by
  obtain ⟨k, hk, hseed, hyields⟩ := h.automaton.exists_seed h.wellFormed hS hi
  have hstate := (h.automaton.joined hS).isState h.wellFormed
  -- from an item to the one that demands it, which waits for its head
  induction hyields generalizing symbol t with
  | refl =>
    obtain ⟨p, hp, -⟩ := nextSymbol_eq_some.mp hnext
    refine h.stops_of_advanced hS hk hp hnext ht ha fun hdot hlookahead hstart => ?_
    rcases hseed with hne | ⟨hend, p', hp', hhead⟩
    · exact absurd hdot hne
    · cases hp.symm.trans hp'
      exact absurd ⟨hhead, hlookahead.trans hend⟩ hstart
  | @tail j i hj hdemands ih =>
    obtain ⟨q, x, s, hq, hx, hs, -, halternative, -, hfollow⟩ := mem_demanded.mp hdemands
    obtain ⟨p, hp, rfl⟩ := (h.wellFormed.alternatives hs _).mp halternative
    refine h.stops_of_advanced hS hi hp hnext ht ha fun _ hlookahead _ target htarget => ?_
    have hwaiting : g.nextSymbol j = some p.head := nextSymbol_eq_some.mpr ⟨q, hq, hx⟩
    exact ih (hstate.yields hk hj) hwaiting htarget ((ahead_advanced_iff hq).mpr (hlookahead ▸ hfollow))

end ShaderFront.Grammar
