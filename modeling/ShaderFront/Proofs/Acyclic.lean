import Mathlib
import ShaderFront.Proofs.Reductions

/-!
# Wrapping and gliding come to an end

Two ways of reducing forever, and why a table without conflicts has neither.

* A symbol is wrapped into the head of a production whose body is that symbol and vanishing ones after it
  (`Grammar.Wraps`). A symbol that is wrapped into itself would make a run go round in circles above a state where runs
  stop (`Grammar.Orderly.not_wraps_self`).
* A state is left over a vanishing symbol (`Grammar.Glides`). Gliding follows a climb of items (`Grammar.Climbs`), and a climb
  is a run that pushes one entry for every vanishing symbol; runs above a state stop, so climbs are bounded
  (`Grammar.Orderly.climbs_bounded`).

Both arguments run the table with a terminal of their own choice ahead, in a state of their own choice. A start production at
the end of the input is accepted and cuts a run short; `Grammar.Orderly.exists_good` finds a state where this does not happen.
-/

namespace ShaderFront.Grammar

open Engine

variable {g : Grammar} {c : Collection} {a : SymbolId}

/-! ## Contexts away from the end of the input -/

/-- A start production is expanded inside another one, with something ahead that is not the end of the input. -/
def Nested (g : Grammar) : Prop :=
  ∃ R, g.Reached R ∧ ∃ i ∈ R, i.lookahead ≠ g.endOfInput ∧ ∃ p, g.production? i.production = some p ∧ p.head = g.start

/-- The heads that a table can reduce to: a start production at the end of the input is accepted. -/
def Reducible (g : Grammar) (head : SymbolId) : Prop := head = g.start → g.Nested

/-- An item can be traced back to where its dot was in front, with the same lookahead. -/
theorem Reached.exists_front (wf : g.WellFormed) {R : ItemSet} (h : g.Reached R) {i : Item} (hi : i ∈ R) :
    ∃ R', g.Reached R' ∧ ⟨i.production, 0, i.lookahead⟩ ∈ R' := by
  have hself : ∀ {i : Item}, i.dot = 0 → (⟨i.production, 0, i.lookahead⟩ : Item) = i := by
    intro i hdot
    rw [← hdot]
  induction h generalizing i with
  | initial =>
    refine ⟨_, .initial, ?_⟩
    rw [hself (wf.dot_of_mem_initial hi)]
    exact hi
  | @goto R symbol hR hsymbol ih =>
    obtain ⟨i', hi', -, hyields⟩ := wf.mem_gotoNext.mp hi
    rcases hyields.eq_or_dot with rfl | hdot
    · exact ih (i := i') hi'
    · refine ⟨_, hR.goto hsymbol, ?_⟩
      rw [hself hdot]
      exact hi

/-- A nested start symbol is expanded with all its productions. -/
theorem Nested.exists_expansions (wf : g.WellFormed) (h : g.Nested) : ∃ R, g.Reached R ∧ ∃ x, x ≠ g.endOfInput ∧
    ∀ {id : ProductionId} {p : Production}, g.production? id = some p → p.head = g.start → ⟨id, 0, x⟩ ∈ R := by
  obtain ⟨R, hR, i, hi, hlookahead, p, hp, hhead⟩ := h
  obtain ⟨R', hR', hfront⟩ := hR.exists_front wf hi
  obtain ⟨k, hk, hseed, hyields⟩ := hR'.exists_seed wf hfront
  refine ⟨R', hR', i.lookahead, hlookahead, fun {id q} hq hstart => ?_⟩
  rcases hyields.cases_tail with rfl | ⟨j, hj, hdemands⟩
  · rcases hseed with hdot | ⟨hend, -⟩
    · exact absurd rfl hdot
    · exact absurd hend hlookahead
  · -- the item that demands one of the productions demands them all
    obtain ⟨p', symbol, s, hp', hsymbol, hs, hterminal, halternative, -, hfollow⟩ := mem_demanded.mp hdemands
    obtain ⟨q', hq', rfl⟩ := (wf.alternatives hs _).mp halternative
    cases hp.symm.trans hq'
    have hid : id ∈ s.productions := (wf.alternatives hs id).mpr ⟨q, hq, hstart.trans hhead.symm⟩
    refine (hR'.isState wf).closed j ((hR'.isState wf).yields hk hj) _ (mem_demanded.mpr ?_)
    exact ⟨p', p.head, s, hp', hsymbol, hs, hterminal, hid, rfl, hfollow⟩

/-- Ahead of an item the end of the input comes from its lookahead only. -/
theorem Orderly.ahead_ne_end (h : g.Orderly c) {i : Item} (hi : g.ValidItem i) (hne : i.lookahead ≠ g.endOfInput)
    (ha : g.Ahead i a) : a ≠ g.endOfInput := by
  obtain ⟨p, hp, -⟩ := hi.production
  rcases h.wellFormed.ahead_cases hi hp ha with hstarts | ⟨-, rfl⟩
  · exact hstarts.ne_of_avoids h.avoids_end fun hmem => h.avoids_end.not_mem hp (List.mem_of_mem_drop hmem)
  · exact hne

theorem Orderly.lookahead_ne_end (h : g.Orderly c) {i j : Item} (hi : g.ValidItem i) (hne : i.lookahead ≠ g.endOfInput)
    (hdemands : g.Demands i j) : j.lookahead ≠ g.endOfInput := by
  obtain ⟨p, symbol, s, hp, hsymbol, -, -, -, -, hfollow⟩ := mem_demanded.mp hdemands
  have hnext : g.nextSymbol i = some symbol := nextSymbol_eq_some.mpr ⟨p, hp, hsymbol⟩
  exact h.ahead_ne_end (hi.advanced hnext) hne ((ahead_advanced_iff hp).mpr hfollow)

theorem Orderly.lookahead_ne_end_of_yields (h : g.Orderly c) {i j : Item} (hi : g.ValidItem i)
    (hne : i.lookahead ≠ g.endOfInput) (hyields : g.Yields i j) : j.lookahead ≠ g.endOfInput := by
  induction hyields with
  | refl => exact hne
  | tail hyields hstep ih => exact h.lookahead_ne_end (h.wellFormed.validItem_of_yields hi hyields) ih hstep

theorem core_advanced {i i' : Item} (h : i'.core = i.core) : i'.advanced.core = i.advanced.core := by
  obtain ⟨hp, hd⟩ := core_eq_iff.mp h
  exact core_eq_iff.mpr ⟨hp, congrArg (· + 1) hd⟩

/-- **With a nested start symbol, whatever happens at the end of the input happens elsewhere too.** -/
theorem Orderly.exists_apart (h : g.Orderly c) (hnested : g.Nested) {R : ItemSet} (hR : g.Reached R) :
    ∀ i ∈ R, ∃ R', g.Reached R' ∧ ∃ i' ∈ R', i'.core = i.core ∧ i'.lookahead ≠ g.endOfInput := by
  have wf := h.wellFormed
  induction hR with
  | initial =>
    intro i hi
    obtain ⟨id, p, hp, hhead, hyields⟩ := wf.mem_initialItemSet.mp hi
    obtain ⟨R', hR', x, hx, hall⟩ := hnested.exists_expansions wf
    have hmem := hall hp hhead
    have hvalid := (hR'.isState wf).valid _ hmem
    have hcore : Item.core ⟨id, 0, x⟩ = Item.core ⟨id, 0, g.endOfInput⟩ := rfl
    obtain ⟨i', hi', hcore⟩ := wf.exists_yields hcore hvalid hyields
    exact ⟨R', hR', i', (hR'.isState wf).yields hmem hi', hcore, h.lookahead_ne_end_of_yields hvalid hx hi'⟩
  | @goto R symbol _ _ ih =>
    intro i hi
    obtain ⟨k, hk, hnext, hyields⟩ := wf.mem_gotoNext.mp hi
    obtain ⟨R', hR', k', hk', hcore, hne⟩ := ih k hk
    have hnext' : g.nextSymbol k' = some symbol := (nextSymbol_congr hcore).trans hnext
    have hvalid := ((hR'.isState wf).valid k' hk').advanced hnext'
    obtain ⟨i', hi', hcore'⟩ := wf.exists_yields (core_advanced hcore) hvalid hyields
    have hgoto : g.Reached (g.gotoNext R' symbol) := hR'.goto (mem_nextSymbols.mpr ⟨k', hk', hnext'⟩)
    refine ⟨_, hgoto, i', ?_, hcore', h.lookahead_ne_end_of_yields hvalid hne hi'⟩
    exact (hgoto.isState wf).yields (wf.advanced_mem_gotoNext hk' hnext') hi'

/-- A core can be found in a state where nothing is accepted that a table could have to reduce. -/
theorem Orderly.exists_good (h : g.Orderly c) {s : StateId} {S : ItemSet} {i : Item} (hS : c.states[s]? = some S)
    (hi : i ∈ S) : ∃ (s' : StateId) (S' : ItemSet), c.states[s']? = some S' ∧
      ∃ i' ∈ S', i'.core = i.core ∧ (g.Nested → i'.lookahead ≠ g.endOfInput) := by
  by_cases hnested : g.Nested
  · obtain ⟨R, hR, -, -, hmem⟩ := (h.automaton.joined hS).cover i hi
    obtain ⟨R', hR', i', hi', hcore, hne⟩ := h.exists_apart hnested hR i hmem
    obtain ⟨s', S', hS', -, hsub⟩ := h.automaton.exists_state_of_reached h.wellFormed hR'
    exact ⟨s', S', hS', i', hsub i' hi', hcore, fun _ => hne⟩
  · exact ⟨s, S, hS, i, hi, rfl, fun hn => absurd hn hnested⟩

/-- A run over vanishing symbols is not cut short by an acceptance. -/
theorem Orderly.reducible_reaches (h : g.Orderly c) (hgood : g.Nested → a ≠ g.endOfInput) {β : List SymbolId}
    (hβ : g.Vanishes g.Reducible β) {height : Nat} {F : Trail} {S : ItemSet} {i : Item} {p : Production}
    {δ : List SymbolId} (hheight : height ≤ F.length) (hS : c.states[F.state]? = some S) (hi : i ∈ S)
    (hp : g.production? i.production = some p) (hdrop : p.body.drop i.dot = β ++ δ)
    (ha : a ∈ g.first (δ ++ [i.lookahead])) (hne : a ≠ g.empty) :
    ∃ H : Trail, H.length = β.length ∧ g.Reaches c a height F (H ++ F) ∧
      ∃ S', c.states[Trail.state (H ++ F)]? = some S' ∧ { i with dot := i.dot + β.length } ∈ S' :=
  (h.vanishes_reaches hβ hheight hS hi hp hdrop ha hne).resolve_right fun ⟨hstart, hend, _⟩ => hgood (hstart rfl) hend

/-! ## Wrapping -/

/-- A state holds a production whose body is a symbol with something vanishing after it. -/
def Wraps (g : Grammar) (c : Collection) (symbol head : SymbolId) : Prop :=
  ∃ (s : StateId) (S : ItemSet) (i : Item) (p : Production) (β : List SymbolId), c.states[s]? = some S ∧ i ∈ S ∧
    i.dot = 0 ∧ g.production? i.production = some p ∧ p.head = head ∧ p.body = symbol :: β ∧
    g.Vanishes g.Reducible β ∧ g.Reducible head

/-- An item of a set waits for a symbol that a terminal can follow. -/
def Expects (g : Grammar) (S : ItemSet) (symbol a : SymbolId) : Prop :=
  ∃ i ∈ S, g.nextSymbol i = some symbol ∧ g.Ahead i.advanced a

/-- Where the head is expected, the table reduces the symbol to it. -/
theorem Wraps.reaches (h : g.Orderly c) (hgood : g.Nested → a ≠ g.endOfInput) {F : Trail} {S : ItemSet}
    (hS : c.states[F.state]? = some S) {symbol head : SymbolId} (hwraps : g.Wraps c symbol head)
    (hexpects : g.Expects S head a) {t' : StateId} (ht' : c.target? F.state head = some t') :
    g.Expects S symbol a ∧ ∃ t, c.target? F.state symbol = some t ∧
      Relation.TransGen (g.ReducesAbove c a F.length) ((symbol, t) :: F) ((head, t') :: F) := by
  obtain ⟨-, -, i, p, β, -, -, -, hp, rfl, hbody, hβ, hreducible⟩ := hwraps
  obtain ⟨j, hj, hnext, ha⟩ := hexpects
  obtain ⟨q, hq, hsymbol⟩ := nextSymbol_eq_some.mp hnext
  have hterminal := h.wellFormed.isTerminal_of_ahead ha
  have hne := ha.ne_empty
  -- the production is in the state, with the terminal as its lookahead
  have hexpansion := h.automaton.expansion_mem h.wellFormed hS hj hq hsymbol hp ((ahead_advanced_iff hq).mp ha)
  have hnext' : g.nextSymbol ⟨i.production, 0, a⟩ = some symbol := nextSymbol_eq_some.mpr ⟨p, hp, by simp [hbody]⟩
  have hself : a ∈ g.first [a] := mem_first_singleton (h.wellFormed.firstSets_terminal hterminal)
  have hafter : p.body.drop 1 = β := by simp [hbody]
  have hahead : g.Ahead (Item.advanced ⟨i.production, 0, a⟩) a := by
    refine ⟨p, hp, ?_, hne⟩
    change a ∈ g.first (p.body.drop 1 ++ [a])
    rw [hafter]
    exact (mem_first_append β [a]).mpr (Or.inr ⟨h.wellFormed.empty_mem_first hβ, hself⟩)
  obtain ⟨t, T, ht, hT, hadvanced⟩ := h.automaton.exists_target h.wellFormed hS hexpansion hnext'
  refine ⟨⟨_, hexpansion, hnext', hahead⟩, t, ht, ?_⟩
  have hdrop : p.body.drop (Item.advanced ⟨i.production, 0, a⟩).dot = β ++ [] := by
    rw [List.append_nil]
    exact hafter
  obtain ⟨H, hlength, hreaches, S', hS', hend⟩ :=
    h.reducible_reaches hgood hβ (F := (symbol, t) :: F) (Nat.le_succ F.length) hT hadvanced hp hdrop hself hne
  have hdot : (Item.advanced ⟨i.production, 0, a⟩).dot + β.length = p.body.length := by
    rw [hbody, List.length_cons]
    exact Nat.add_comm 1 β.length
  rw [hdot] at hend
  have hreduce : (g.tableOf c).action (Trail.state (H ++ (symbol, t) :: F)) a = .reduce i.production := by
    rcases h.action_complete hS' hp hend with ⟨hhead, hend, -⟩ | ⟨-, hreduce⟩
    · exact absurd hend (hgood (hreducible hhead))
    · exact hreduce
  have hbelow : (H ++ (symbol, t) :: F).drop p.body.length = F := by
    rw [hbody, List.length_cons, ← hlength, List.drop_append, List.drop_of_length_le (Nat.le_succ _)]
    simp
  refine Relation.TransGen.tail' hreaches ⟨⟨i.production, p, t', hreduce, hp, ?_, ?_, ?_⟩, Nat.lt_succ_self _⟩
  · rw [hbody, List.length_append, hlength, List.length_cons, List.length_cons]
    omega
  · rw [hbelow]
    exact ht'
  · rw [hbelow]

theorem Wraps.chain_reaches (h : g.Orderly c) (hgood : g.Nested → a ≠ g.endOfInput) {F : Trail} {S : ItemSet}
    (hS : c.states[F.state]? = some S) {symbol head : SymbolId} (hchain : Relation.TransGen (g.Wraps c) symbol head) :
    ∀ {t' : StateId}, g.Expects S head a → c.target? F.state head = some t' →
    g.Expects S symbol a ∧ ∃ t, c.target? F.state symbol = some t ∧
      Relation.TransGen (g.ReducesAbove c a F.length) ((symbol, t) :: F) ((head, t') :: F) := by
  induction hchain with
  | single hwraps => exact fun hexpects ht' => hwraps.reaches h hgood hS hexpects ht'
  | tail _ hwraps ih =>
    intro t' hexpects ht'
    obtain ⟨hexpects, t, ht, hrun⟩ := hwraps.reaches h hgood hS hexpects ht'
    obtain ⟨hexpects, t, ht, hrun'⟩ := ih hexpects ht
    exact ⟨hexpects, t, ht, hrun'.trans hrun⟩

/-- **No symbol is wrapped into itself**: a run of reductions would go round in circles above a state where runs stop. -/
theorem Orderly.not_wraps_self (h : g.Orderly c) (symbol : SymbolId) :
    ¬ Relation.TransGen (g.Wraps c) symbol symbol := by
  intro hcycle
  obtain ⟨head, ⟨s, S, i, p, β, hS, hi, hdot, hp, -, hbody, hβ, -⟩, -⟩ := Relation.TransGen.head'_iff.mp hcycle
  obtain ⟨s', S', hS', i', hi', hcore, hgood⟩ := h.exists_good hS hi
  obtain ⟨hproduction, hdot'⟩ := core_eq_iff.mp hcore
  rw [← hproduction] at hp
  rw [hdot] at hdot'
  have hvalid := h.automaton.validItem h.wellFormed hS' hi'
  have hnext : g.nextSymbol i' = some symbol := nextSymbol_eq_some.mpr ⟨p, hp, by simp [hdot', hbody]⟩
  have hahead : g.Ahead i'.advanced i'.lookahead := by
    refine (ahead_advanced_iff hp).mpr (mem_followers.mpr ⟨?_, hvalid.nonempty⟩)
    rw [Production.after, hdot', hbody, Nat.zero_add, List.drop_one, List.tail_cons]
    refine (mem_first_append _ _).mpr (Or.inr ⟨h.wellFormed.empty_mem_first hβ, ?_⟩)
    exact mem_first_singleton (h.wellFormed.firstSets_terminal hvalid.lookahead)
  obtain ⟨t, -, ht, -, -⟩ := h.automaton.exists_target h.wellFormed hS' hi' hnext
  obtain ⟨-, t', ht', hrun⟩ :=
    Wraps.chain_reaches h hgood (F := [(symbol, s')]) hS' hcycle ⟨i', hi', hnext, hahead⟩ ht
  cases ht.symm.trans ht'
  exact (h.stops_of_waiting (F := [(symbol, s')]) hS' hi' hnext ht hahead).not_cycle hrun

theorem transGen_of_forall {α : Type} {r : α → α → Prop} {f : ℕ → α} (h : ∀ n, r (f n) (f (n + 1))) (m : ℕ) :
    ∀ k, Relation.TransGen r (f m) (f (m + 1 + k))
  | 0 => .single (h m)
  | k + 1 => .tail (transGen_of_forall h m k) (h (m + 1 + k))

/-- A symbol can be wrapped only so often. -/
theorem Orderly.wellFounded_wraps (h : g.Orderly c) : WellFounded fun head symbol => g.Wraps c symbol head := by
  refine wellFounded_iff_isEmpty_descending_chain.mpr ⟨fun ⟨f, hf⟩ => ?_⟩
  -- the heads of an endless sequence are heads of productions, so one of them comes twice
  have hhead : ∀ n, f (n + 1) ∈ (g.productions.toList.map Production.head).toFinset := by
    intro n
    obtain ⟨-, -, i, p, -, -, -, -, hp, hhead, -⟩ := hf n
    rw [← hhead]
    exact List.mem_toFinset.mpr (List.mem_map_of_mem (Array.mem_toList_iff.mpr (Array.mem_of_getElem? hp)))
  obtain ⟨m, n, hne, heq⟩ := Finite.exists_ne_map_eq_of_infinite
    fun n => (⟨f (n + 1), hhead n⟩ : (g.productions.toList.map Production.head).toFinset)
  have hcycle : ∀ {m n : ℕ}, m < n → f (m + 1) = f (n + 1) → False := by
    intro m n hlt heq
    have hchain := transGen_of_forall hf (m + 1) (n - m - 1)
    rw [show m + 1 + 1 + (n - m - 1) = n + 1 by omega, ← heq] at hchain
    exact h.not_wraps_self _ hchain
  have heq' : f (m + 1) = f (n + 1) := congrArg Subtype.val heq
  rcases Nat.lt_or_gt_of_ne hne with hlt | hlt
  · exact hcycle hlt heq'
  · exact hcycle hlt heq'.symm

/-! ## Gliding -/

/-- A transition over a symbol that vanishes. -/
def Glides (g : Grammar) (c : Collection) (s t : StateId) : Prop :=
  ∃ symbol, c.target? s symbol = some t ∧ g.Vanishes g.Reducible [symbol]

/-- An item comes from another one by demands and by moving the dot over vanishing symbols, so many times. -/
inductive Climbs (g : Grammar) : Nat → Item → Item → Prop
  | refl (i : Item) : Climbs g 0 i i
  | demand {n : Nat} {i j k : Item} : Climbs g n i j → g.Demands j k → Climbs g n i k
  | advance {n : Nat} {i j : Item} {symbol : SymbolId} : Climbs g n i j → g.nextSymbol j = some symbol →
      g.Vanishes g.Reducible [symbol] → Climbs g (n + 1) i j.advanced

variable {n : Nat} {i j : Item}

theorem Climbs.yields {k : Item} (h : g.Climbs n i j) (hyields : g.Yields j k) : g.Climbs n i k := by
  induction hyields with
  | refl => exact h
  | tail _ hstep ih => exact ih.demand hstep

theorem Climbs.valid (wf : g.WellFormed) (h : g.Climbs n i j) (hi : g.ValidItem i) : g.ValidItem j := by
  induction h with
  | refl => exact hi
  | demand _ hdemands _ => exact wf.validItem_of_demands hdemands
  | advance _ hnext _ ih => exact (ih hi).advanced hnext

theorem Climbs.ahead (wf : g.WellFormed) (h : g.Climbs n i j) (ha : g.Ahead j a) : g.Ahead i a := by
  induction h with
  | refl => exact ha
  | demand _ hdemands ih => exact ih (wf.ahead_of_demands hdemands ha)
  | advance _ hnext hvanishes ih => exact ih (wf.ahead_of_advanced hnext hvanishes ha)

theorem Climbs.lookahead_ne_end (h : g.Orderly c) (hclimbs : g.Climbs n i j) (hi : g.ValidItem i)
    (hne : i.lookahead ≠ g.endOfInput) : j.lookahead ≠ g.endOfInput := by
  induction hclimbs with
  | refl => exact hne
  | demand hclimbs hdemands ih => exact h.lookahead_ne_end (hclimbs.valid h.wellFormed hi) (ih hi hne) hdemands
  | advance _ _ _ ih => exact ih hi hne

/-- The same way up, from an item with another lookahead. -/
theorem Climbs.transfer (wf : g.WellFormed) (h : g.Climbs n i j) {i' : Item} (hcore : i'.core = i.core)
    (hi' : g.ValidItem i') : ∃ j', g.Climbs n i' j' ∧ j'.core = j.core := by
  induction h with
  | refl => exact ⟨i', .refl i', hcore⟩
  | demand _ hdemands ih =>
    obtain ⟨j', hj', hcore'⟩ := ih hcore
    obtain ⟨k', hk', hcore''⟩ := wf.exists_demands hcore' (hj'.valid wf hi') hdemands
    exact ⟨k', hj'.demand hk', hcore''⟩
  | advance _ hnext hvanishes ih =>
    obtain ⟨j', hj', hcore'⟩ := ih hcore
    exact ⟨j'.advanced, hj'.advance ((nextSymbol_congr hcore').trans hnext) hvanishes, core_advanced hcore'⟩

/-- **A climb is a run**: with something ahead of the last item, the table reduces the vanishing symbols out of nothing. -/
theorem Climbs.reaches (h : g.Orderly c) (hgood : g.Nested → a ≠ g.endOfInput) (hclimbs : g.Climbs n i j) {F : Trail}
    {S : ItemSet} (hS : c.states[F.state]? = some S) (hi : i ∈ S) (ha : g.Ahead j a) :
    ∃ H : Trail, H.length = n ∧ g.Reaches c a F.length F (H ++ F) ∧
      ∃ S', c.states[Trail.state (H ++ F)]? = some S' ∧ j ∈ S' := by
  induction hclimbs with
  | refl => exact ⟨[], rfl, Relation.ReflTransGen.refl, S, hS, hi⟩
  | demand _ hdemands ih =>
    obtain ⟨H, hlength, hreaches, S', hS', hj⟩ := ih hi (h.wellFormed.ahead_of_demands hdemands ha)
    exact ⟨H, hlength, hreaches, S', hS', ((h.automaton.joined hS').isState h.wellFormed).closed _ hj _ hdemands⟩
  | @advance n i j symbol _ hnext hvanishes ih =>
    obtain ⟨H, hlength, hreaches, S', hS', hj⟩ := ih hi (h.wellFormed.ahead_of_advanced hnext hvanishes ha)
    obtain ⟨p, hp, hsymbol⟩ := nextSymbol_eq_some.mp hnext
    obtain ⟨hafter, hne⟩ := mem_followers.mp ((ahead_advanced_iff hp).mp ha)
    have hheight : F.length ≤ (H ++ F).length := by
      rw [List.length_append]
      omega
    obtain ⟨H', hlength', hreaches', S'', hS'', hend⟩ :=
      h.reducible_reaches hgood hvanishes hheight hS' hj hp (drop_eq_cons hsymbol) hafter hne
    refine ⟨H' ++ H, ?_, ?_, S'', ?_, hend⟩
    · rw [List.length_append, hlength, hlength', List.length_singleton, Nat.add_comm]
    · rw [List.append_assoc]
      exact hreaches.trans hreaches'
    · rw [List.append_assoc]
      exact hS''

/-- The items of a state are reached by a climb along any way of gliding there. -/
theorem Orderly.exists_climbs (h : g.Orderly c) {f : ℕ → StateId} (hf : ∀ n, g.Glides c (f n) (f (n + 1))) :
    ∀ (n : ℕ) {S : ItemSet} {i : Item}, c.states[f n]? = some S → i ∈ S →
      ∃ S₀, c.states[f 0]? = some S₀ ∧ ∃ i₀ ∈ S₀, ∃ j, g.Climbs n i₀ j ∧ j.core = i.core
  | 0, S, i, hS, hi => ⟨S, hS, i, hi, i, .refl i, rfl⟩
  | n + 1, T, i, hT, hi => by
    have wf := h.wellFormed
    obtain ⟨symbol, htarget, hvanishes⟩ := hf n
    obtain ⟨S, T', hS, hT', hsymbol, hkernel⟩ := h.automaton.sound htarget
    cases hT.symm.trans hT'
    have hgoto := ((h.automaton.joined hS).isState wf).gotoNext wf symbol
    obtain ⟨x, hx, hcore⟩ := ((h.automaton.joined hT).isState wf).coresIn wf hgoto hkernel i hi
    obtain ⟨k, hk, hnext, hyields⟩ := wf.mem_gotoNext.mp hx
    obtain ⟨S₀, hS₀, i₀, hi₀, j, hj, hcore'⟩ := Orderly.exists_climbs h hf n hS hk
    have hvalid := (hj.valid wf (h.automaton.validItem wf hS₀ hi₀))
    have hnext' : g.nextSymbol j = some symbol := (nextSymbol_congr hcore').trans hnext
    obtain ⟨j', hj', hcore''⟩ := wf.exists_yields (core_advanced hcore') (hvalid.advanced hnext') hyields
    exact ⟨S₀, hS₀, i₀, hi₀, j', (hj.advance hnext' hvanishes).yields hj', hcore''.trans hcore⟩

/-- Climbs from one item are bounded, for each terminal ahead of their end. -/
theorem Orderly.climbs_bounded_of_ahead (h : g.Orderly c) (i : Item) (a : SymbolId) : ∃ bound, ∀ (s : StateId)
    (S : ItemSet) (n : Nat) (j : Item), c.states[s]? = some S → i ∈ S → (g.Nested → a ≠ g.endOfInput) →
      g.Climbs n i j → g.Ahead j a → n ≤ bound := by
  by_cases hstate : ∃ (s : StateId) (S : ItemSet), c.states[s]? = some S ∧ i ∈ S ∧ g.Ahead i a
  · obtain ⟨s, S, hS, hi, ha⟩ := hstate
    obtain ⟨bound, hbound⟩ := (h.stops_of_ahead (F := [(a, s)]) hS hi ha).bounded
    refine ⟨bound, fun s' S' n j hS' hi' hgood hclimbs hj => ?_⟩
    obtain ⟨H, hlength, hreaches, -⟩ := hclimbs.reaches h hgood (F := [(a, s)]) hS hi hj
    have := hbound _ hreaches
    rw [List.length_append, hlength] at this
    omega
  · refine ⟨0, fun s S n j hS hi _ hclimbs hj => ?_⟩
    exact absurd ⟨s, S, hS, hi, hclimbs.ahead h.wellFormed hj⟩ hstate

/-- **Climbs are bounded.** -/
theorem Orderly.climbs_bounded (h : g.Orderly c) : ∃ bound, ∀ (s : StateId) (S : ItemSet) (n : Nat) (i j : Item),
    c.states[s]? = some S → i ∈ S → g.Climbs n i j → n ≤ bound := by
  have wf := h.wellFormed
  choose bound hbound using h.climbs_bounded_of_ahead
  refine ⟨(g.allItems ×ˢ g.symbolIds).sup fun x => bound x.1 x.2, fun s S n i j hS hi hclimbs => ?_⟩
  -- the same climb, from where nothing is accepted on the way
  obtain ⟨s', S', hS', i', hi', hcore, hgood⟩ := h.exists_good hS hi
  have hvalid := h.automaton.validItem wf hS' hi'
  obtain ⟨j', hclimbs', -⟩ := hclimbs.transfer wf hcore hvalid
  have hvalid' := hclimbs'.valid wf hvalid
  obtain ⟨p, hp, -⟩ := hvalid'.production
  obtain ⟨a, ha, hne⟩ := h.productive.exists_ahead wf hp j'.dot hvalid'.lookahead hvalid'.nonempty
  have hahead : g.Ahead j' a := ⟨p, hp, ha, hne⟩
  have hgood' : g.Nested → a ≠ g.endOfInput := fun hnested =>
    h.ahead_ne_end hvalid' (hclimbs'.lookahead_ne_end h hvalid (hgood hnested)) hahead
  have hmem : (i', a) ∈ g.allItems ×ˢ g.symbolIds :=
    Finset.mem_product.mpr ⟨wf.mem_allItems hvalid, wf.mem_symbolIds_of_isTerminal (wf.isTerminal_of_ahead hahead)⟩
  exact (hbound i' a s' S' n j' hS' hi' hgood' hclimbs' hahead).trans
    (Finset.le_sup (f := fun x : Item × SymbolId => bound x.1 x.2) hmem)

/-- **Gliding comes to an end.** -/
theorem Orderly.wellFounded_glides (h : g.Orderly c) : WellFounded fun t s => g.Glides c s t := by
  refine wellFounded_iff_isEmpty_descending_chain.mpr ⟨fun ⟨f, hf⟩ => ?_⟩
  obtain ⟨bound, hbound⟩ := h.climbs_bounded
  obtain ⟨symbol, htarget, -⟩ := hf (bound + 1)
  obtain ⟨S, -, hS, -, hsymbol, -⟩ := h.automaton.sound htarget
  obtain ⟨i, hi, -⟩ := mem_nextSymbols.mp hsymbol
  obtain ⟨S₀, hS₀, i₀, hi₀, j, hclimbs, -⟩ := h.exists_climbs hf (bound + 1) hS hi
  exact absurd (hbound (f 0) S₀ _ i₀ j hS₀ hi₀ hclimbs) (Nat.not_succ_le_self bound)

end ShaderFront.Grammar
