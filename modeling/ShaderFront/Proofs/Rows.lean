import Mathlib
import ShaderFront.Proofs.Merged

/-!
# Rows of a table

A row keeps the first action demanded for a symbol and rejects every other one (`Row.get?_foldl_meet`,
`Row.rejectedFor_foldl_meet`, together `Row.Meets`). So it rejects nothing iff its demands agree with each other
(`Row.Meets.rejected_eq_nil_iff`), and then every demanded action is in the table.

The second half says the same of a whole table, in terms of the items and transitions of its automaton: an action of the
table is demanded by an item (`Grammar.action_cases`), and without conflicts every demanded action is in the table
(`Grammar.action_of_demand`). A canonical table has no conflicts if the table of unions has none.
-/

namespace ShaderFront

/-! ## Demands met -/

namespace Demand

/-- The action that is demanded for a symbol. -/
def actionFor? (symbol : SymbolId) : Demand → Option Action
  | .act s action => if s = symbol then some action else none
  | .goto _ _ => none

/-- The state that is demanded to be entered over a symbol. -/
def gotoFor? (symbol : SymbolId) : Demand → Option StateId
  | .act _ _ => none
  | .goto s target => if s = symbol then some target else none

theorem actionFor?_eq_some {symbol : SymbolId} {d : Demand} {action : Action} :
    d.actionFor? symbol = some action ↔ d = .act symbol action := by
  cases d <;> simp [actionFor?]

theorem gotoFor?_eq_some {symbol : SymbolId} {d : Demand} {target : StateId} :
    d.gotoFor? symbol = some target ↔ d = .goto symbol target := by
  cases d <;> simp [gotoFor?]

end Demand

namespace Row

/-- The actions that were demanded for a symbol but not kept. -/
def rejectedFor (row : Row) (symbol : SymbolId) : List Action :=
  row.rejected.filterMap fun (s, action) => if s = symbol then some action else none

theorem mem_rejectedFor {row : Row} {symbol : SymbolId} {action : Action} :
    action ∈ row.rejectedFor symbol ↔ (symbol, action) ∈ row.rejected := by
  simp [rejectedFor]

/-- Only the first action for a symbol is kept. -/
theorem get?_meet (row : Row) (d : Demand) (symbol : SymbolId) :
    (row.meet d).actions.get? symbol = (row.actions.get? symbol).or (d.actionFor? symbol) := by
  cases d with
  | goto s target => simp [meet, Demand.actionFor?]
  | act s action =>
    rw [meet, Demand.actionFor?]
    cases hget : row.actions.get? s with
    | none =>
      simp only [OrderedMap.get?_insert]
      split
      · rename_i hs
        rw [← hs, hget, Option.none_or]
      · rw [Option.or_none]
    | some existing =>
      have hsame : (if existing = action then row else { row with rejected := row.rejected ++ [(s, action)] }).actions =
          row.actions := by split <;> rfl
      simp only [hsame]
      split
      · rename_i hs
        rw [← hs, hget, Option.some_or]
      · rw [Option.or_none]

/-- An action is rejected iff it is not the one that is kept then. -/
theorem rejectedFor_meet (row : Row) (d : Demand) (symbol : SymbolId) : (row.meet d).rejectedFor symbol =
    row.rejectedFor symbol ++ (d.actionFor? symbol).toList.filter fun a => (row.meet d).actions.get? symbol ≠ some a := by
  rw [get?_meet]
  cases d with
  | goto s target => simp [meet, Demand.actionFor?, rejectedFor]
  | act s action =>
    rw [meet, Demand.actionFor?]
    cases hget : row.actions.get? s with
    | none =>
      simp only
      split
      · rename_i hs
        simp [← hs, hget, rejectedFor]
      · simp [rejectedFor]
    | some existing =>
      simp only
      split
      · rename_i heq
        split
        · rename_i hs
          simp [← hs, hget, heq]
        · simp
      · rename_i hne
        split
        · rename_i hs
          simp [← hs, hget, hne, rejectedFor]
        · rename_i hs
          simp [hs, rejectedFor]

/-- The last state for a symbol is entered. -/
theorem gotos_meet (row : Row) (d : Demand) (symbol : SymbolId) :
    (row.meet d).gotos.get? symbol = (d.gotoFor? symbol).or (row.gotos.get? symbol) := by
  cases d with
  | goto s target =>
    rw [meet, OrderedMap.get?_insert, Demand.gotoFor?]
    split <;> simp
  | act s action =>
    rw [meet]
    split
    · simp [Demand.gotoFor?]
    · split <;> simp [Demand.gotoFor?]

/-- **The first action demanded for a symbol is kept.** -/
theorem get?_foldl_meet (demands : List Demand) (row : Row) (symbol : SymbolId) :
    (demands.foldl meet row).actions.get? symbol =
      (row.actions.get? symbol).or (demands.filterMap (·.actionFor? symbol)).head? := by
  induction demands generalizing row with
  | nil => simp
  | cons d demands ih =>
    rw [List.foldl_cons, ih, get?_meet, List.filterMap_cons]
    cases d.actionFor? symbol with
    | none => simp
    | some action => cases row.actions.get? symbol <;> simp

/-- **Every action that differs from the one that is kept is rejected.** -/
theorem rejectedFor_foldl_meet (demands : List Demand) (row : Row) (symbol : SymbolId) :
    (demands.foldl meet row).rejectedFor symbol = row.rejectedFor symbol ++
      (demands.filterMap (·.actionFor? symbol)).filter fun a => (demands.foldl meet row).actions.get? symbol ≠ some a := by
  induction demands generalizing row with
  | nil => simp
  | cons d demands ih =>
    rw [List.foldl_cons, ih, rejectedFor_meet, List.append_assoc, List.filterMap_cons]
    cases hd : d.actionFor? symbol with
    | none => simp
    | some action =>
      -- what is kept after the first demand for a symbol stays
      have hkept : (demands.foldl meet (row.meet d)).actions.get? symbol = (row.meet d).actions.get? symbol := by
        rw [get?_foldl_meet, get?_meet, hd]
        cases row.actions.get? symbol <;> rfl
      simp only [hkept, Option.toList_some, ← List.filter_append]
      rfl

theorem gotos_foldl_meet (demands : List Demand) (row : Row) (symbol : SymbolId) :
    (demands.foldl meet row).gotos.get? symbol =
      (demands.filterMap (·.gotoFor? symbol)).getLast?.or (row.gotos.get? symbol) := by
  induction demands using List.reverseRecOn with
  | nil => rfl
  | append_singleton demands d ih =>
    rw [List.foldl_append, List.foldl_cons, List.foldl_nil, gotos_meet, ih, List.filterMap_append, List.getLast?_append]
    cases hd : d.gotoFor? symbol <;> simp [hd]

/-- What a row holds after some demands. -/
structure Meets (demands : List Demand) (row : Row) : Prop where
  kept : ∀ {symbol : SymbolId} {action : Action}, row.actions.get? symbol = some action → .act symbol action ∈ demands
  met : ∀ {symbol : SymbolId} {action : Action}, .act symbol action ∈ demands →
    row.actions.get? symbol = some action ∨ (symbol, action) ∈ row.rejected
  rejected : ∀ {symbol : SymbolId} {action : Action}, (symbol, action) ∈ row.rejected →
    .act symbol action ∈ demands ∧ ∃ existing, row.actions.get? symbol = some existing ∧ existing ≠ action
  goto_kept : ∀ {symbol : SymbolId} {target : StateId}, row.gotos.get? symbol = some target →
    .goto symbol target ∈ demands
  goto_met : ∀ {symbol : SymbolId} {target : StateId}, .goto symbol target ∈ demands →
    ∃ target', row.gotos.get? symbol = some target'

theorem mem_actions {demands : List Demand} {symbol : SymbolId} {action : Action} :
    action ∈ demands.filterMap (·.actionFor? symbol) ↔ .act symbol action ∈ demands := by
  simp [Demand.actionFor?_eq_some]

theorem mem_gotos {demands : List Demand} {symbol : SymbolId} {target : StateId} :
    target ∈ demands.filterMap (·.gotoFor? symbol) ↔ .goto symbol target ∈ demands := by
  simp [Demand.gotoFor?_eq_some]

/-- The row of a list of demands. -/
theorem meets_foldl (demands : List Demand) : Meets demands (demands.foldl meet {}) := by
  have hkept : ∀ symbol, (demands.foldl meet {}).actions.get? symbol = (demands.filterMap (·.actionFor? symbol)).head? :=
    fun symbol => get?_foldl_meet demands {} symbol
  have hrejected : ∀ {symbol action}, (symbol, action) ∈ (demands.foldl meet {}).rejected ↔
      .act symbol action ∈ demands ∧ (demands.foldl meet {}).actions.get? symbol ≠ some action := by
    intro symbol action
    rw [← mem_rejectedFor, rejectedFor_foldl_meet, ← mem_actions]
    simp [rejectedFor]
  have hgoto : ∀ symbol, (demands.foldl meet {}).gotos.get? symbol = (demands.filterMap (·.gotoFor? symbol)).getLast? :=
    fun symbol => (gotos_foldl_meet demands {} symbol).trans (Option.or_none ..)
  refine ⟨fun {symbol action} hx => ?_, fun {symbol action} hx => ?_, fun {symbol action} hx => ?_,
    fun {symbol target} hx => ?_, fun {symbol target} hx => ?_⟩
  · exact mem_actions.mp (List.mem_of_head? ((hkept symbol).symm.trans hx))
  · exact or_iff_not_imp_left.mpr fun hne => hrejected.mpr ⟨hx, hne⟩
  · obtain ⟨hmem, hne⟩ := hrejected.mp hx
    obtain ⟨existing, hexisting⟩ := Option.isSome_iff_exists.mp (List.isSome_head?.mpr (List.ne_nil_of_mem (mem_actions.mpr hmem)))
    rw [← hkept symbol] at hexisting
    exact ⟨hmem, existing, hexisting, fun heq => hne (heq ▸ hexisting)⟩
  · exact mem_gotos.mp (List.mem_of_getLast? ((hgoto symbol).symm.trans hx))
  · rw [hgoto symbol]
    exact Option.isSome_iff_exists.mp (List.getLast?_isSome.mpr (List.ne_nil_of_mem (mem_gotos.mpr hx)))

/-- **A row rejects nothing iff its demands agree.** -/
theorem Meets.rejected_eq_nil_iff {demands : List Demand} {row : Row} (h : Meets demands row) : row.rejected = [] ↔
    ∀ symbol action action', .act symbol action ∈ demands → .act symbol action' ∈ demands → action = action' := by
  constructor
  · intro hnil symbol action action' hact hact'
    have hkept : ∀ {a : Action}, .act symbol a ∈ demands → row.actions.get? symbol = some a := by
      intro a ha
      refine (h.met ha).resolve_right fun hmem => ?_
      rw [hnil] at hmem
      exact absurd hmem List.not_mem_nil
    exact Option.some.inj ((hkept hact).symm.trans (hkept hact'))
  · intro hagree
    rw [List.eq_nil_iff_forall_not_mem]
    rintro ⟨symbol, action⟩ hmem
    obtain ⟨hact, existing, hexisting, hne⟩ := h.rejected hmem
    exact hne (hagree symbol existing action (h.kept hexisting) hact)

end Row

namespace Grammar

variable {g : Grammar} {c : Collection}

/-! ## Demands of items -/

/-- What it takes for an item to demand an action. -/
theorem demand?_eq_act {i : StateId} {item : Item} {symbol : SymbolId} {action : Action}
    (h : g.demand? (c.transitionsAt i) item = some (.act symbol action)) :
    (∃ t, g.nextSymbol item = some symbol ∧ g.isTerminal symbol = true ∧ c.target? i symbol = some t ∧
      action = .shift t) ∨
    ∃ p, g.production? item.production = some p ∧ p.body[item.dot]? = none ∧
      (p.head = g.start ∧ item.lookahead = g.endOfInput ∧ symbol = g.endOfInput ∧ action = .accept ∨
        ¬ (p.head = g.start ∧ item.lookahead = g.endOfInput) ∧ symbol = item.lookahead ∧ action = .reduce p.id) := by
  unfold demand? at h
  split at h
  · cases h
  · rename_i p hp
    split at h
    · rename_i next hnext
      split at h
      · cases h
      · rename_i t ht
        split at h
        · rename_i hterminal
          cases h
          exact Or.inl ⟨t, nextSymbol_eq_some.mpr ⟨p, hp, hnext⟩, hterminal, ht, rfl⟩
        · cases h
    · rename_i hnone
      right
      refine ⟨p, hp, hnone, ?_⟩
      split at h
      · rename_i hstart
        cases h
        obtain ⟨hhead, hlookahead⟩ : p.head = g.start ∧ item.lookahead = g.endOfInput := by simpa using hstart
        exact Or.inl ⟨hhead, hlookahead, rfl, rfl⟩
      · rename_i hstart
        cases h
        exact Or.inr ⟨by simpa using hstart, rfl, rfl⟩

theorem demand?_eq_goto {i : StateId} {item : Item} {symbol : SymbolId} {t : StateId}
    (h : g.demand? (c.transitionsAt i) item = some (.goto symbol t)) : c.target? i symbol = some t := by
  unfold demand? at h
  split at h
  · cases h
  · split at h
    · split at h
      · cases h
      · rename_i ht
        split at h
        · cases h
        · cases h
          exact ht
    · split at h <;> cases h

theorem demand?_shift {i t : StateId} {item : Item} {symbol : SymbolId} (hnext : g.nextSymbol item = some symbol)
    (hterminal : g.isTerminal symbol = true) (ht : c.target? i symbol = some t) :
    g.demand? (c.transitionsAt i) item = some (.act symbol (.shift t)) := by
  obtain ⟨p, hp, hsymbol⟩ := nextSymbol_eq_some.mp hnext
  have ht' : (c.transitionsAt i).get? symbol = some t := ht
  simp [demand?, hp, Production.symbolAt, hsymbol, ht', hterminal]

theorem demand?_goto {i t : StateId} {item : Item} {symbol : SymbolId} (hnext : g.nextSymbol item = some symbol)
    (hterminal : g.isTerminal symbol = false) (ht : c.target? i symbol = some t) :
    g.demand? (c.transitionsAt i) item = some (.goto symbol t) := by
  obtain ⟨p, hp, hsymbol⟩ := nextSymbol_eq_some.mp hnext
  have ht' : (c.transitionsAt i).get? symbol = some t := ht
  simp [demand?, hp, Production.symbolAt, hsymbol, ht', hterminal]

theorem demand?_accept {i : StateId} {item : Item} {p : Production} (hp : g.production? item.production = some p)
    (hnone : p.body[item.dot]? = none) (hhead : p.head = g.start) (hlookahead : item.lookahead = g.endOfInput) :
    g.demand? (c.transitionsAt i) item = some (.act g.endOfInput .accept) := by
  simp [demand?, hp, Production.symbolAt, hnone, hhead, hlookahead]

theorem demand?_reduce {i : StateId} {item : Item} {p : Production} (hp : g.production? item.production = some p)
    (hnone : p.body[item.dot]? = none) (hhead : ¬ (p.head = g.start ∧ item.lookahead = g.endOfInput)) :
    g.demand? (c.transitionsAt i) item = some (.act item.lookahead (.reduce p.id)) := by
  simp [demand?, hp, Production.symbolAt, hnone, hhead]

/-! ## Rows of states -/

theorem getElem?_rows_tableOf (i : StateId) :
    (g.tableOf c).rows[i]? = c.states[i]?.map (g.row (c.transitionsAt i)) := by
  simp [tableOf]

theorem mem_demands {i : StateId} {S : ItemSet} {d : Demand} :
    d ∈ S.toList.filterMap (g.demand? (c.transitionsAt i)) ↔
      ∃ item ∈ S, g.demand? (c.transitionsAt i) item = some d := by
  rw [List.mem_filterMap]
  rfl

theorem meets_row (i : StateId) (S : ItemSet) :
    Row.Meets (S.toList.filterMap (g.demand? (c.transitionsAt i))) (g.row (c.transitionsAt i) S) :=
  Row.meets_foldl _

/-- An action of a table is demanded by an item, for the symbol itself or for the wildcard in its place. -/
theorem action_cases {i : StateId} {symbol : SymbolId} {action : Action}
    (h : (g.tableOf c).action i symbol = action) (hne : action ≠ .error) :
    ∃ S item expected, c.states[i]? = some S ∧ item ∈ S ∧
      g.demand? (c.transitionsAt i) item = some (.act expected action) ∧
      (expected = symbol ∨ (g.tableOf c).standsFor expected symbol = true) := by
  rw [Table.action, getElem?_rows_tableOf] at h
  cases hS : c.states[i]? with
  | none =>
    rw [hS] at h
    exact absurd h.symm hne
  | some S =>
    have hkept : ∀ {x : SymbolId}, (g.row (c.transitionsAt i) S).actions.get? x = some action →
        ∃ item ∈ S, g.demand? (c.transitionsAt i) item = some (.act x action) :=
      fun hx => mem_demands.mp ((meets_row i S).kept hx)
    simp only [hS, Option.map_some] at h
    split at h
    · rename_i hget
      obtain ⟨item, hitem, hdemand⟩ := hkept (h ▸ hget)
      exact ⟨S, item, symbol, rfl, hitem, hdemand, Or.inl rfl⟩
    · split at h
      · exact absurd h.symm hne
      · rename_i wildcard hwildcard
        split at h
        · exact absurd h.symm hne
        · rename_i hexcluded
          cases hget : (g.row (c.transitionsAt i) S).actions.get? wildcard with
          | none =>
            rw [hget] at h
            exact absurd h.symm hne
          | some a =>
            rw [hget, Option.getD_some] at h
            obtain ⟨item, hitem, hdemand⟩ := hkept (h ▸ hget)
            refine ⟨S, item, wildcard, rfl, hitem, hdemand, Or.inr ?_⟩
            simpa [Table.standsFor, hwildcard] using hexcluded

/-- Gotos are transitions. -/
theorem target?_of_goto {i t : StateId} {symbol : SymbolId} (h : (g.tableOf c).goto i symbol = some t) :
    c.target? i symbol = some t := by
  rw [Table.goto, getElem?_rows_tableOf] at h
  obtain ⟨row, hrow, hget⟩ := Option.bind_eq_some_iff.mp h
  obtain ⟨S, -, rfl⟩ := Option.map_eq_some_iff.mp hrow
  obtain ⟨item, -, hdemand⟩ := mem_demands.mp ((meets_row i S).goto_kept hget)
  exact demand?_eq_goto hdemand

theorem goto_of_target? {i t : StateId} {S : ItemSet} {item : Item} {symbol : SymbolId}
    (hS : c.states[i]? = some S) (hitem : item ∈ S) (hnext : g.nextSymbol item = some symbol)
    (hterminal : g.isTerminal symbol = false) (ht : c.target? i symbol = some t) :
    (g.tableOf c).goto i symbol = some t := by
  have hdemand := demand?_goto hnext hterminal ht
  obtain ⟨t', ht'⟩ := (meets_row i S).goto_met (mem_demands.mpr ⟨item, hitem, hdemand⟩)
  have hgoto : (g.tableOf c).goto i symbol = some t' := by
    rw [Table.goto, getElem?_rows_tableOf, hS]
    exact ht'
  rw [hgoto, ← target?_of_goto hgoto, ht]

/-! ## Conflicts -/

/-- The items of a state do not demand different actions for one symbol. -/
def Agrees (g : Grammar) (c : Collection) (i : StateId) (S : ItemSet) : Prop :=
  ∀ item ∈ S, ∀ item' ∈ S, ∀ symbol action action', g.demand? (c.transitionsAt i) item = some (.act symbol action) →
    g.demand? (c.transitionsAt i) item' = some (.act symbol action') → action = action'

theorem rejected_row_eq_nil_iff {i : StateId} {S : ItemSet} :
    (g.row (c.transitionsAt i) S).rejected = [] ↔ g.Agrees c i S := by
  rw [(meets_row i S).rejected_eq_nil_iff]
  constructor
  · intro h item hitem item' hitem' symbol action action' hdemand hdemand'
    exact h symbol action action' (mem_demands.mpr ⟨item, hitem, hdemand⟩) (mem_demands.mpr ⟨item', hitem', hdemand'⟩)
  · intro h symbol action action' hact hact'
    obtain ⟨item, hitem, hdemand⟩ := mem_demands.mp hact
    obtain ⟨item', hitem', hdemand'⟩ := mem_demands.mp hact'
    exact h item hitem item' hitem' symbol action action' hdemand hdemand'

/-- **A table has no conflicts iff the items of every state agree.** -/
theorem conflicts_eq_nil_iff : (g.tableOf c).conflicts = [] ↔
    ∀ (i : StateId) (S : ItemSet), c.states[i]? = some S → g.Agrees c i S := by
  rw [Table.conflicts, List.flatMap_eq_nil_iff]
  constructor
  · intro h i S hS
    have hmem : (g.row (c.transitionsAt i) S, i) ∈ (g.tableOf c).rows.toList.zipIdx := by
      rw [List.mem_zipIdx_iff_getElem?, Array.getElem?_toList, getElem?_rows_tableOf, hS]
      rfl
    exact rejected_row_eq_nil_iff.mp (List.map_eq_nil_iff.mp (h _ hmem))
  · rintro h ⟨row, i⟩ hmem
    rw [List.mem_zipIdx_iff_getElem?, Array.getElem?_toList, getElem?_rows_tableOf] at hmem
    obtain ⟨S, hS, hrow : g.row (c.transitionsAt i) S = row⟩ := Option.map_eq_some_iff.mp hmem
    rw [← hrow]
    exact List.map_eq_nil_iff.mpr (rejected_row_eq_nil_iff.mpr (h i S hS))

/-- Without conflicts, every demanded action is in the table. -/
theorem action_of_demand (h : (g.tableOf c).conflicts = []) {i : StateId} {S : ItemSet} {item : Item} {symbol : SymbolId}
    {action : Action} (hS : c.states[i]? = some S) (hitem : item ∈ S)
    (hdemand : g.demand? (c.transitionsAt i) item = some (.act symbol action)) :
    (g.tableOf c).action i symbol = action := by
  have hnil : (g.row (c.transitionsAt i) S).rejected = [] :=
    rejected_row_eq_nil_iff.mpr (conflicts_eq_nil_iff.mp h i S hS)
  have hget : (g.row (c.transitionsAt i) S).actions.get? symbol = some action := by
    refine ((meets_row i S).met (mem_demands.mpr ⟨item, hitem, hdemand⟩)).resolve_right fun hmem => ?_
    rw [hnil] at hmem
    exact absurd hmem List.not_mem_nil
  rw [Table.action, getElem?_rows_tableOf, hS]
  simp only [Option.map_some, hget]

/-! ## Tables without conflicts -/

theorem parserTable_eq_ok {construction : Construction} {t : Table} : g.parserTable construction = .ok t ↔
    (g.table construction).conflicts = [] ∧ t = g.table construction := by
  rw [parserTable]
  simp only [List.isEmpty_iff]
  split
  · rename_i hnil
    simp [hnil, eq_comm]
  · rename_i hne
    simp [hne]

theorem parserTable_of_conflicts {construction : Construction} (h : (g.table construction).conflicts ≠ []) :
    g.parserTable construction = .error (.conflicts (g.table construction).conflicts) := by
  rw [parserTable]
  simp only [List.isEmpty_iff, if_neg h]

/-- Every construction makes an automaton. -/
theorem WellFormed.automaton (wf : g.WellFormed) : ∀ construction, g.Automaton (g.itemSets construction)
  | .canonical => wf.automaton_canonical
  | .merged => by
    rw [itemSets, wf.merged_eq_unioned]
    exact wf.automaton_unioned
  | .unioned => wf.automaton_unioned

/-- Where the union of some sets has no conflicts, none of the sets has. -/
theorem WellFormed.canonical_conflicts_of_unioned (wf : g.WellFormed) (h : (g.table .unioned).conflicts = []) :
    (g.table .canonical).conflicts = [] := by
  refine conflicts_eq_nil_iff.mpr fun i S hS => ?_
  have hunioned := wf.automaton_unioned
  have hR := wf.canonical.reached hS
  obtain ⟨j, V, hV, hker, hsub⟩ := hunioned.exists_state_of_reached wf hR
  have hagrees : g.Agrees g.unionedItemSets j V := conflicts_eq_nil_iff.mp h j V hV
  -- the same item demands the same kind of action from both states
  have htransfer : ∀ {item : Item} {symbol : SymbolId} {action : Action}, item ∈ S →
      g.demand? (g.canonicalItemSets.transitionsAt i) item = some (.act symbol action) →
      ∃ action', g.demand? (g.unionedItemSets.transitionsAt j) item = some (.act symbol action') ∧
        ((∃ t t', g.canonicalItemSets.target? i symbol = some t ∧ action = .shift t ∧ action' = .shift t') ∨
          (action' = action ∧ ∀ t, action ≠ .shift t)) := by
    intro item symbol action hitem hdemand
    rcases demand?_eq_act hdemand with ⟨t, hnext, hterminal, ht, rfl⟩ | ⟨p, hp, hnone, h | h⟩
    · obtain ⟨t', -, ht', -, -⟩ := hunioned.complete hV (mem_nextSymbols.mpr ⟨item, hsub item hitem, hnext⟩)
      exact ⟨.shift t', demand?_shift hnext hterminal ht', Or.inl ⟨t, t', ht, rfl, rfl⟩⟩
    · obtain ⟨hhead, hlookahead, rfl, rfl⟩ := h
      exact ⟨_, demand?_accept hp hnone hhead hlookahead, Or.inr ⟨rfl, fun t => by simp⟩⟩
    · obtain ⟨hhead, rfl, rfl⟩ := h
      exact ⟨_, demand?_reduce hp hnone hhead, Or.inr ⟨rfl, fun t => by simp⟩⟩
  intro item hitem item' hitem' symbol action action' hdemand hdemand'
  obtain ⟨b, hb, hcase⟩ := htransfer hitem hdemand
  obtain ⟨b', hb', hcase'⟩ := htransfer hitem' hdemand'
  have hbb := hagrees item (hsub item hitem) item' (hsub item' hitem') symbol b b' hb hb'
  rcases hcase with ⟨t, u, ht, rfl, rfl⟩ | ⟨rfl, hshift⟩
  · rcases hcase' with ⟨t', u', ht', rfl, rfl⟩ | ⟨rfl, hshift'⟩
    · rw [Option.some.inj (ht.symm.trans ht')]
    · exact absurd hbb.symm (hshift' u)
  · rcases hcase' with ⟨t', u', ht', rfl, rfl⟩ | ⟨rfl, hshift'⟩
    · exact absurd hbb (hshift u')
    · exact hbb

end Grammar

end ShaderFront
