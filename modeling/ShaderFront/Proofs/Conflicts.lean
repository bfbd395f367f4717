import Mathlib
import ShaderFront.Proofs.Rows

/-!
# Conflicts

The actions that the items of a state demand for a terminal, in item order, are `Grammar.demandsOn`. A cell of the table holds
the first of them, and its conflicts are those that differ from it, each as often as it is demanded (`Grammar.cellConflicts`).
No item of a state is passed over (`Grammar.Automaton.exists_demand`).

Main statement: `Grammar.conflicts_exact`.
-/

namespace ShaderFront

/-- Of a numbered list only one entry counts. -/
theorem flatMap_zipIdx_of_ne {α β : Type} {f : α × Nat → List β} {s : Nat} (h : ∀ x n, n ≠ s → f (x, n) = []) (l : List α) :
    l.zipIdx.flatMap f = l[s]?.elim [] fun x => f (x, s) := by
  have hout : ∀ (part : List α) (k : Nat), (∀ n, k ≤ n → n < k + part.length → n ≠ s) → (part.zipIdx k).flatMap f = [] := by
    intro part k hpart
    rw [List.flatMap_eq_nil_iff]
    rintro ⟨x, n⟩ hx
    have hle := List.le_snd_of_mem_zipIdx hx
    have hlt := List.snd_lt_add_of_mem_zipIdx hx
    exact h x n (hpart n hle (by omega))
  cases hget : l[s]? with
  | none =>
    have hlen := List.getElem?_eq_none_iff.mp hget
    exact hout l 0 fun n _ hn => by omega
  | some x =>
    obtain ⟨hlen, hx⟩ := List.getElem?_eq_some_iff.mp hget
    have htake : (l.take s).length = s := List.length_take_of_le hlen.le
    have hsplit : l = l.take s ++ x :: l.drop (s + 1) := by
      rw [← hx, List.getElem_cons_drop, List.take_append_drop]
    rw [Option.elim_some, hsplit, List.zipIdx_append, List.flatMap_append, hout _ 0 fun n _ hn => by omega, htake,
      List.zipIdx_cons, List.flatMap_cons, hout _ _ fun n hn _ => by omega]
    simp

namespace Grammar

variable {g : Grammar} {c : Collection}

/-! ## Demanded actions -/

/-- The action an item demands for a terminal, given the transitions of its state. -/
def demandOn? (g : Grammar) (transitions : OrderedMap SymbolId StateId) (terminal : SymbolId) (item : Item) : Option Action :=
  match g.production? item.production with
  | none => none
  | some p =>
    match p.symbolAt item.dot with
    | some next => if next = terminal ∧ g.isTerminal terminal then (transitions.get? terminal).map .shift else none
    | none =>
      if item.lookahead ≠ terminal then none
      else if p.head = g.start ∧ terminal = g.endOfInput then some .accept
      else some (.reduce p.id)

/-- The actions demanded for a terminal in a state, in item order. -/
def demandsOn (g : Grammar) (transitions : OrderedMap SymbolId StateId) (set : ItemSet) (terminal : SymbolId) : List Action :=
  set.toList.filterMap (g.demandOn? transitions terminal)

/-- The conflicts of a cell: the action demanded first is kept over every other one. -/
def cellConflicts (g : Grammar) (state : StateId) (terminal : SymbolId) : List Action → List Conflict
  | [] => []
  | first :: rest => (rest.filter (· ≠ first)).map fun rejected =>
      { state, symbol := terminal, name := g.symbolName terminal, existing := first, rejected }

theorem demand?_actionFor? (transitions : OrderedMap SymbolId StateId) (terminal : SymbolId) (item : Item) :
    (g.demand? transitions item).bind (·.actionFor? terminal) = g.demandOn? transitions terminal item := by
  unfold demand? demandOn?
  cases g.production? item.production with
  | none => rfl
  | some p =>
    cases p.symbolAt item.dot with
    | none => grind [Demand.actionFor?]
    | some next => grind [Demand.actionFor?]

theorem actions_row (transitions : OrderedMap SymbolId StateId) (S : ItemSet) (terminal : SymbolId) :
    (S.toList.filterMap (g.demand? transitions)).filterMap (·.actionFor? terminal) = g.demandsOn transitions S terminal := by
  rw [List.filterMap_filterMap, demandsOn]
  exact List.filterMap_congr fun item _ => demand?_actionFor? transitions terminal item

/-- A cell holds the action demanded first. -/
theorem get?_row (transitions : OrderedMap SymbolId StateId) (S : ItemSet) (terminal : SymbolId) :
    (g.row transitions S).actions.get? terminal = (g.demandsOn transitions S terminal).head? := by
  rw [row, Row.get?_foldl_meet, actions_row]
  rfl

theorem rejectedFor_row (transitions : OrderedMap SymbolId StateId) (S : ItemSet) (terminal : SymbolId) :
    (g.row transitions S).rejectedFor terminal = (g.demandsOn transitions S terminal).filter fun action =>
      (g.demandsOn transitions S terminal).head? ≠ some action := by
  rw [← get?_row, row, Row.rejectedFor_foldl_meet, actions_row]
  rfl

/-! ## Cells of a table -/

/-- The conflicts of a row, symbol by symbol. -/
theorem filter_rowConflicts (t : Table) (state : StateId) (row : Row) (terminal : SymbolId) :
    (t.rowConflicts state row).filter (·.symbol = terminal) = (row.rejectedFor terminal).map fun rejected =>
      { state, symbol := terminal, name := t.grammar.symbolName terminal
        existing := (row.actions.get? terminal).getD .error, rejected } := by
  rw [Table.rowConflicts, Row.rejectedFor]
  induction row.rejected with
  | nil => rfl
  | cons entry rest ih =>
    obtain ⟨symbol, action⟩ := entry
    by_cases h : symbol = terminal
    · subst h
      simp [ih]
    · simp [ih, h]

theorem filter_conflicts (t : Table) (state : StateId) (terminal : SymbolId) :
    t.conflicts.filter (fun x => x.state = state ∧ x.symbol = terminal) =
      t.rows[state]?.elim [] fun row => (t.rowConflicts state row).filter (·.symbol = terminal) := by
  have hstate : ∀ {row : Row} {n : StateId} {x : Conflict}, x ∈ t.rowConflicts n row → x.state = n := by
    intro row n x hx
    obtain ⟨_, -, rfl⟩ := List.mem_map.mp hx
    rfl
  rw [Table.conflicts, List.filter_flatMap, flatMap_zipIdx_of_ne, Array.getElem?_toList]
  · congr 1
    funext row
    exact List.filter_congr fun x hx => by simp [hstate hx]
  · intro row n hne
    rw [List.filter_eq_nil_iff]
    intro x hx
    simp [hstate hx, hne]

/-- **The conflicts of a cell** are the demands that differ from the first one. -/
theorem filter_conflicts_tableOf {i : StateId} {S : ItemSet} (hS : c.states[i]? = some S) (terminal : SymbolId) :
    (g.tableOf c).conflicts.filter (fun x => x.state = i ∧ x.symbol = terminal) =
      g.cellConflicts i terminal (g.demandsOn (c.transitionsAt i) S terminal) := by
  rw [filter_conflicts, getElem?_rows_tableOf, hS, Option.map_some, Option.elim_some, filter_rowConflicts, rejectedFor_row,
    get?_row]
  cases g.demandsOn (c.transitionsAt i) S terminal with
  | nil => rfl
  | cons first rest => simp [cellConflicts, tableOf, eq_comm]

theorem exists_state_of_mem_conflicts {x : Conflict} (hx : x ∈ (g.tableOf c).conflicts) :
    ∃ S, c.states[x.state]? = some S := by
  obtain ⟨⟨row, i⟩, hrow, hx⟩ := List.mem_flatMap.mp hx
  obtain ⟨_, -, rfl⟩ := List.mem_map.mp hx
  rw [List.mem_zipIdx_iff_getElem?, Array.getElem?_toList, getElem?_rows_tableOf] at hrow
  obtain ⟨S, hS, -⟩ := Option.map_eq_some_iff.mp hrow
  exact ⟨S, hS⟩

theorem mem_cellConflicts {x : Conflict} {S : ItemSet} (hS : c.states[x.state]? = some S)
    (hx : x ∈ (g.tableOf c).conflicts) :
    x ∈ g.cellConflicts x.state x.symbol (g.demandsOn (c.transitionsAt x.state) S x.symbol) := by
  rw [← filter_conflicts_tableOf hS]
  exact List.mem_filter.mpr ⟨hx, by simp⟩

/-- No item of a state is passed over: its production is known, and there is a transition over the symbol after the dot. -/
theorem Automaton.exists_demand (wf : g.WellFormed) (h : g.Automaton c) {i : StateId} {S : ItemSet}
    (hS : c.states[i]? = some S) {item : Item} (hitem : item ∈ S) : ∃ p, g.production? item.production = some p ∧
      ∀ next, p.symbolAt item.dot = some next → ∃ target, (c.transitionsAt i).get? next = some target := by
  obtain ⟨p, hp, -⟩ := (((h.joined hS).isState wf).valid item hitem).production
  refine ⟨p, hp, fun next hnext => ?_⟩
  obtain ⟨t, T, ht, -⟩ := h.complete hS (mem_nextSymbols.mpr ⟨item, hitem, nextSymbol_eq_some.mpr ⟨p, hp, hnext⟩⟩)
  exact ⟨t, ht⟩

/-- Actions are demanded for terminals. -/
theorem Automaton.isTerminal_of_mem_demandsOn (wf : g.WellFormed) (h : g.Automaton c) {i : StateId} {S : ItemSet}
    (hS : c.states[i]? = some S) {terminal : SymbolId} {action : Action}
    (haction : action ∈ g.demandsOn (c.transitionsAt i) S terminal) : g.isTerminal terminal = true := by
  obtain ⟨item, hitem, hdemand⟩ := List.mem_filterMap.mp haction
  have hvalid := ((h.joined hS).isState wf).valid item hitem
  unfold demandOn? at hdemand
  split at hdemand
  · cases hdemand
  · split at hdemand
    · split at hdemand
      · rename_i hnext
        exact hnext.2
      · cases hdemand
    · split at hdemand
      · cases hdemand
      · rename_i hlookahead
        rw [← not_ne_iff.mp hlookahead]
        exact hvalid.lookahead

/-- A cell has a conflict iff two different actions are demanded for it. -/
theorem cellConflicts_ne_nil_iff {state : StateId} {terminal : SymbolId} {demanded : List Action} :
    g.cellConflicts state terminal demanded ≠ [] ↔ ∃ first ∈ demanded, ∃ second ∈ demanded, first ≠ second := by
  cases demanded with
  | nil => simp [cellConflicts]
  | cons first rest =>
    rw [cellConflicts, ne_eq, List.map_eq_nil_iff, List.filter_eq_nil_iff]
    constructor
    · intro h
      simp only [decide_eq_true_eq, not_forall] at h
      obtain ⟨second, hsecond, hne⟩ := h
      exact ⟨first, List.mem_cons_self, second, List.mem_cons_of_mem _ hsecond, fun heq => hne (by simp [heq])⟩
    · rintro ⟨a, ha, b, hb, hne⟩ hall
      have hfirst : ∀ x ∈ first :: rest, x = first := by
        intro x hx
        rcases List.mem_cons.mp hx with rfl | hx
        · rfl
        · simpa using hall x hx
      exact hne ((hfirst a ha).trans (hfirst b hb).symm)

/-- A table is refused iff different actions are demanded for one of its cells. -/
theorem exists_parserTable_error_iff (wf : g.WellFormed) (construction : Construction) :
    (∃ e, g.parserTable construction = .error e) ↔ ∃ i S terminal, (g.itemSets construction).states[i]? = some S ∧
      g.isTerminal terminal = true ∧
      ∃ first ∈ g.demandsOn ((g.itemSets construction).transitionsAt i) S terminal,
        ∃ second ∈ g.demandsOn ((g.itemSets construction).transitionsAt i) S terminal, first ≠ second := by
  constructor
  · rintro ⟨e, he⟩
    have hne : (g.table construction).conflicts ≠ [] := by
      intro hnil
      rw [parserTable_eq_ok.mpr ⟨hnil, rfl⟩] at he
      cases he
    obtain ⟨x, hx⟩ := List.exists_mem_of_ne_nil _ hne
    obtain ⟨S, hS⟩ := exists_state_of_mem_conflicts hx
    obtain ⟨first, hfirst, second, hsecond, hdiffer⟩ :=
      cellConflicts_ne_nil_iff.mp (List.ne_nil_of_mem (mem_cellConflicts hS hx))
    exact ⟨x.state, S, x.symbol, hS, (wf.automaton construction).isTerminal_of_mem_demandsOn wf hS hfirst, first, hfirst,
      second, hsecond, hdiffer⟩
  · rintro ⟨i, S, terminal, hS, -, first, hfirst, second, hsecond, hdiffer⟩
    refine ⟨_, parserTable_of_conflicts fun hnil => ?_⟩
    have hcell := filter_conflicts_tableOf (g := g) hS terminal
    rw [show (g.tableOf (g.itemSets construction)).conflicts = [] from hnil, List.filter_nil] at hcell
    exact cellConflicts_ne_nil_iff.mpr ⟨first, hfirst, second, hsecond, hdiffer⟩ hcell.symm

/-- **Conflicts are reported exactly**, for every grammar a builder gives and every construction. Every state has a row, and
none of its items is passed over. A cell of the table holds the action demanded first, and its conflicts are the demands that
differ from it, in item order; there are conflicts only in cells of states and terminals. The table is refused iff different
actions are demanded for one of its cells. -/
theorem conflicts_exact {requests : List Builder.Request} {g : Grammar} (hbuild : (Builder.after requests).build = .ok g)
    (construction : Construction) :
    (g.table construction).rows.size = (g.itemSets construction).states.size ∧
    (∀ (i : StateId) (S : ItemSet), (g.itemSets construction).states[i]? = some S →
      (∀ item ∈ S, ∃ p, g.production? item.production = some p ∧ ∀ next, p.symbolAt item.dot = some next →
        ∃ target, ((g.itemSets construction).transitionsAt i).get? next = some target) ∧
      ∀ terminal,
        ((g.table construction).rows[i]?.bind fun row => row.actions.get? terminal) =
          (g.demandsOn ((g.itemSets construction).transitionsAt i) S terminal).head? ∧
        (g.table construction).conflicts.filter (fun x => x.state = i ∧ x.symbol = terminal) =
          g.cellConflicts i terminal (g.demandsOn ((g.itemSets construction).transitionsAt i) S terminal)) ∧
    (∀ x ∈ (g.table construction).conflicts, g.isTerminal x.symbol = true ∧
      ∃ S, (g.itemSets construction).states[x.state]? = some S) ∧
    ((∃ e, g.parserTable construction = .error e) ↔ ∃ i S terminal, (g.itemSets construction).states[i]? = some S ∧
      g.isTerminal terminal = true ∧
      ∃ first ∈ g.demandsOn ((g.itemSets construction).transitionsAt i) S terminal,
        ∃ second ∈ g.demandsOn ((g.itemSets construction).transitionsAt i) S terminal, first ≠ second) := by
  have wf := wellFormed_of_build hbuild
  have hautomaton := wf.automaton construction
  refine ⟨by simp [table, tableOf], fun i S hS => ⟨fun item hitem => hautomaton.exists_demand wf hS hitem, fun terminal =>
    ⟨?_, filter_conflicts_tableOf hS terminal⟩⟩, fun x hx => ?_, exists_parserTable_error_iff wf construction⟩
  · rw [table, getElem?_rows_tableOf, hS]
    exact get?_row _ S terminal
  · obtain ⟨S, hS⟩ := exists_state_of_mem_conflicts hx
    obtain ⟨first, hfirst, -⟩ := cellConflicts_ne_nil_iff.mp (List.ne_nil_of_mem (mem_cellConflicts hS hx))
    exact ⟨hautomaton.isTerminal_of_mem_demandsOn wf hS hfirst, S, hS⟩

/-- Requests for a grammar that reads one token in two ways, told apart by what stands before and after it. -/
def bracketedRequests : List Builder.Request :=
  [.terminal "a" 1 .common, .terminal "b" 2 .common, .terminal "c" 3 .common, .terminal "d" 4 .common,
    .terminal "e" 5 .common, .symbols "$START$" ["S"], .symbols "S" ["a", "A", "d"], .symbols "S" ["b", "B", "d"],
    .symbols "S" ["a", "B", "e"], .symbols "S" ["b", "A", "e"], .symbols "A" ["c"], .symbols "B" ["c"]]

/-- The union of the states behind `c` reduces it in two ways, and keeps the first. -/
theorem conflicts_exact_bracketed :
    let g := (Builder.after bracketedRequests).freeze
    (Builder.after bracketedRequests).build = .ok g ∧ (g.table .canonical).conflicts = [] ∧
      (g.table .unioned).conflicts.filter (fun x => x.state = 4 ∧ x.symbol = 5) = [⟨4, 5, "e", .reduce 5, .reduce 6⟩] ∧
      ∃ e, g.parserTable .unioned = .error e := by
  intro g
  have hbuild : (Builder.after bracketedRequests).build = .ok g := Builder.build_of_isOk (by decide +kernel)
  obtain ⟨hstate, hdemands⟩ : (g.itemSets .unioned).states[4]? = some ((g.itemSets .unioned).itemsAt 4) ∧
      g.demandsOn ((g.itemSets .unioned).transitionsAt 4) ((g.itemSets .unioned).itemsAt 4) 5 = [.reduce 5, .reduce 6] := by
    decide +kernel
  obtain ⟨-, hcells, -, herror⟩ := conflicts_exact hbuild .unioned
  obtain ⟨-, hconflicts⟩ := (hcells 4 _ hstate).2 5
  refine ⟨hbuild, by decide +kernel, ?_, herror.mpr ⟨4, _, 5, hstate, by decide +kernel, ?_⟩⟩
  · rw [hconflicts, hdemands]
    decide +kernel
  · rw [hdemands]
    exact ⟨.reduce 5, by simp, .reduce 6, by simp, by decide⟩

end Grammar

end ShaderFront
