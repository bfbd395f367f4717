import ShaderFront.Automaton.States
import ShaderFront.Grammar.Error

/-!
# Parser tables

The action and goto tables of an LR automaton. Every state is a row. The items of a state demand actions in item
order; the first action demanded for a symbol is kept, and every different one after it is a conflict.

Main content:

* `Grammar.table`, the table of a construction with its conflicts;
* `Grammar.parserTable`, which refuses a table with conflicts;
* `Table.action`, where the wildcard stands in for tokens without an action of their own;
* `Table.text`, the printed table.
-/

namespace ShaderFront

/-- One row of a table. -/
structure Row where
  actions : OrderedMap SymbolId Action := ∅
  gotos : OrderedMap SymbolId StateId := ∅
  /-- The actions that were demanded but not kept, with the symbol they were demanded for. -/
  rejected : List (SymbolId × Action) := []
deriving Inhabited

/-- What an item asks of the row of its state. -/
inductive Demand where
  | act (symbol : SymbolId) (action : Action)
  | goto (symbol : SymbolId) (target : StateId)

/-- The table of a grammar. -/
structure Table where
  grammar : Grammar
  rows : Array Row

namespace Grammar

/-- What an item asks for, given the transitions of its state. -/
def demand? (g : Grammar) (transitions : OrderedMap SymbolId StateId) (item : Item) : Option Demand :=
  match g.production? item.production with
  | none => none
  | some p =>
    match p.symbolAt item.dot with
    | some next =>
      match transitions.get? next with
      | none => none
      | some target =>
        if g.isTerminal next then some (.act next (.shift target)) else some (.goto next target)
    | none =>
      if p.head = g.start && item.lookahead = g.endOfInput then some (.act g.endOfInput .accept)
      else some (.act item.lookahead (.reduce p.id))

end Grammar

namespace Row

/-- Meets one demand. An action that differs from the one already there is rejected. -/
def meet (row : Row) : Demand → Row
  | .goto symbol target => { row with gotos := row.gotos.insert symbol target }
  | .act symbol action =>
    match row.actions.get? symbol with
    | none => { row with actions := row.actions.insert symbol action }
    | some existing =>
      if existing = action then row else { row with rejected := row.rejected ++ [(symbol, action)] }

end Row

namespace Grammar

/-- The row of a state. -/
def row (g : Grammar) (transitions : OrderedMap SymbolId StateId) (set : ItemSet) : Row :=
  (set.toList.filterMap (g.demand? transitions)).foldl Row.meet {}

/-- The table of a collection of states. -/
def tableOf (g : Grammar) (c : Collection) : Table :=
  { grammar := g, rows := c.states.mapIdx fun state set => g.row (c.transitionsAt state) set }

/-- The table of a construction, with or without conflicts. -/
def table (g : Grammar) (construction : Construction) : Table := g.tableOf (g.itemSets construction)

end Grammar

namespace Table

/-- The conflicts of a row, given the number of its state. -/
def rowConflicts (t : Table) (state : StateId) (row : Row) : List Conflict :=
  row.rejected.map fun (symbol, rejected) =>
    { state, symbol, rejected, name := t.grammar.symbolName symbol
      existing := (row.actions.get? symbol).getD .error }

/-- All conflicts, by state and then in the order of the demands. -/
def conflicts (t : Table) : List Conflict :=
  t.rows.toList.zipIdx.flatMap fun (row, state) => t.rowConflicts state row

/-- The number of states. -/
def stateCount (t : Table) : Nat := t.rows.size

/-- Whether the wildcard does not stand in for a symbol. -/
def isExcluded (t : Table) (symbol : SymbolId) : Bool :=
  symbol = t.grammar.endOfInput || symbol ∈ t.grammar.exclusions

/-- The action in a state on a lookahead. -/
def action (t : Table) (state : StateId) (symbol : SymbolId) : Action :=
  match t.rows[state]? with
  | none => .error
  | some row =>
    match row.actions.get? symbol with
    | some action => action
    | none =>
      match t.grammar.wildcard with
      | none => .error
      | some wildcard =>
        if t.isExcluded symbol then .error else (row.actions.get? wildcard).getD .error

/-- The state entered from a state over a nonterminal. -/
def goto (t : Table) (state : StateId) (symbol : SymbolId) : Option StateId :=
  t.rows[state]?.bind (·.gotos.get? symbol)

/-- The terminals with an action in a state, in ascending order. -/
def expected (t : Table) (state : StateId) : List SymbolId :=
  match t.rows[state]? with
  | none => []
  | some row => row.actions.keys

/-- Whether a token of kind `actual` may have been taken in the place of `expected`. -/
def standsFor (t : Table) (expected actual : SymbolId) : Bool :=
  t.grammar.wildcard = some expected && !t.isExcluded actual

/-! ## Printing -/

/-- A printed row. -/
def rowText (t : Table) (state : StateId) (row : Row) : String :=
  let actions := row.actions.toList.map fun (symbol, action) =>
    "    " ++ t.grammar.symbolName symbol ++ " => " ++ action.text ++ "\n"
  let gotos := row.gotos.toList.map fun (symbol, target) =>
    "    [" ++ t.grammar.symbolName symbol ++ "] => goto " ++ toString target ++ "\n"
  "state " ++ toString state ++ ":\n" ++ String.join actions ++ String.join gotos

/-- A printed table. -/
def text (t : Table) : String :=
  String.join (t.rows.toList.zipIdx.map fun (row, state) => t.rowText state row)

end Table

/-- The table of a construction; a table with conflicts is an error. -/
def Grammar.parserTable (g : Grammar) (construction : Construction) : Except GrammarError Table :=
  let t := g.table construction
  if t.conflicts.isEmpty then .ok t else .error (.conflicts t.conflicts)

end ShaderFront
