import ShaderFront.Automaton.Item

/-!
# CLOSURE and GOTO

The closure of a set of items adds, for every item with a nonterminal after its dot, the alternatives of that
nonterminal with the dot in front, under every lookahead that can follow. It is computed with a list of items
still to be looked at: every item enters the list once, so the steps are bounded by the items given and the
pairs of a production and a terminal.

Main content: `Grammar.closure`, `Grammar.gotoNext`, `Grammar.initialItemSet`.
-/

namespace ShaderFront.Grammar

/-- The lookaheads under which the symbol after the dot of an item is expanded. -/
def followers (g : Grammar) (p : Production) (item : Item) : List SymbolId :=
  ((g.first (p.after (item.dot + 1) ++ [item.lookahead])).erase g.empty).toList

/-- The items a closed set holds because it holds this one. -/
def demanded (g : Grammar) (item : Item) : List Item :=
  match g.production? item.production with
  | none => []
  | some p =>
    match (p.symbolAt item.dot).bind g.symbol? with
    | none => []
    | some s =>
      if s.isTerminal then []
      else
        let lookaheads := g.followers p item
        s.productions.flatMap fun q => lookaheads.map fun a => ⟨q, 0, a⟩

/-- Looks at the pending items one by one, at most `fuel` of them, and adds the items they demand. -/
def closeOver (g : Grammar) : Nat → List Item → Std.TreeSet Item → Std.TreeSet Item
  | 0, _, seen => seen
  | _ + 1, [], seen => seen
  | fuel + 1, item :: pending, seen =>
    let new := (g.demanded item).filter (!seen.contains ·)
    closeOver g fuel (new ++ pending) (seen.insertMany new)

/-- How many items a closure can look at beyond those it starts from. -/
def expansionBound (g : Grammar) : Nat := g.productions.size * g.symbols.length

/-- The least closed set that contains a set of items. -/
def closure (g : Grammar) (set : ItemSet) : ItemSet :=
  let seen := g.closeOver (set.size + g.expansionBound + 1) set.toList (.ofList set.toList)
  ⟨seen.toList, Std.TreeSet.ordered_toList⟩

/-- The closure of the items that have a symbol after their dot, with the dot moved over it. -/
def gotoNext (g : Grammar) (set : ItemSet) (symbol : SymbolId) : ItemSet :=
  g.closure (.ofList ((set.toList.filter fun item => g.nextSymbol item = some symbol).map Item.advanced))

/-- The closure of the start productions with the end of the input as lookahead. -/
def initialItemSet (g : Grammar) : ItemSet :=
  let alternatives :=
    match g.symbol? g.start with
    | some s => s.productions
    | none => []
  g.closure (.ofList (alternatives.map fun p => ⟨p, 0, g.endOfInput⟩))

end ShaderFront.Grammar
