import ShaderFront.Grammar.Symbol
import ShaderFront.Ordered.Set

/-!
# Grammars

An immutable context-free grammar: its symbols by number, its productions by number, and the numbers of the symbols with
a special role. `Grammar.text` prints the rules.
-/

namespace ShaderFront

/-- A context-free grammar. -/
structure Grammar where
  /-- The slot of a symbol is its number; a number no symbol has leaves its slot open. -/
  slots : Array (Option Symbol)
  /-- The index of a production is its number. -/
  productions : Array Production
  start : SymbolId
  endOfInput : SymbolId
  empty : SymbolId
  wildcard : Option SymbolId
  /-- The terminals the wildcard does not stand in for. -/
  exclusions : OrderedSet SymbolId
  /-- The FIRST set of every slot, computed once when the grammar is built. -/
  firstSets : Array (OrderedSet SymbolId)

namespace Grammar

/-- The symbol with a number. -/
def symbol? (g : Grammar) (id : SymbolId) : Option Symbol := g.slots[id]?.join

/-- The symbols in ascending order of their numbers. -/
def symbols (g : Grammar) : List Symbol := g.slots.toList.filterMap id

/-- The first symbol with a name. -/
def symbolNamed? (g : Grammar) (name : String) : Option Symbol := g.symbols.find? (·.name = name)

/-- The production with a number. -/
def production? (g : Grammar) (id : ProductionId) : Option Production := g.productions[id]?

/-- Whether a number is that of a terminal. -/
def isTerminal (g : Grammar) (id : SymbolId) : Bool := (g.symbol? id).any Symbol.isTerminal

/-- The name of a symbol; a number without a symbol is named by itself. -/
def symbolName (g : Grammar) (id : SymbolId) : String :=
  match g.symbol? id with
  | some s => s.name
  | none => s!"#{id}"

/-- The symbol as it stands in a printed rule. -/
def symbolText (g : Grammar) (id : SymbolId) : String :=
  match g.symbol? id with
  | some s => s.text
  | none => s!"#{id}"

/-- Pads a text on the left with blanks to a width. -/
def padLeft (width : Nat) (text : String) : String :=
  "".pushn ' ' (width - text.length) ++ text

/-- One line of a printed grammar. -/
def productionLine (g : Grammar) (p : Production) : String :=
  let body :=
    if p.body.isEmpty then Symbol.emptyName else " ".intercalate (p.body.map g.symbolText)
  padLeft 4 (toString p.id) ++ ": " ++ g.symbolText p.head ++ " ::= " ++ body ++ "\n"

/-- The productions of a grammar, one to a line. -/
def text (g : Grammar) : String := String.join (g.productions.toList.map g.productionLine)

end Grammar

end ShaderFront
