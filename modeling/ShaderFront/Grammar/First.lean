import ShaderFront.Grammar.Basic

/-!
# FIRST sets

The FIRST set of a sequence of symbols holds the terminals that can begin what it derives, and the empty symbol
if it can derive the empty string. The sets of all symbols are the least solution of one inclusion per
production; `computeFirstSets` reaches it by rounds over the productions, until a round changes nothing.
-/

namespace ShaderFront

/-- The FIRST set of a sequence, given that of each symbol. The FIRST set of a number without a symbol is empty. -/
def firstOfSequence (first : Array (OrderedSet SymbolId)) (empty : SymbolId) :
    List SymbolId → OrderedSet SymbolId
  | [] => .singleton empty
  | s :: rest =>
    match first[s]? with
    | none => ∅
    | some set =>
      if empty ∈ set then set.erase empty ∪ firstOfSequence first empty rest else set

/-- Adds to the set of a production's head what its body can begin with. -/
def growFirst (empty : SymbolId) (first : Array (OrderedSet SymbolId)) (p : Production) :
    Array (OrderedSet SymbolId) :=
  first.modify p.head (· ∪ firstOfSequence first empty p.body)

/-- One round over all productions. -/
def firstRound (empty : SymbolId) (productions : Array Production) (first : Array (OrderedSet SymbolId)) :
    Array (OrderedSet SymbolId) :=
  productions.foldl (growFirst empty) first

/-- Rounds until one changes nothing, at most `fuel` of them. -/
def firstRounds (empty : SymbolId) (productions : Array Production) :
    Nat → Array (OrderedSet SymbolId) → Array (OrderedSet SymbolId)
  | 0, first => first
  | fuel + 1, first =>
    let next := firstRound empty productions first
    if next = first then first else firstRounds empty productions fuel next

/-- Before the first round a terminal begins with itself, and nothing is known of a nonterminal. -/
def initialFirst (slots : Array (Option Symbol)) : Array (OrderedSet SymbolId) :=
  slots.map fun
    | some s => if s.isTerminal then .singleton s.id else ∅
    | none => ∅

/-- The FIRST sets of all slots. A round that changes something adds a symbol to the set of a symbol, so there
are at most as many such rounds as pairs of symbols. -/
def computeFirstSets (slots : Array (Option Symbol)) (productions : Array Production) (empty : SymbolId) :
    Array (OrderedSet SymbolId) :=
  let count := (slots.toList.filterMap id).length
  firstRounds empty productions (count * count + 1) (initialFirst slots)

namespace Grammar

/-- The FIRST set of a sequence of symbols. -/
def first (g : Grammar) (symbols : List SymbolId) : OrderedSet SymbolId :=
  firstOfSequence g.firstSets g.empty symbols

/-- The FIRST set of the body of a production. -/
def firstOfProduction (g : Grammar) (id : ProductionId) : OrderedSet SymbolId :=
  match g.production? id with
  | some p => g.first p.body
  | none => ∅

/-- Whether a symbol derives the empty string. -/
def isNullable (g : Grammar) (id : SymbolId) : Bool :=
  g.firstSets[id]?.any fun set => g.empty ∈ set

end Grammar

end ShaderFront
