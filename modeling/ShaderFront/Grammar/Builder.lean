import ShaderFront.Grammar.Error
import ShaderFront.Grammar.First
import ShaderFront.Text.Blank

/-!
# Building grammars

A `Builder` collects terminals and productions by name. Every call gives an answer together with the builder to go on
with, whether it succeeded or not. `Builder.build` then numbers the symbols: terminals keep the numbers they were
registered with, and every nonterminal, and the end and the empty symbol unless a terminal was registered for them, gets
the least number that is still free.

Main content:

* `Builder.addTerminal`, `Builder.addProduction`, `Builder.addProductionSymbols`, `Builder.addRules`,
  `Builder.excludeFromWildcard`;
* `Builder.build`.
-/

namespace ShaderFront

/-- A symbol before the grammar is built. -/
structure PendingSymbol where
  name : String
  role : Role := .common
  /-- The number of a terminal. -/
  terminal : Option SymbolId := none
  productions : List ProductionId := []
deriving DecidableEq, Repr, Inhabited

/-- A production before the grammar is built: the indices of its head and of its body symbols. -/
structure PendingProduction where
  head : Nat
  body : List Nat
deriving DecidableEq, Repr, Inhabited

/-- A grammar that is being put together. The first symbol is the start symbol. -/
structure Builder where
  symbols : Array PendingSymbol := #[{ name := Symbol.startName, role := .start }]
  productions : Array PendingProduction := #[]
  /-- The indices of the terminals the wildcard does not stand in for. -/
  exclusions : List Nat := []
deriving DecidableEq, Repr, Inhabited

namespace Builder

/-- A call on a builder: its answer, and the builder after it. -/
abbrev Call (α : Type) := Builder → Except GrammarError α × Builder

/-- The index of the symbol with a name. -/
def indexOf? (b : Builder) (name : String) : Option Nat := b.symbols.findIdx? (·.name = name)

/-- The name of the terminal with a number. -/
def terminalWithId? (b : Builder) (id : SymbolId) : Option String :=
  (b.symbols.find? (·.terminal = some id)).map (·.name)

/-- Whether the symbol at an index is a terminal. -/
def isTerminalAt (b : Builder) (index : Nat) : Bool := (b.symbols[index]?.bind (·.terminal)).isSome

/-- Whether the symbol at an index stands for the empty string. -/
def isEmptyAt (b : Builder) (index : Nat) : Bool := b.symbols[index]?.any (·.role = .empty)

/-- The alternatives of the symbol at an index. -/
def alternativesAt (b : Builder) (index : Nat) : List ProductionId :=
  match b.symbols[index]? with
  | some s => s.productions
  | none => []

/-- Registers a terminal with the number its lexer gives it. -/
def addTerminal (name : String) (id : SymbolId) (role : Role) : Call Unit := fun b =>
  if (b.indexOf? name).isSome then (.error (.duplicateSymbol name), b)
  else
    match b.terminalWithId? id with
    | some other => (.error (.duplicateId name id other), b)
    | none =>
      if role ≠ .common && b.symbols.any (·.role = role) then (.error (.duplicateRole role), b)
      else (.ok (), { b with symbols := b.symbols.push { name, role, terminal := some id } })

/-- The wildcard will not stand in for this terminal. -/
def excludeFromWildcard (name : String) : Call Unit := fun b =>
  match b.indexOf? name with
  | some index =>
    if b.isTerminalAt index then
      (.ok (), if index ∈ b.exclusions then b else { b with exclusions := b.exclusions ++ [index] })
    else (.error (.notATerminal name), b)
  | none => (.error (.notATerminal name), b)

/-- The index of a name. A name that is not known yet becomes a nonterminal. -/
def intern (name : String) (b : Builder) : Nat × Builder :=
  match b.indexOf? name with
  | some index => (index, b)
  | none => (b.symbols.size, { b with symbols := b.symbols.push { name } })

/-- The indices of some names, in order. -/
def internAll : List String → Builder → List Nat × Builder
  | [], b => ([], b)
  | name :: rest, b =>
    let (index, b) := intern name b
    let (indices, b) := internAll rest b
    (index :: indices, b)

/-- Adds an alternative for a head. The empty symbol stands for nothing in a body. -/
def addProductionSymbols (head : String) (body : List String) : Call ProductionId := fun b =>
  let (headIndex, b) := intern head b
  if b.isTerminalAt headIndex then (.error (.terminalHead head), b)
  else
    let (interned, b) := internAll (body.filter (· ≠ Symbol.emptyName)) b
    let indices := interned.filter fun index => !b.isEmptyAt index
    let duplicate := (b.alternativesAt headIndex).any fun id => b.productions[id]?.any (·.body = indices)
    if duplicate then (.error (.duplicateProduction head (" ".intercalate body)), b)
    else
      let id := b.productions.size
      (.ok id,
       { b with
         productions := b.productions.push { head := headIndex, body := indices }
         symbols := b.symbols.modify headIndex fun s => { s with productions := s.productions ++ [id] } })

/-- Adds an alternative whose body is a text of symbol names between blanks. -/
def addProduction (head body : String) : Call ProductionId := addProductionSymbols head (Text.words body)

/-- Adds rules whose production numbers must be `index`, `index + 1`, ... . Stops at the first failure; the rules before
it stay. -/
def addRulesFrom (index : Nat) : List (String × String) → Call Unit
  | [], b => (.ok (), b)
  | (head, body) :: rest, b =>
    match addProduction head body b with
    | (.error e, b) => (.error e, b)
    | (.ok id, b) =>
      if id = index then addRulesFrom (index + 1) rest b
      else (.error (.unexpectedProductionId (head ++ " ::= " ++ body) id index), b)

/-- Adds a list of rules whose production numbers are their positions in it. -/
def addRules (rules : List (String × String)) : Call Unit := addRulesFrom 0 rules

/-! ## Numbering -/

/-- The least number that is not used. -/
def leastFree (used : List SymbolId) : SymbolId :=
  ((List.range (used.length + 1)).find? fun n => !used.contains n).getD used.length

/-- The numbers of the symbols, in order, and all numbers used after them. -/
def assignIds : List PendingSymbol → List SymbolId → List SymbolId × List SymbolId
  | [], used => ([], used)
  | s :: rest, used =>
    match s.terminal with
    | some id =>
      let (ids, used) := assignIds rest used
      (id :: ids, used)
    | none =>
      let id := leastFree used
      let (ids, used) := assignIds rest (id :: used)
      (id :: ids, used)

/-- A pending symbol under its number. -/
def PendingSymbol.freeze (s : PendingSymbol) (id : SymbolId) : Symbol :=
  { id, name := s.name, role := s.role, productions := s.productions
    kind := if s.terminal.isSome then .terminal else .nonterminal }

/-- The number of the symbol with a role. If there is none, a terminal with this name is added. -/
def ensureRole (role : Role) (name : String) (symbols : List Symbol) (used : List SymbolId) :
    SymbolId × List Symbol × List SymbolId :=
  match symbols.find? (·.role = role) with
  | some s => (s.id, symbols, used)
  | none =>
    let id := leastFree used
    (id, symbols ++ [{ id, name, role, kind := .terminal, productions := [] }], id :: used)

/-- Puts every symbol into the slot of its number. -/
def fillSlots (symbols : List Symbol) : Array (Option Symbol) :=
  let size := symbols.foldl (fun n s => max n (s.id + 1)) 0
  symbols.foldl (fun slots s => slots.set! s.id (some s)) (Array.replicate size none)

/-- The numbers at some indices. -/
def idsAt (ids : Array SymbolId) (indices : List Nat) : List SymbolId := indices.map fun index => ids.getD index 0

/-- Numbers everything and computes the FIRST sets. -/
def freeze (b : Builder) : Grammar :=
  let pending := b.symbols.toList
  let (ids, used) := assignIds pending (pending.filterMap (·.terminal))
  let symbols := pending.zipWith PendingSymbol.freeze ids
  let (endOfInput, symbols, used) := ensureRole .endOfInput Symbol.endName symbols used
  let (empty, symbols, _) := ensureRole .empty Symbol.emptyName symbols used
  let ids := ids.toArray
  let productions := b.productions.mapIdx fun id p =>
    { id, head := ids.getD p.head 0, body := idsAt ids p.body : Production }
  let slots := fillSlots symbols
  { slots, productions, endOfInput, empty
    start := ids.getD 0 0
    wildcard := (symbols.find? (·.role = .wildcard)).map (·.id)
    exclusions := .ofList (idsAt ids b.exclusions)
    firstSets := computeFirstSets slots productions empty }

/-- The grammar, if it has a start production and every nonterminal has an alternative. -/
def build (b : Builder) : Except GrammarError Grammar :=
  if (b.alternativesAt 0).isEmpty then .error .missingStart
  else
    match b.symbols.find? fun s => s.terminal.isNone && s.productions.isEmpty with
    | some s => .error (.undefinedNonterminal s.name)
    | none => .ok b.freeze

end Builder

end ShaderFront
