import ShaderFront.Parse.Error
import ShaderFront.Table.Basic

/-!
# The shift-reduce engine

A table-driven parser over any tables and any semantics. A configuration holds the stack, the lookahead and the tokens
still to come; `Engine.step` makes one move, and `Engine.run` repeats it a bounded number of times. When the tokens are
used up, the engine feeds end-of-input tokens placed at the end of the last token.

Main content:

* `Token`, `Matched`, `Tables`, `Semantics`;
* `Engine.Config`, `Engine.step`, `Engine.run`, `Engine.parse`.
-/

namespace ShaderFront

/-- A token of a lexer. The symbol is the number of the terminal the grammar knows it by. -/
structure Token where
  symbol : SymbolId
  text : String
  span : Span
deriving DecidableEq, Repr, Inhabited

/-- What the engine needs to know about a parser table. -/
structure Tables where
  action : StateId → SymbolId → Action
  goto : StateId → SymbolId → Option StateId
  production? : ProductionId → Option Production
  symbolName : SymbolId → String
  endOfInput : SymbolId
  /-- The terminals with an action in a state, for error messages. -/
  expected : StateId → List SymbolId := fun _ => []
  /-- Whether a token of kind `actual` was taken in the place of `expected`. -/
  standsFor : SymbolId → SymbolId → Bool := fun _ _ => false

/-- The tables of an LR automaton. -/
def Table.tables (t : Table) : Tables :=
  { action := t.action
    goto := t.goto
    production? := t.grammar.production?
    symbolName := t.grammar.symbolName
    endOfInput := t.grammar.endOfInput
    expected := t.expected
    standsFor := t.standsFor }

/-- One element of the stack: a shifted token, or the node built for a nonterminal. -/
inductive Matched (N : Type) where
  | token (token : Token)
  | node (symbol : SymbolId) (node : N)
deriving Repr

/-- The symbol an element stands for. -/
def Matched.symbol {N : Type} : Matched N → SymbolId
  | .token t => t.symbol
  | .node symbol _ => symbol

/-- What an element is. -/
inductive ElementKind where
  | token
  | node
deriving DecidableEq, Repr

/-- The word for an element. -/
def ElementKind.text : ElementKind → String
  | .token => "token"
  | .node => "node"

namespace Matched

variable {N : Type}

/-- What an element is. -/
def kind : Matched N → ElementKind
  | .token _ => .token
  | .node _ _ => .node

/-- The token of an element. -/
def token? : Matched N → Option Token
  | .token t => some t
  | .node _ _ => none

/-- The node of an element. -/
def node? : Matched N → Option N
  | .token _ => none
  | .node _ n => some n

end Matched

/-- Builds the node of a reduced production from the elements of its body. A state is carried along from reduction to
reduction. -/
abbrev Semantics (σ N : Type) := ProductionId → List (Matched N) → σ → Except ParseError N × σ

namespace Engine

/-- A stack element and the state entered with it. -/
structure Frame (N : Type) where
  state : StateId
  element : Matched N

/-- The engine between two moves. -/
structure Config (σ N : Type) where
  /-- The stack above the start state, top first. -/
  frames : List (Frame N)
  lookahead : Token
  rest : List Token
  /-- The end of the last token read. -/
  lastEnd : Nat
  memory : σ

/-- The start state of every table. -/
def startState : StateId := 0

/-- The state on top of a stack. -/
def topState {N : Type} : List (Frame N) → StateId
  | [] => startState
  | frame :: _ => frame.state

/-- The states of a stack, bottom first. -/
def stateStack {N : Type} (frames : List (Frame N)) : List StateId :=
  startState :: (frames.map (·.state)).reverse

/-- How a parse ended: its result, the messages on the way, and the state the semantics arrived at. -/
structure Outcome (σ N : Type) where
  result : Except ParseError N
  log : List String
  memory : σ

/-- What one move leads to. -/
inductive Move (σ N : Type) where
  | next (config : Config σ N)
  | done (outcome : Outcome σ N)

variable {σ N : Type}

/-- The next token, the tokens after it, and the end of the last token read. -/
def nextToken (t : Tables) (lastEnd : Nat) : List Token → Token × List Token × Nat
  | [] => (⟨t.endOfInput, "", .emptyAt lastEnd⟩, [], lastEnd)
  | token :: rest => (token, rest, token.span.stop)

/-- The configuration before the first move. -/
def start (t : Tables) (tokens : List Token) (memory : σ) : Config σ N :=
  let (lookahead, rest, lastEnd) := nextToken t 0 tokens
  { frames := [], lookahead, rest, lastEnd, memory }

/-- The first body symbol that the element in its place does not match. -/
def mismatch? (t : Tables) : List SymbolId → List (Matched N) → Option (SymbolId × SymbolId)
  | expected :: symbols, element :: elements =>
    if expected = element.symbol || t.standsFor expected element.symbol then mismatch? t symbols elements
    else some (expected, element.symbol)
  | _, _ => none

/-- The error for a lookahead without an action. -/
def syntaxError (t : Tables) (state : StateId) (lookahead : Token) : ParseError :=
  let expected := (t.expected state).map t.symbolName
  if lookahead.symbol = t.endOfInput then .unexpectedEnd expected lookahead.span
  else .unexpectedToken lookahead.text expected lookahead.span

/-- The log entry of a syntax error. -/
def logEntry (e : ParseError) (frames : List (Frame N)) : String :=
  e.message ++ " (state stack: " ++ " ".intercalate ((stateStack frames).map toString) ++ ")"

/-- Ends a parse with an error. -/
def fail (e : ParseError) (log : List String) (memory : σ) : Move σ N := .done ⟨.error e, log, memory⟩

/-- Replaces the body of a production on the stack by its head. -/
def reduce (t : Tables) (semantics : Semantics σ N) (c : Config σ N) (id : ProductionId) : Move σ N :=
  match t.production? id with
  | none => fail (.unknownProduction id) [] c.memory
  | some p =>
    let length := p.body.length
    if c.frames.length < length then
      fail (.stackMismatch id s!"{length} symbols" s!"{c.frames.length} symbols") [] c.memory
    else
      let body := ((c.frames.take length).map (·.element)).reverse
      match mismatch? t p.body body with
      | some (expected, found) => fail (.stackMismatch id (t.symbolName expected) (t.symbolName found)) [] c.memory
      | none =>
        match semantics id body c.memory with
        | (.error e, memory) => fail e [] memory
        | (.ok node, memory) =>
          let below := c.frames.drop length
          match t.goto (topState below) p.head with
          | none => fail (.missingGoto (topState below) (t.symbolName p.head)) [] memory
          | some target => .next { c with frames := ⟨target, .node p.head node⟩ :: below, memory }

/-- One move. -/
def step (t : Tables) (semantics : Semantics σ N) (c : Config σ N) : Move σ N :=
  match t.action (topState c.frames) c.lookahead.symbol with
  | .shift target =>
    let (lookahead, rest, lastEnd) := nextToken t c.lastEnd c.rest
    .next { c with frames := ⟨target, .token c.lookahead⟩ :: c.frames, lookahead, rest, lastEnd }
  | .reduce id => reduce t semantics c id
  | .accept =>
    match c.frames with
    | ⟨_, .node _ node⟩ :: _ => .done ⟨.ok node, [], c.memory⟩
    | _ => fail (.semantic "input accepted without a parse tree") [] c.memory
  | .error =>
    let e := syntaxError t (topState c.frames) c.lookahead
    fail e [logEntry e c.frames] c.memory

/-- Moves until the parse ends, at most `fuel` times. -/
def run (t : Tables) (semantics : Semantics σ N) : Nat → Config σ N → Outcome σ N
  | 0, c => ⟨.error .stepLimit, [], c.memory⟩
  | fuel + 1, c =>
    match step t semantics c with
    | .next c => run t semantics fuel c
    | .done outcome => outcome

/-- Parses a list of tokens in at most `fuel` moves. -/
def parse (t : Tables) (semantics : Semantics σ N) (fuel : Nat) (tokens : List Token) (memory : σ) : Outcome σ N :=
  run t semantics fuel (start t tokens memory)

end Engine

end ShaderFront
