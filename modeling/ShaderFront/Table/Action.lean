import ShaderFront.Grammar.Symbol

/-!
# Parser actions and conflicts

An `Action` is what a parser does in one state on one lookahead. A `Conflict` records that two different actions were
demanded in the same place, and which of them was kept.
-/

namespace ShaderFront

/-- A cell of the action table. -/
inductive Action where
  /-- Take the lookahead and go to a state. -/
  | shift (target : StateId)
  /-- Replace the body of a production by its head. -/
  | reduce (production : ProductionId)
  | accept
  | error
deriving DecidableEq, Repr, Inhabited

/-- The name of an action in a printed table. -/
def Action.text : Action → String
  | .shift target => s!"shift {target}"
  | .reduce production => s!"reduce {production}"
  | .accept => "accept"
  | .error => "error"

/-- The kind of choice a conflict leaves open. -/
inductive ConflictKind where
  | shiftReduce
  | reduceReduce
  | accept
deriving DecidableEq, Repr

/-- The name of a kind of conflict in messages. -/
def ConflictKind.text : ConflictKind → String
  | .shiftReduce => "shift/reduce"
  | .reduceReduce => "reduce/reduce"
  | .accept => "accept"

/-- Two different actions for the same state and lookahead. -/
structure Conflict where
  state : StateId
  symbol : SymbolId
  name : String
  /-- The action the table keeps. -/
  existing : Action
  rejected : Action
deriving DecidableEq, Repr

namespace Conflict

/-- The kind of a conflict. -/
def kind (c : Conflict) : ConflictKind :=
  match c.existing, c.rejected with
  | .reduce _, .reduce _ => .reduceReduce
  | .accept, _ => .accept
  | _, .accept => .accept
  | _, _ => .shiftReduce

/-- The conflict as a line of a report. -/
def text (c : Conflict) : String :=
  s!"state {c.state}, on `{c.name}`: {c.kind.text} conflict, kept `{c.existing.text}` over `{c.rejected.text}`"

end Conflict

end ShaderFront
