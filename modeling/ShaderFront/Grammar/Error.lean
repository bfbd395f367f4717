import ShaderFront.Table.Action

/-!
# Grammar errors

What can be wrong with a grammar while it is put together, and when its table is made.
-/

namespace ShaderFront

/-- A fault of a grammar. -/
inductive GrammarError where
  | duplicateSymbol (name : String)
  | duplicateId (name : String) (id : SymbolId) (other : String)
  | duplicateRole (role : Role)
  | duplicateProduction (head body : String)
  | terminalHead (name : String)
  | notATerminal (name : String)
  | undefinedNonterminal (name : String)
  | missingStart
  | unexpectedProductionId (rule : String) (id expected : ProductionId)
  | conflicts (conflicts : List Conflict)
deriving DecidableEq, Repr

/-- The text of a grammar error. -/
def GrammarError.message : GrammarError → String
  | .duplicateSymbol name => s!"symbol `{name}` is already defined"
  | .duplicateId name id other => s!"terminal id {id} of `{name}` is already used by `{other}`"
  | .duplicateRole role => s!"only one symbol can have the {role.text} role"
  | .duplicateProduction head body => s!"production `{head} ::= {body}` is already defined"
  | .terminalHead name => s!"terminal `{name}` cannot be the head of a production"
  | .notATerminal name => s!"`{name}` is not a terminal"
  | .undefinedNonterminal name => s!"nonterminal `{name}` has no production"
  | .missingStart => "the grammar has no start production"
  | .unexpectedProductionId rule id expected => s!"production `{rule}` got id {id}, expected {expected}"
  | .conflicts cs =>
    s!"{cs.length} conflict(s) in parser table:\n" ++ "\n".intercalate (cs.map Conflict.text)

end ShaderFront
