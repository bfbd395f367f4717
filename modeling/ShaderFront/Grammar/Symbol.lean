/-!
# Symbols and productions

The vocabulary of a context-free grammar. Symbols, productions and states are known by numbers: a terminal has the
number its lexer gives it, and the numbers of nonterminals are chosen when the grammar is built.
-/

namespace ShaderFront

/-- The number of a symbol in its grammar. -/
abbrev SymbolId := Nat

/-- The number of a production in its grammar. -/
abbrev ProductionId := Nat

/-- The number of a state of an automaton. -/
abbrev StateId := Nat

/-- Special meaning of a symbol inside its grammar. -/
inductive Role where
  | common
  | start
  | empty
  | endOfInput
  /-- A terminal that stands in for any token the current state has no action for. -/
  | wildcard
deriving DecidableEq, Repr, Inhabited

/-- The name of a role in messages. -/
def Role.text : Role → String
  | .common => "common"
  | .start => "start"
  | .empty => "empty"
  | .endOfInput => "end"
  | .wildcard => "wildcard"

/-- Whether a symbol is a token or is replaced by the bodies of its productions. -/
inductive Kind where
  | terminal
  | nonterminal
deriving DecidableEq, Repr

/-- A symbol of a grammar. -/
structure Symbol where
  id : SymbolId
  name : String
  role : Role
  kind : Kind
  /-- The alternatives of a nonterminal, in the order of their registration. -/
  productions : List ProductionId
deriving DecidableEq, Repr

namespace Symbol

/-- The name of the symbol every derivation starts from. -/
def startName : String := "$START$"

/-- The name of the end of the input. -/
def endName : String := "$END$"

/-- The name of the empty string. -/
def emptyName : String := "$EMPTY$"

/-- Whether the symbol is a token. -/
def isTerminal (s : Symbol) : Bool := s.kind = .terminal

/-- The symbol in a printed rule: nonterminals stand in brackets. -/
def text (s : Symbol) : String :=
  match s.kind with
  | .terminal => s.name
  | .nonterminal => "[" ++ s.name ++ "]"

end Symbol

/-- One rule: its head may be replaced by its body. A rule with an empty body derives the empty string. -/
structure Production where
  id : ProductionId
  head : SymbolId
  body : List SymbolId
deriving DecidableEq, Repr

namespace Production

/-- Whether two productions are the same rule, whatever their numbers. -/
def sameRule (p q : Production) : Bool := p.head = q.head && p.body = q.body

/-- The body symbol right after a dot at this position. -/
def symbolAt (p : Production) (dot : Nat) : Option SymbolId := p.body[dot]?

/-- The body symbols before a dot. -/
def before (p : Production) (dot : Nat) : List SymbolId := p.body.take dot

/-- The body symbols from a dot on. -/
def after (p : Production) (dot : Nat) : List SymbolId := p.body.drop dot

end Production

end ShaderFront
