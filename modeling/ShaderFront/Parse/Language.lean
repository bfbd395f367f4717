import ShaderFront.Grammar.Builder
import ShaderFront.Parse.Cursor

/-!
# Languages

A language is a list of terminals and a list of rules. A rule is a production together with the way the node of
its head is made from the elements of its body; the number of a production is the position of its rule.

Main content:

* `Rule`, `Terminal`, `Language`;
* `Language.grammar`, `Language.table`, `Language.parse`.
-/

namespace ShaderFront

/-- A production, given as texts, and how its node is built. -/
structure Rule (N : Type) where
  head : String
  body : String
  build : List (Matched N) → Except ParseError N

/-- A terminal of a language. -/
structure Terminal where
  name : String
  id : SymbolId
  role : Role := .common
  /-- Whether the wildcard stands in for it. -/
  wild : Bool := true

/-- The terminals and the rules of a language. -/
structure Language (N : Type) where
  terminals : List Terminal
  rules : List (Rule N)

/-- Why a text of a language was refused. -/
inductive LanguageError where
  /-- The rules have no table. -/
  | grammar (error : GrammarError)
  | parse (error : ParseError)
deriving DecidableEq, Repr

namespace LanguageError

/-- The text of the error. -/
def message : LanguageError → String
  | .grammar e => "the parser table is invalid: " ++ e.message
  | .parse e => e.message

/-- Where the text is wrong. -/
def span? : LanguageError → Option Span
  | .grammar _ => none
  | .parse e => e.span?

end LanguageError

/-- The answer of a rule to nodes of other nonterminals than its own. -/
def unfit {N : Type} : Except ParseError N := .error (.semantic "the elements do not fit the rule")

/-- Makes one call after another; stops at the first that fails. -/
def Builder.calls : List (Builder.Call Unit) → Builder.Call Unit
  | [], b => (.ok (), b)
  | call :: rest, b =>
    match call b with
    | (.ok (), b) => Builder.calls rest b
    | (.error e, b) => (.error e, b)

/-- A bound on the moves of a parse. Between two shifts a table without conflicts makes no more reductions than
there are sequences of symbols as long as the automaton has states, for each place of the stack. -/
def Table.moveBound (t : Table) (tokens : Nat) : Nat :=
  Nat.pow ((tokens + 2) * (t.stateCount + 2)) 2 * Nat.pow (t.grammar.symbols.length + 2) (t.stateCount + 3)

namespace Language

variable {N : Type} (l : Language N)

/-- The grammar of a language. -/
def grammar : Except GrammarError Grammar :=
  let register := l.terminals.map fun t => Builder.addTerminal t.name t.id t.role
  let exclude := (l.terminals.filter (!·.wild)).map fun t => Builder.excludeFromWildcard t.name
  let rules := Builder.addRules (l.rules.map fun r => (r.head, r.body))
  match Builder.calls (register ++ exclude ++ [rules]) {} with
  | (.ok (), b) => b.build
  | (.error e, _) => .error e

/-- The parser table of a language. -/
def table : Except GrammarError Table :=
  match l.grammar with
  | .ok g => g.parserTable .unioned
  | .error e => .error e

/-- What stands for the words of a body: tokens for terminals, and nodes for nonterminals. -/
def kinds (words : List String) : List ElementKind :=
  words.map fun word => if l.terminals.any (·.name = word) then .token else .node

/-- Builds nodes by the rules, each from the elements that a cursor takes for the words of its body. -/
def semantics : Semantics Unit N :=
  let rules := l.rules.toArray
  fun production body memory =>
    match rules[production]? with
    | some rule =>
      match (Cursor.mk production body).elementsOf (l.kinds (Text.words rule.body)) with
      | .ok elements => (rule.build elements, memory)
      | .error e => (.error e, memory)
    | none => (.error (.unknownProduction production), memory)

/-- Parses tokens with the table of the language. -/
def parse (table : Except GrammarError Table) (tokens : List Token) : Except LanguageError N :=
  match table with
  | .error e => .error (.grammar e)
  | .ok t =>
    match (Engine.parse t.tables l.semantics (t.moveBound tokens.length) tokens ()).result with
    | .ok node => .ok node
    | .error e => .error (.parse e)

end Language

end ShaderFront
