import ShaderFront.Grammar.Symbol
import ShaderFront.Text.Span

/-!
# Parse errors

The two ways in which an input can be wrong, the ways in which a table can be inconsistent, and the failures of the code
that builds the result.
-/

namespace ShaderFront

/-- Why a parse failed. -/
inductive ParseError where
  | unexpectedToken (found : String) (expected : List String) (span : Span)
  | unexpectedEnd (expected : List String) (span : Span)
  | stackMismatch (production : ProductionId) (expected found : String)
  | unknownProduction (production : ProductionId)
  | missingGoto (state : StateId) (symbol : String)
  | semantic (message : String)
  /-- The parser was still busy after the steps it was allowed. -/
  | stepLimit
deriving DecidableEq, Repr, Inhabited

namespace ParseError

/-- The text of a parse error. -/
def message : ParseError → String
  | .unexpectedToken found expected _ => s!"unexpected token `{found}`, expected " ++ ", ".intercalate expected
  | .unexpectedEnd expected _ => "unexpected end of input, expected " ++ ", ".intercalate expected
  | .stackMismatch production expected found =>
    s!"reduction by production {production} expected `{expected}` on the stack, found `{found}`"
  | .unknownProduction production => s!"unknown production {production}"
  | .missingGoto state symbol => s!"no goto entry in state {state} for `{symbol}`"
  | .semantic message => message
  | .stepLimit => "the step limit is reached"

/-- Where the input is wrong. -/
def span? : ParseError → Option Span
  | .unexpectedToken _ _ span => some span
  | .unexpectedEnd _ span => some span
  | _ => none

/-- The error with its place moved to the right. -/
def shifted (offset : Nat) : ParseError → ParseError
  | .unexpectedToken found expected span => .unexpectedToken found expected (span.shifted offset)
  | .unexpectedEnd expected span => .unexpectedEnd expected (span.shifted offset)
  | e => e

end ParseError

end ShaderFront
