import ShaderFront.Text.Integer

/-!
# Condition expressions

The expressions of `#if` and `#elif`. Printed, every binary operation stands in parentheses.
-/

namespace ShaderFront.Directive

/-- The operators with one operand. -/
inductive UnaryOperator where
  | plus
  | minus
  | not
  | complement
deriving DecidableEq, Repr

/-- The operators with two operands. -/
inductive BinaryOperator where
  | logicalOr
  | logicalAnd
  | bitOr
  | bitXor
  | bitAnd
  | equal
  | notEqual
  | less
  | greater
  | lessEqual
  | greaterEqual
  | shiftLeft
  | shiftRight
  | add
  | subtract
  | multiply
  | divide
  | modulo
deriving DecidableEq, Repr

/-- An operator as it is written. -/
def UnaryOperator.text : UnaryOperator → String
  | .plus => "+"
  | .minus => "-"
  | .not => "!"
  | .complement => "~"

/-- An operator as it is written. -/
def BinaryOperator.text : BinaryOperator → String
  | .logicalOr => "||"
  | .logicalAnd => "&&"
  | .bitOr => "|"
  | .bitXor => "^"
  | .bitAnd => "&"
  | .equal => "=="
  | .notEqual => "!="
  | .less => "<"
  | .greater => ">"
  | .lessEqual => "<="
  | .greaterEqual => ">="
  | .shiftLeft => "<<"
  | .shiftRight => ">>"
  | .add => "+"
  | .subtract => "-"
  | .multiply => "*"
  | .divide => "/"
  | .modulo => "%"

/-- An expression. -/
inductive Expression where
  | int (value : Int64)
  /-- Whether a macro is defined. -/
  | defined (name : String)
  /-- A macro without arguments. -/
  | object (name : String)
  /-- A macro with arguments. -/
  | call (name : String) (arguments : List Expression)
  | unary (operator : UnaryOperator) (operand : Expression)
  | binary (operator : BinaryOperator) (left right : Expression)
deriving Repr, Inhabited

namespace Expression

mutual

/-- An expression as a text. -/
def text : Expression → String
  | .int value => Integer.text value
  | .defined name => "defined(" ++ name ++ ")"
  | .object name => name
  | .call name arguments => name ++ "(" ++ ", ".intercalate (texts arguments) ++ ")"
  | .unary operator operand => operator.text ++ text operand
  | .binary operator left right => "(" ++ text left ++ " " ++ operator.text ++ " " ++ text right ++ ")"

/-- Expressions as texts. -/
def texts : List Expression → List String
  | [] => []
  | e :: rest => text e :: texts rest

end

end Expression

end ShaderFront.Directive
