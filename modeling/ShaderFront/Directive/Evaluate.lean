import ShaderFront.Directive.Language
import ShaderFront.Macro.Expand

/-!
# Evaluation of conditions

Evaluates condition expressions in wrapping 64-bit arithmetic. A macro is evaluated as the expression its body
reads as, with the values of the arguments for its parameters. Whatever cannot be evaluated has the value 0 and
is noted.

Main content:

* `BinaryOperator.apply`, `UnaryOperator.apply`;
* `evaluate`.
-/

namespace ShaderFront.Directive

/-- The value of a truth. -/
def ofBool (b : Bool) : Int64 := if b then 1 else 0

/-- The value of a unary operation. -/
def UnaryOperator.apply : UnaryOperator → Int64 → Int64
  | .plus, v => v
  | .minus, v => -v
  | .not, v => ofBool (v = 0)
  | .complement, v => ~~~v

/-- The value of a binary operation; none for a division by zero. Shifts take their amount modulo 64. -/
def BinaryOperator.apply : BinaryOperator → Int64 → Int64 → Option Int64
  | .logicalOr, l, r => some (ofBool (l ≠ 0 || r ≠ 0))
  | .logicalAnd, l, r => some (ofBool (l ≠ 0 && r ≠ 0))
  | .bitOr, l, r => some (l ||| r)
  | .bitXor, l, r => some (l ^^^ r)
  | .bitAnd, l, r => some (l &&& r)
  | .equal, l, r => some (ofBool (l = r))
  | .notEqual, l, r => some (ofBool (l ≠ r))
  | .less, l, r => some (ofBool (l < r))
  | .greater, l, r => some (ofBool (r < l))
  | .lessEqual, l, r => some (ofBool (l ≤ r))
  | .greaterEqual, l, r => some (ofBool (r ≤ l))
  | .shiftLeft, l, r => some (l <<< r)
  | .shiftRight, l, r => some (l >>> r)
  | .add, l, r => some (l + r)
  | .subtract, l, r => some (l - r)
  | .multiply, l, r => some (l * r)
  | .divide, l, r => if r = 0 then none else some (l / r)
  | .modulo, l, r => if r = 0 then none else some (l % r)

/-- A value and the messages about it. -/
structure Evaluation where
  value : Int64
  log : List Message

/-- The value 0 and a message why. -/
def Evaluation.failed (message : String) : Evaluation := ⟨0, [.error message]⟩

/-- Puts messages in front. -/
def Evaluation.noting (e : Evaluation) (log : List Message) : Evaluation := { e with log := log ++ e.log }

/-- The value of a binary operation on two values. -/
def binaryValue (operator : BinaryOperator) (l r : Int64) : Evaluation :=
  match operator.apply l r with
  | some v => ⟨v, []⟩
  | none => .failed s!"division by zero in `{Integer.text l} {operator.text} {Integer.text r}`"

/-- What expressions are evaluated with: the macros, the greatest depth, and the macros whose evaluation is
under way. -/
abbrev Scope := Macro.Scope

/-- The macro with a name, or why it cannot be evaluated here. -/
def admitted (scope : Scope) (name : String) : Except String Macro :=
  match scope.macros.get? name with
  | none => .error s!"call to undefined macro `{name}`"
  | some m =>
    if name ∈ scope.active then .error s!"recursive macro `{name}` cannot be evaluated"
    else if scope.maxDepth ≤ scope.active.length then
      .error s!"evaluation of macro `{name}` exceeds {scope.maxDepth} nested levels"
    else .ok m

/-- Evaluates what the text of a macro reads as. `inner` evaluates an expression. -/
def evaluateRead (inner : String → Expression → Evaluation) (name : String) : Except LanguageError Expression → Evaluation
  | .ok e => inner name e
  | .error e => .failed s!"macro `{name}` is not an integer expression: {e.message}"

/-- Evaluates the text a macro stands for. -/
def evaluateBody (inner : String → Expression → Evaluation) (name : String) (body : String) : Evaluation :=
  evaluateRead inner name (parseExpression body)

/-- The text of a value as an argument: negative ones in parentheses. -/
def argumentText (v : Int64) : List Char :=
  (if v < 0 then "(" ++ Integer.text v ++ ")" else Integer.text v).toList

/-- Evaluates a macro without an argument list. -/
def evaluateObject (inner : String → Expression → Evaluation) (scope : Scope) (name : String) : Evaluation :=
  match admitted scope name with
  | .error message => .failed message
  | .ok m =>
    match m.parameters with
    | none => evaluateBody inner name m.body
    | some _ => .failed s!"function-like macro `{name}` used without arguments"

/-- The parameters and the body of a macro that can be called with some number of arguments, or why it cannot. -/
def callee (scope : Scope) (name : String) (count : Nat) : Except String (List String × String) :=
  match admitted scope name with
  | .error message => .error message
  | .ok m =>
    match m.parameters with
    | none => .error s!"macro `{name}` is not function-like"
    | some ps =>
      if ps.length = count then .ok (ps, m.body)
      else .error s!"macro `{name}` expects {ps.length} arguments, found {count}"

mutual

/-- Evaluates an expression. `inner` evaluates the body of a macro. -/
def evaluateWith (inner : String → Expression → Evaluation) (scope : Scope) : Expression → Evaluation
  | .int v => ⟨v, []⟩
  | .defined name => ⟨ofBool (scope.macros.isDefined name), []⟩
  | .object name => evaluateObject inner scope name
  | .call name arguments =>
    match callee scope name arguments.length with
    | .error message => .failed message
    | .ok (parameters, body) =>
      let (values, log) := evaluateAll inner scope arguments
      let text := Macro.substitute parameters (values.map argumentText) body.toList
      (evaluateBody inner name (String.ofList text)).noting log
  | .unary operator operand =>
    let e := evaluateWith inner scope operand
    { e with value := operator.apply e.value }
  | .binary .logicalAnd left right =>
    let l := evaluateWith inner scope left
    if l.value = 0 then { l with value := 0 }
    else
      let r := evaluateWith inner scope right
      ⟨ofBool (r.value ≠ 0), l.log ++ r.log⟩
  | .binary .logicalOr left right =>
    let l := evaluateWith inner scope left
    if l.value ≠ 0 then { l with value := 1 }
    else
      let r := evaluateWith inner scope right
      ⟨ofBool (r.value ≠ 0), l.log ++ r.log⟩
  | .binary operator left right =>
    let l := evaluateWith inner scope left
    let r := evaluateWith inner scope right
    (binaryValue operator l.value r.value).noting (l.log ++ r.log)

/-- Evaluates expressions in order. -/
def evaluateAll (inner : String → Expression → Evaluation) (scope : Scope) : List Expression → List Int64 × List Message
  | [] => ([], [])
  | e :: rest =>
    let v := evaluateWith inner scope e
    let (values, log) := evaluateAll inner scope rest
    (v.value :: values, v.log ++ log)

end

/-- Evaluates an expression with `levels` more levels of macros to go. -/
def evaluateLevels (macros : MacroTable) (maxDepth : Nat) : Nat → List String → Expression → Evaluation
  | 0, active, e => evaluateWith (fun _ _ => ⟨0, []⟩) ⟨macros, maxDepth, active⟩ e
  | levels + 1, active, e =>
    evaluateWith (fun name body => evaluateLevels macros maxDepth levels (active ++ [name]) body)
      ⟨macros, maxDepth, active⟩ e

/-- Evaluates an expression. -/
def evaluate (macros : MacroTable) (maxDepth : Nat) (e : Expression) : Evaluation :=
  evaluateLevels macros maxDepth maxDepth [] e

end ShaderFront.Directive
