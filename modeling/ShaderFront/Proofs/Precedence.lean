import Mathlib
import ShaderFront.Proofs.Numbers
import ShaderFront.Proofs.Reading
import ShaderFront.Proofs.Spelling.Directive

/-!
# Precedence

An expression can be written in many ways: with all parentheses, with as few as the precedence of its operators allows, or with
some in between. `Expression.Spelled` has all of them, as lists of words. Each is read as the expression itself
(`Expression.Spelled.reads`), because the nonterminals of the operators stand for the levels of precedence.
-/

namespace ShaderFront.Directive

/-- A token as it is written: its kind and its text. -/
abbrev Written := TokenKind × String

/-- The level of an operator, from the weakest to the strongest. Operators of one level associate to the left. -/
def BinaryOperator.level : BinaryOperator → Nat
  | .logicalOr => 1
  | .logicalAnd => 2
  | .bitOr => 3
  | .bitXor => 4
  | .bitAnd => 5
  | .equal | .notEqual => 6
  | .less | .greater | .lessEqual | .greaterEqual => 7
  | .shiftLeft | .shiftRight => 8
  | .add | .subtract => 9
  | .multiply | .divide | .modulo => 10

/-- The level of the unary operators. -/
def unaryLevel : Nat := 11

/-- The kind of token of an operator. -/
def BinaryOperator.kind : BinaryOperator → TokenKind
  | .logicalOr => .logicalOr
  | .logicalAnd => .logicalAnd
  | .bitOr => .bitOr
  | .bitXor => .bitXor
  | .bitAnd => .bitAnd
  | .equal => .equal
  | .notEqual => .notEqual
  | .less => .less
  | .greater => .greater
  | .lessEqual => .lessEqual
  | .greaterEqual => .greaterEqual
  | .shiftLeft => .shiftLeft
  | .shiftRight => .shiftRight
  | .add => .plus
  | .subtract => .minus
  | .multiply => .star
  | .divide => .slash
  | .modulo => .percent

/-- The kind of token of an operator. -/
def UnaryOperator.kind : UnaryOperator → TokenKind
  | .plus => .plus
  | .minus => .minus
  | .not => .not
  | .complement => .complement

/-- An operator as it is written. -/
def BinaryOperator.written (operator : BinaryOperator) : Written := (operator.kind, operator.text)

/-- An operator as it is written. -/
def UnaryOperator.written (operator : UnaryOperator) : Written := (operator.kind, operator.text)

/-- A name as it is written. -/
def writtenName (name : String) : Written := (.identifier, name)

/-- The words `(`, `)`, `,` and `defined`. -/
def opening : Written := (.parenLeft, "(")
@[inherit_doc opening] def closing : Written := (.parenRight, ")")
@[inherit_doc opening] def separator : Written := (.comma, ",")
@[inherit_doc opening] def definedWord : Written := (.defined, "defined")

namespace Expression

mutual

/-- The ways to write an expression as an operand of a level, with parentheses at least where they are needed. -/
inductive Spelled : Nat → Expression → List Written → Prop
  | int {level : Nat} {value : Int64} : 0 ≤ value → Spelled level (.int value) [(.intConstant, Integer.text value)]
  | object {level : Nat} {name : String} : Spelled level (.object name) [writtenName name]
  | defined {level : Nat} {name : String} :
      Spelled level (.defined name) [definedWord, opening, writtenName name, closing]
  | definedBare {level : Nat} {name : String} : Spelled level (.defined name) [definedWord, writtenName name]
  | callNone {level : Nat} {name : String} : Spelled level (.call name []) [writtenName name, opening, closing]
  | call {level : Nat} {name : String} {first : Expression} {rest : List Expression} {words others : List Written} :
      Spelled 1 first words → SpelledRest rest others →
      Spelled level (.call name (first :: rest)) (writtenName name :: opening :: (words ++ others) ++ [closing])
  | unary {level : Nat} {operator : UnaryOperator} {operand : Expression} {words : List Written} : level ≤ unaryLevel →
      Spelled unaryLevel operand words → Spelled level (.unary operator operand) (operator.written :: words)
  | binary {level : Nat} {operator : BinaryOperator} {left right : Expression} {words others : List Written} :
      level ≤ operator.level → Spelled operator.level left words → Spelled (operator.level + 1) right others →
      Spelled level (.binary operator left right) (words ++ operator.written :: others)
  | parentheses {level : Nat} {e : Expression} {words : List Written} : Spelled 1 e words →
      Spelled level e (opening :: words ++ [closing])

/-- The ways to write the arguments after the first. -/
inductive SpelledRest : List Expression → List Written → Prop
  | nil : SpelledRest [] []
  | cons {e : Expression} {rest : List Expression} {words others : List Written} : Spelled 1 e words →
      SpelledRest rest others → SpelledRest (e :: rest) (separator :: words ++ others)

end

end Expression

/-! ## Levels -/

/-- The nonterminal of a level. -/
def tier : Nat → Nonterminal
  | 0 => .constantExpression
  | 1 => .logicalOrExpression
  | 2 => .logicalAndExpression
  | 3 => .inclusiveOrExpression
  | 4 => .exclusiveOrExpression
  | 5 => .andExpression
  | 6 => .equalityExpression
  | 7 => .relationalExpression
  | 8 => .shiftExpression
  | 9 => .additiveExpression
  | 10 => .multiplicativeExpression
  | 11 => .unaryExpression
  | _ => .primaryExpression

variable {number : Nonterminal → SymbolId}

/-- Tokens of their own kinds are read by the rules of directives. -/
abbrev ReadsAs := alphabet.ReadsAs language

/-- The elements of a body are read. -/
abbrev ReadsBody := alphabet.ReadsBody language

theorem reads_rule (id : Nat) {r : Rule Node} {p : Spelling TokenKind Nonterminal} {elements : List (Matched Node)}
    {front : List (TokenKind × Token)} {node : Node} (hr : rules[id]? = some r) (hp : productions[id]? = some p)
    (hbody : ReadsBody number id 0 p.body elements front) (hbuild : r.build elements = .ok node) :
    ReadsAs number p.head front node :=
  .rule hr hp hbody hbuild

/-- An operand of a level is an operand of the level below. -/
theorem reads_tier_pred {level : Nat} (hlevel : level < 12) {front : List (TokenKind × Token)} {node : Node}
    (h : ReadsAs number (tier (level + 1)) front node) : ReadsAs number (tier level) front node := by
  have hbody : ∀ {id : Nat}, ReadsBody number id 0 [.node (tier (level + 1))] [.node (number (tier (level + 1))) node]
      (front ++ []) := .node h (fun _ _ => trivial) .nil
  rw [List.append_nil] at hbody
  interval_cases level
  · exact reads_rule 58 (by rfl) (by rfl) hbody (by rfl)
  · exact reads_rule 66 (by rfl) (by rfl) hbody (by rfl)
  · exact reads_rule 68 (by rfl) (by rfl) hbody (by rfl)
  · exact reads_rule 70 (by rfl) (by rfl) hbody (by rfl)
  · exact reads_rule 72 (by rfl) (by rfl) hbody (by rfl)
  · exact reads_rule 74 (by rfl) (by rfl) hbody (by rfl)
  · exact reads_rule 76 (by rfl) (by rfl) hbody (by rfl)
  · exact reads_rule 79 (by rfl) (by rfl) hbody (by rfl)
  · exact reads_rule 84 (by rfl) (by rfl) hbody (by rfl)
  · exact reads_rule 87 (by rfl) (by rfl) hbody (by rfl)
  · exact reads_rule 90 (by rfl) (by rfl) hbody (by rfl)
  · exact reads_rule 94 (by rfl) (by rfl) hbody (by rfl)

theorem reads_tier_of_le {level higher : Nat} (hle : level ≤ higher) (hhigher : higher ≤ 12) {front : List (TokenKind × Token)}
    {node : Node} (h : ReadsAs number (tier higher) front node) : ReadsAs number (tier level) front node := by
  induction higher, hle using Nat.le_induction with
  | base => exact h
  | succ higher hle ih => exact ih (by omega) (reads_tier_pred (by omega) h)

/-- The operands of an operator are read one level apart, so operators of one level associate to the left. -/
theorem reads_binary (operator : BinaryOperator) {front rest : List (TokenKind × Token)} {token : Token} {left right : Expression}
    (hleft : ReadsAs number (tier operator.level) front (.expression left)) (htoken : alphabet.Admits operator.kind token)
    (hright : ReadsAs number (tier (operator.level + 1)) rest (.expression right)) :
    ReadsAs number (tier operator.level) (front ++ (operator.kind, token) :: rest)
      (.expression (.binary operator left right)) := by
  have hbody : ∀ {id : Nat}, ReadsBody number id 0
      [.node (tier operator.level), .token operator.kind, .node (tier (operator.level + 1))]
      [.node (number (tier operator.level)) (.expression left), .token token,
        .node (number (tier (operator.level + 1))) (.expression right)]
      (front ++ (operator.kind, token) :: (rest ++ [])) :=
    .node hleft (fun _ _ => trivial) (.token htoken (fun _ _ => trivial) (.node hright (fun _ _ => trivial) .nil))
  rw [List.append_nil] at hbody
  cases operator with
  | logicalOr => exact reads_rule 67 (by rfl) (by rfl) hbody (by rfl)
  | logicalAnd => exact reads_rule 69 (by rfl) (by rfl) hbody (by rfl)
  | bitOr => exact reads_rule 71 (by rfl) (by rfl) hbody (by rfl)
  | bitXor => exact reads_rule 73 (by rfl) (by rfl) hbody (by rfl)
  | bitAnd => exact reads_rule 75 (by rfl) (by rfl) hbody (by rfl)
  | equal => exact reads_rule 77 (by rfl) (by rfl) hbody (by rfl)
  | notEqual => exact reads_rule 78 (by rfl) (by rfl) hbody (by rfl)
  | less => exact reads_rule 80 (by rfl) (by rfl) hbody (by rfl)
  | greater => exact reads_rule 81 (by rfl) (by rfl) hbody (by rfl)
  | lessEqual => exact reads_rule 82 (by rfl) (by rfl) hbody (by rfl)
  | greaterEqual => exact reads_rule 83 (by rfl) (by rfl) hbody (by rfl)
  | shiftLeft => exact reads_rule 85 (by rfl) (by rfl) hbody (by rfl)
  | shiftRight => exact reads_rule 86 (by rfl) (by rfl) hbody (by rfl)
  | add => exact reads_rule 88 (by rfl) (by rfl) hbody (by rfl)
  | subtract => exact reads_rule 89 (by rfl) (by rfl) hbody (by rfl)
  | multiply => exact reads_rule 91 (by rfl) (by rfl) hbody (by rfl)
  | divide => exact reads_rule 92 (by rfl) (by rfl) hbody (by rfl)
  | modulo => exact reads_rule 93 (by rfl) (by rfl) hbody (by rfl)

theorem reads_unary (operator : UnaryOperator) {front : List (TokenKind × Token)} {token : Token} {operand : Expression}
    (htoken : alphabet.Admits operator.kind token) (hoperand : ReadsAs number .unaryExpression front (.expression operand)) :
    ReadsAs number .unaryExpression ((operator.kind, token) :: front) (.expression (.unary operator operand)) := by
  have hbody : ∀ {id : Nat}, ReadsBody number id 0 [.token operator.kind, .node .unaryExpression]
      [.token token, .node (number .unaryExpression) (.expression operand)] ((operator.kind, token) :: (front ++ [])) :=
    .token htoken (fun _ _ => trivial) (.node hoperand (fun _ _ => trivial) .nil)
  rw [List.append_nil] at hbody
  cases operator with
  | plus => exact reads_rule 95 (by rfl) (by rfl) hbody (by rfl)
  | minus => exact reads_rule 96 (by rfl) (by rfl) hbody (by rfl)
  | not => exact reads_rule 97 (by rfl) (by rfl) hbody (by rfl)
  | complement => exact reads_rule 98 (by rfl) (by rfl) hbody (by rfl)

/-! ## Words -/

/-- Tokens of their own kinds have the kinds and the texts of some words. -/
abbrev Carries := alphabet.Carries

/-- A macro in an expression is an operand of every level. -/
theorem reads_macro {level : Nat} (hlevel : level ≤ 12) {front : List (TokenKind × Token)} {e : Expression}
    (h : ReadsAs number .macroEvaluation front (.expression e)) : ReadsAs number (tier level) front (.expression e) := by
  have hbody : ReadsBody number 100 0 [.node .macroEvaluation] [.node (number .macroEvaluation) (.expression e)]
      (front ++ []) := .node h (fun _ _ => trivial) .nil
  rw [List.append_nil] at hbody
  exact reads_tier_of_le hlevel le_rfl (reads_rule 100 (by rfl) (by rfl) hbody (by rfl))

/-- A test of a macro is an operand of every level. -/
theorem reads_defined {level : Nat} (hlevel : level ≤ 12) {front : List (TokenKind × Token)} {e : Expression}
    (h : ReadsAs number .definedOperator front (.expression e)) : ReadsAs number (tier level) front (.expression e) := by
  have hbody : ReadsBody number 99 0 [.node .definedOperator] [.node (number .definedOperator) (.expression e)]
      (front ++ []) := .node h (fun _ _ => trivial) .nil
  rw [List.append_nil] at hbody
  exact reads_tier_of_le hlevel le_rfl (reads_rule 99 (by rfl) (by rfl) hbody (by rfl))

namespace Expression

mutual

/-- **However an expression is written, it is read as itself.** -/
theorem Spelled.reads : ∀ {level : Nat} {e : Expression} {words : List Written}, Spelled level e words → level ≤ 12 →
    ∀ {front : List (TokenKind × Token)}, Carries front words → ReadsAs number (tier level) front (.expression e)
  | level, _, _, @Spelled.int _ value hvalue, hlevel, front, hfront => by
    obtain ⟨token, rfl, htext, hadmits⟩ := hfront.singleton
    have hbuild : (integerOf token).map (fun i => Node.expression (.int i)) = .ok (.expression (.int value)) := by
      rw [integerOf, htext, Integer.read?_text hvalue]
      rfl
    exact reads_tier_of_le hlevel le_rfl
      (reads_rule 101 (by rfl) (by rfl) (.token hadmits (fun _ _ => trivial) .nil) hbuild)
  | level, _, _, @Spelled.object _ name, hlevel, front, hfront => by
    obtain ⟨token, rfl, rfl, hadmits⟩ := hfront.singleton
    exact reads_macro hlevel (reads_rule 59 (by rfl) (by rfl) (.token hadmits (fun _ _ => trivial) .nil) (by rfl))
  | level, _, _, @Spelled.defined _ name, hlevel, front, hfront => by
    obtain ⟨word, _, rfl, -, hword, hfront⟩ := hfront.cons
    obtain ⟨left, _, rfl, -, hleft, hfront⟩ := hfront.cons
    obtain ⟨token, _, rfl, rfl, htoken, hfront⟩ := hfront.cons
    obtain ⟨right, rfl, -, hright⟩ := hfront.singleton
    exact reads_defined hlevel (reads_rule 64 (by rfl) (by rfl) (.token hword (fun _ _ => trivial)
      (.token hleft (fun _ _ => trivial) (.token htoken (fun _ _ => trivial) (.token hright (fun _ _ => trivial) .nil))))
      (by rfl))
  | level, _, _, @Spelled.definedBare _ name, hlevel, front, hfront => by
    obtain ⟨word, _, rfl, -, hword, hfront⟩ := hfront.cons
    obtain ⟨token, rfl, rfl, htoken⟩ := hfront.singleton
    exact reads_defined hlevel (reads_rule 65 (by rfl) (by rfl) (.token hword (fun _ _ => trivial)
      (.token htoken (fun _ _ => trivial) .nil)) (by rfl))
  | level, _, _, @Spelled.callNone _ name, hlevel, front, hfront => by
    obtain ⟨token, _, rfl, rfl, htoken, hfront⟩ := hfront.cons
    obtain ⟨left, _, rfl, -, hleft, hfront⟩ := hfront.cons
    obtain ⟨right, rfl, -, hright⟩ := hfront.singleton
    exact reads_macro hlevel (reads_rule 60 (by rfl) (by rfl) (.token htoken (fun _ _ => trivial)
      (.token hleft (fun _ _ => trivial) (.token hright (fun _ _ => trivial) .nil))) (by rfl))
  | level, _, _, @Spelled.call _ name first rest words others hfirst hrest, hlevel, front, hfront => by
    obtain ⟨token, _, rfl, rfl, htoken, hfront⟩ := hfront.cons
    obtain ⟨left, _, rfl, -, hleft, hback⟩ := hfront.cons
    obtain ⟨inner, _, rfl, hinner, hlast⟩ := hback.append
    obtain ⟨right, rfl, -, hright⟩ := hlast.singleton
    obtain ⟨firstFront, restFront, rfl, hfirstFront, hrestFront⟩ := hinner.append
    have hfirst : ReadsAs number .parameterList firstFront (.arguments [first]) := by
      have hconstant : ReadsAs number .constantExpression firstFront (.expression first) :=
        reads_tier_pred (by decide) (hfirst.reads (by decide) hfirstFront)
      rw [← List.append_nil firstFront]
      exact reads_rule 62 (by rfl) (by rfl) (.node hconstant (fun _ _ => trivial) .nil) (by rfl)
    exact reads_macro hlevel (reads_rule 61 (by rfl) (by rfl) (.token htoken (fun _ _ => trivial)
      (.token hleft (fun _ _ => trivial) (.node (hrest.reads hfirst hrestFront) (fun _ _ => trivial)
        (.token hright (fun _ _ => trivial) .nil)))) (by rfl))
  | level, _, _, @Spelled.unary _ operator operand words hunary hoperand, hlevel, front, hfront => by
    obtain ⟨token, rest, rfl, -, hadmits, hrest⟩ := hfront.cons
    exact reads_tier_of_le hunary (by decide) (reads_unary operator hadmits (hoperand.reads (by decide) hrest))
  | level, _, _, @Spelled.binary _ operator left right words others hle hleft hright, hlevel, front, hfront => by
    obtain ⟨leftFront, _, rfl, hleftFront, hback⟩ := hfront.append
    obtain ⟨token, rest, rfl, -, hadmits, hrest⟩ := hback.cons
    have hoperator : operator.level ≤ 10 := by cases operator <;> decide
    exact reads_tier_of_le hle (by omega)
      (reads_binary operator (hleft.reads (by omega) hleftFront) hadmits (hright.reads (by omega) hrest))
  | level, e, _, @Spelled.parentheses _ _ words hinner, hlevel, front, hfront => by
    obtain ⟨left, _, rfl, -, hleft, hback⟩ := hfront.cons
    obtain ⟨inner, _, rfl, hinnerFront, hlast⟩ := hback.append
    obtain ⟨right, rfl, -, hright⟩ := hlast.singleton
    have hconstant : ReadsAs number .constantExpression inner (.expression e) :=
      reads_tier_pred (by decide) (hinner.reads (by decide) hinnerFront)
    exact reads_tier_of_le hlevel le_rfl (reads_rule 102 (by rfl) (by rfl) (.token hleft (fun _ _ => trivial)
      (.node hconstant (fun _ _ => trivial) (.token hright (fun _ _ => trivial) .nil))) (by rfl))

/-- The arguments after some others. -/
theorem SpelledRest.reads : ∀ {rest : List Expression} {others : List Written}, SpelledRest rest others →
    ∀ {front back : List (TokenKind × Token)} {arguments : List Expression},
      ReadsAs number .parameterList front (.arguments arguments) → Carries back others →
      ReadsAs number .parameterList (front ++ back) (.arguments (arguments ++ rest))
  | _, _, .nil, front, back, arguments, hfront, hback => by
    obtain rfl := List.map_eq_nil_iff.mp hback.written
    rw [List.append_nil, List.append_nil]
    exact hfront
  | _, _, @SpelledRest.cons e rest words others he hrest, front, back, arguments, hfront, hback => by
    obtain ⟨comma, _, rfl, -, hcomma, hback⟩ := hback.cons
    obtain ⟨middle, back, rfl, hmiddle, hback⟩ := hback.append
    have hconstant : ReadsAs number .constantExpression middle (.expression e) :=
      reads_tier_pred (by decide) (he.reads (by decide) hmiddle)
    have hmore : ReadsAs number .parameterList (front ++ (separator.1, comma) :: (middle ++ []))
        (.arguments (arguments ++ [e])) :=
      reads_rule 63 (by rfl) (by rfl) (.node hfront (fun _ _ => trivial) (.token hcomma (fun _ _ => trivial)
        (.node hconstant (fun _ _ => trivial) .nil))) (by rfl)
    have hall := hrest.reads hmore hback
    rwa [List.append_nil, List.append_assoc, List.append_assoc] at hall

end

end Expression

end ShaderFront.Directive
