import Mathlib
import ShaderFront.Directive.Language
import ShaderFront.Proofs.Answers

/-!
# The rules of directives, spelled

The alphabet of directives (`Directive.alphabet_covers`), and the sort of the node of each nonterminal. Every rule builds a node
of the sort of its head, or refuses the text of a number (`Directive.rules_fit`). A source has the node of a file, unless its
tokens begin a single expression.
-/

namespace ShaderFront.Directive

/-- The nonterminals, in the order of their first appearance. -/
inductive Nonterminal where
  | start
  | program
  | particleList
  | constantExpression
  | particle
  | directive
  | defDirective
  | undefDirective
  | errorDirective
  | extensionDirective
  | includeDirective
  | lineDirective
  | nullDirective
  | pragmaDirective
  | versionDirective
  | conditionalDirective
  | tokenList
  | formalsList
  | ifPart
  | endifDirective
  | elsePart
  | ifDirective
  | ifdefDirective
  | ifndefDirective
  | elifParts
  | elifPart
  | elifDirective
  | elseDirective
  | logicalOrExpression
  | macroEvaluation
  | parameterList
  | definedOperator
  | logicalAndExpression
  | inclusiveOrExpression
  | exclusiveOrExpression
  | andExpression
  | equalityExpression
  | relationalExpression
  | shiftExpression
  | additiveExpression
  | multiplicativeExpression
  | unaryExpression
  | primaryExpression
deriving DecidableEq

namespace Nonterminal

/-- All nonterminals. -/
def all : List Nonterminal :=
  [.start, .program, .particleList, .constantExpression, .particle, .directive, .defDirective, .undefDirective,
   .errorDirective, .extensionDirective, .includeDirective, .lineDirective, .nullDirective, .pragmaDirective,
   .versionDirective, .conditionalDirective, .tokenList, .formalsList, .ifPart, .endifDirective, .elsePart,
   .ifDirective, .ifdefDirective, .ifndefDirective, .elifParts, .elifPart, .elifDirective, .elseDirective,
   .logicalOrExpression, .macroEvaluation, .parameterList, .definedOperator, .logicalAndExpression,
   .inclusiveOrExpression, .exclusiveOrExpression, .andExpression, .equalityExpression, .relationalExpression,
   .shiftExpression, .additiveExpression, .multiplicativeExpression, .unaryExpression, .primaryExpression]

/-- The name of a nonterminal in the rules. -/
def name : Nonterminal → String
  | .start => "$START$"
  | .program => "program"
  | .particleList => "particle-list"
  | .constantExpression => "constant-expression"
  | .particle => "particle"
  | .directive => "directive"
  | .defDirective => "def-directive"
  | .undefDirective => "undef-directive"
  | .errorDirective => "error-directive"
  | .extensionDirective => "extension-directive"
  | .includeDirective => "include-directive"
  | .lineDirective => "line-directive"
  | .nullDirective => "null-directive"
  | .pragmaDirective => "pragma-directive"
  | .versionDirective => "version-directive"
  | .conditionalDirective => "conditional-directive"
  | .tokenList => "token-list"
  | .formalsList => "formals-list"
  | .ifPart => "if-part"
  | .endifDirective => "endif-directive"
  | .elsePart => "else-part"
  | .ifDirective => "if-directive"
  | .ifdefDirective => "ifdef-directive"
  | .ifndefDirective => "ifndef-directive"
  | .elifParts => "elif-parts"
  | .elifPart => "elif-part"
  | .elifDirective => "elif-directive"
  | .elseDirective => "else-directive"
  | .logicalOrExpression => "logical-or-expression"
  | .macroEvaluation => "macro-evaluation"
  | .parameterList => "parameter-list"
  | .definedOperator => "defined-operator"
  | .logicalAndExpression => "logical-and-expression"
  | .inclusiveOrExpression => "inclusive-or-expression"
  | .exclusiveOrExpression => "exclusive-or-expression"
  | .andExpression => "and-expression"
  | .equalityExpression => "equality-expression"
  | .relationalExpression => "relational-expression"
  | .shiftExpression => "shift-expression"
  | .additiveExpression => "additive-expression"
  | .multiplicativeExpression => "multiplicative-expression"
  | .unaryExpression => "unary-expression"
  | .primaryExpression => "primary-expression"

end Nonterminal

/-! ## Productions -/

/-- Sources and single expressions. -/
def particleProductions : List (Spelling TokenKind Nonterminal) :=
  [ ⟨.start, [.node .program]⟩,
    ⟨.program, [.node .particleList]⟩,
    ⟨.program, [.token .expressionStart, .node .constantExpression]⟩,
    ⟨.particleList, []⟩,
    ⟨.particleList, [.node .particleList, .node .particle]⟩,
    ⟨.particle, [.token .text]⟩,
    ⟨.particle, [.node .directive]⟩,
    ⟨.directive, [.node .defDirective]⟩,
    ⟨.directive, [.node .undefDirective]⟩,
    ⟨.directive, [.node .errorDirective]⟩,
    ⟨.directive, [.node .extensionDirective]⟩,
    ⟨.directive, [.node .includeDirective]⟩,
    ⟨.directive, [.node .lineDirective]⟩,
    ⟨.directive, [.node .nullDirective]⟩,
    ⟨.directive, [.node .pragmaDirective]⟩,
    ⟨.directive, [.node .versionDirective]⟩,
    ⟨.directive, [.node .conditionalDirective]⟩ ]

/-- Definitions of macros and lists of tokens. -/
def definitionProductions : List (Spelling TokenKind Nonterminal) :=
  [ ⟨.defDirective, [.token .define, .token .identifier, .token .newline]⟩,
    ⟨.defDirective, [.token .define, .token .identifier, .node .tokenList, .token .newline]⟩,
    ⟨.defDirective, [.token .define, .token .identifier, .token .macroParen, .token .parenRight, .token .newline]⟩,
    ⟨.defDirective, [.token .define, .token .identifier, .token .macroParen, .token .parenRight, .node .tokenList,
      .token .newline]⟩,
    ⟨.defDirective, [.token .define, .token .identifier, .token .macroParen, .node .formalsList, .token .parenRight,
      .token .newline]⟩,
    ⟨.defDirective, [.token .define, .token .identifier, .token .macroParen, .node .formalsList, .token .parenRight,
      .node .tokenList, .token .newline]⟩,
    ⟨.tokenList, [.token .any]⟩,
    ⟨.tokenList, [.node .tokenList, .token .any]⟩,
    ⟨.formalsList, [.token .identifier]⟩,
    ⟨.formalsList, [.node .formalsList, .token .comma, .token .identifier]⟩ ]

/-- Directives on one line. -/
def directiveProductions : List (Spelling TokenKind Nonterminal) :=
  [ ⟨.errorDirective, [.token .error, .token .newline]⟩,
    ⟨.errorDirective, [.token .error, .node .tokenList, .token .newline]⟩,
    ⟨.extensionDirective, [.token .extension, .token .newline]⟩,
    ⟨.extensionDirective, [.token .extension, .node .tokenList, .token .newline]⟩,
    ⟨.includeDirective, [.token .include_, .token .string, .token .newline]⟩,
    ⟨.lineDirective, [.token .line, .token .intConstant, .token .newline]⟩,
    ⟨.lineDirective, [.token .line, .token .intConstant, .token .string, .token .newline]⟩,
    ⟨.lineDirective, [.token .line, .token .intConstant, .token .intConstant, .token .newline]⟩,
    ⟨.nullDirective, [.token .hash, .token .newline]⟩,
    ⟨.pragmaDirective, [.token .pragma, .token .newline]⟩,
    ⟨.pragmaDirective, [.token .pragma, .node .tokenList, .token .newline]⟩,
    ⟨.undefDirective, [.token .undef, .token .identifier, .token .newline]⟩,
    ⟨.versionDirective, [.token .version, .token .intConstant, .token .newline]⟩,
    ⟨.versionDirective, [.token .version, .token .intConstant, .token .identifier, .token .newline]⟩ ]

/-- Conditionals. -/
def conditionalProductions : List (Spelling TokenKind Nonterminal) :=
  [ ⟨.conditionalDirective, [.node .ifPart, .node .endifDirective]⟩,
    ⟨.conditionalDirective, [.node .ifPart, .node .elsePart, .node .endifDirective]⟩,
    ⟨.ifPart, [.node .ifDirective, .node .particleList]⟩,
    ⟨.ifPart, [.node .ifdefDirective, .node .particleList]⟩,
    ⟨.ifPart, [.node .ifndefDirective, .node .particleList]⟩,
    ⟨.elifParts, [.node .elifPart]⟩,
    ⟨.elifParts, [.node .elifParts, .node .elifPart]⟩,
    ⟨.elifPart, [.node .elifDirective, .node .particleList]⟩,
    ⟨.elsePart, [.node .elifParts]⟩,
    ⟨.elsePart, [.node .elifParts, .node .elseDirective, .node .particleList]⟩,
    ⟨.elsePart, [.node .elseDirective, .node .particleList]⟩,
    ⟨.ifDirective, [.token .if_, .node .constantExpression, .token .newline]⟩,
    ⟨.ifdefDirective, [.token .ifdef, .token .identifier, .token .newline]⟩,
    ⟨.ifndefDirective, [.token .ifndef, .token .identifier, .token .newline]⟩,
    ⟨.elseDirective, [.token .else_, .token .newline]⟩,
    ⟨.elifDirective, [.token .elif, .node .constantExpression, .token .newline]⟩,
    ⟨.endifDirective, [.token .endif, .token .newline]⟩ ]

/-- Macros in expressions. -/
def callProductions : List (Spelling TokenKind Nonterminal) :=
  [ ⟨.constantExpression, [.node .logicalOrExpression]⟩,
    ⟨.macroEvaluation, [.token .identifier]⟩,
    ⟨.macroEvaluation, [.token .identifier, .token .parenLeft, .token .parenRight]⟩,
    ⟨.macroEvaluation, [.token .identifier, .token .parenLeft, .node .parameterList, .token .parenRight]⟩,
    ⟨.parameterList, [.node .constantExpression]⟩,
    ⟨.parameterList, [.node .parameterList, .token .comma, .node .constantExpression]⟩,
    ⟨.definedOperator, [.token .defined, .token .parenLeft, .token .identifier, .token .parenRight]⟩,
    ⟨.definedOperator, [.token .defined, .token .identifier]⟩ ]

/-- Operators, from the weakest to the strongest. -/
def operatorProductions : List (Spelling TokenKind Nonterminal) :=
  [ ⟨.logicalOrExpression, [.node .logicalAndExpression]⟩,
    ⟨.logicalOrExpression, [.node .logicalOrExpression, .token .logicalOr, .node .logicalAndExpression]⟩,
    ⟨.logicalAndExpression, [.node .inclusiveOrExpression]⟩,
    ⟨.logicalAndExpression, [.node .logicalAndExpression, .token .logicalAnd, .node .inclusiveOrExpression]⟩,
    ⟨.inclusiveOrExpression, [.node .exclusiveOrExpression]⟩,
    ⟨.inclusiveOrExpression, [.node .inclusiveOrExpression, .token .bitOr, .node .exclusiveOrExpression]⟩,
    ⟨.exclusiveOrExpression, [.node .andExpression]⟩,
    ⟨.exclusiveOrExpression, [.node .exclusiveOrExpression, .token .bitXor, .node .andExpression]⟩,
    ⟨.andExpression, [.node .equalityExpression]⟩,
    ⟨.andExpression, [.node .andExpression, .token .bitAnd, .node .equalityExpression]⟩,
    ⟨.equalityExpression, [.node .relationalExpression]⟩,
    ⟨.equalityExpression, [.node .equalityExpression, .token .equal, .node .relationalExpression]⟩,
    ⟨.equalityExpression, [.node .equalityExpression, .token .notEqual, .node .relationalExpression]⟩,
    ⟨.relationalExpression, [.node .shiftExpression]⟩,
    ⟨.relationalExpression, [.node .relationalExpression, .token .less, .node .shiftExpression]⟩,
    ⟨.relationalExpression, [.node .relationalExpression, .token .greater, .node .shiftExpression]⟩,
    ⟨.relationalExpression, [.node .relationalExpression, .token .lessEqual, .node .shiftExpression]⟩,
    ⟨.relationalExpression, [.node .relationalExpression, .token .greaterEqual, .node .shiftExpression]⟩,
    ⟨.shiftExpression, [.node .additiveExpression]⟩,
    ⟨.shiftExpression, [.node .shiftExpression, .token .shiftLeft, .node .additiveExpression]⟩,
    ⟨.shiftExpression, [.node .shiftExpression, .token .shiftRight, .node .additiveExpression]⟩,
    ⟨.additiveExpression, [.node .multiplicativeExpression]⟩,
    ⟨.additiveExpression, [.node .additiveExpression, .token .plus, .node .multiplicativeExpression]⟩,
    ⟨.additiveExpression, [.node .additiveExpression, .token .minus, .node .multiplicativeExpression]⟩,
    ⟨.multiplicativeExpression, [.node .unaryExpression]⟩,
    ⟨.multiplicativeExpression, [.node .multiplicativeExpression, .token .star, .node .unaryExpression]⟩,
    ⟨.multiplicativeExpression, [.node .multiplicativeExpression, .token .slash, .node .unaryExpression]⟩,
    ⟨.multiplicativeExpression, [.node .multiplicativeExpression, .token .percent, .node .unaryExpression]⟩,
    ⟨.unaryExpression, [.node .primaryExpression]⟩,
    ⟨.unaryExpression, [.token .plus, .node .unaryExpression]⟩,
    ⟨.unaryExpression, [.token .minus, .node .unaryExpression]⟩,
    ⟨.unaryExpression, [.token .not, .node .unaryExpression]⟩,
    ⟨.unaryExpression, [.token .complement, .node .unaryExpression]⟩,
    ⟨.primaryExpression, [.node .definedOperator]⟩,
    ⟨.primaryExpression, [.node .macroEvaluation]⟩,
    ⟨.primaryExpression, [.token .intConstant]⟩,
    ⟨.primaryExpression, [.token .parenLeft, .node .constantExpression, .token .parenRight]⟩ ]

/-- All productions, in the order of the rules. -/
def productions : List (Spelling TokenKind Nonterminal) :=
  particleProductions ++ definitionProductions ++ directiveProductions ++ conditionalProductions ++ callProductions ++
    operatorProductions

/-- The alphabet of directives. -/
def alphabet : Alphabet TokenKind Nonterminal where
  kinds := TokenKind.all
  terminal kind :=
    { name := kind.name, id := kind.id, wild := kind.isWild, role := if kind = .any then .wildcard else .common }
  heads := Nonterminal.all
  nonterminal := Nonterminal.name
  rank := Nonterminal.ctorIdx
  start := .start
  root := .program
  productions := productions

/-- **The productions are the rules.** -/
theorem rules_spelled : rules.map (fun r => (r.head, Text.words r.body)) =
    productions.map fun p => (p.head.name, p.body.map alphabet.name) := by
  simp only [rules, particleRules, definitionRules, directiveRules, conditionalRules, callRules, operatorRules, passRule,
    binaryRule, unaryRule, productions, particleProductions, definitionProductions, directiveProductions,
    conditionalProductions, callProductions, operatorProductions, List.cons_append, List.nil_append, List.map_cons,
    List.map_nil, List.cons.injEq, Prod.mk.injEq, Alphabet.name, alphabet, Nonterminal.name, TokenKind.name, true_and, and_true]
  and_intros <;> exact Text.words_ofList _

theorem alphabet_covers : alphabet.Covers language where
  mem_kinds kind := by cases kind <;> decide
  mem_heads head := by cases head <;> decide
  terminals := rfl
  rules := rules_spelled
  ids := by decide +kernel
  roles := by decide +kernel
  wildcards := by decide +kernel
  names := by decide +kernel
  ranks := by decide +kernel
  empty := by decide +kernel
  startName := rfl
  startRank := rfl
  startBody := by decide +kernel
  start_not_mem := by decide +kernel
  different := by decide +kernel
  defined := by decide +kernel

/-- The tables of the alphabet have no conflicts and parse in few moves. -/
def tameness : alphabet.outline.Tame := ⟨3, 200, 60, by decide +kernel⟩

theorem id_injective : Function.Injective TokenKind.id := fun _ _ h => alphabet_covers.id_injective h

/-- A token that stands for a kind has this kind, or the kind is the wildcard. -/
theorem admits_cases {kind : TokenKind} {token : Token} (h : alphabet.Admits kind token) : token.symbol = kind.id ∨
    kind = .any ∧ ∀ tame : TokenKind, tame.isWild = false → token.symbol ≠ tame.id := by
  refine h.imp id fun ⟨hrole, hwild⟩ => ⟨?_, hwild⟩
  by_contra hne
  rw [show (alphabet.terminal kind).role = if kind = .any then .wildcard else .common from rfl, if_neg hne] at hrole
  cases hrole

/-! ## Sorts -/

/-- The node of a nonterminal inside a source. -/
@[simp]
def Nonterminal.Sort : Nonterminal → Node → Prop
  | .start, _ | .program, _ => True
  | .particleList, node => ∃ particles, node = .particles particles
  | .particle, node | .directive, node | .defDirective, node | .undefDirective, node | .errorDirective, node
  | .extensionDirective, node | .includeDirective, node | .lineDirective, node | .nullDirective, node
  | .pragmaDirective, node | .versionDirective, node | .conditionalDirective, node => ∃ particle, node = .particle particle
  | .tokenList, node => ∃ tokens, node = .tokens tokens
  | .formalsList, node => ∃ names, node = .formals names
  | .ifPart, node | .elifPart, node => ∃ branch, node = .branch branch
  | .elifParts, node => ∃ branches, node = .branches branches
  | .elsePart, node => ∃ branches otherwise, node = .alternatives branches otherwise
  | .ifDirective, node | .ifdefDirective, node | .ifndefDirective, node | .elifDirective, node =>
    ∃ condition, node = .condition condition
  | .elseDirective, node | .endifDirective, node => node = .marker
  | .parameterList, node => ∃ expressions, node = .arguments expressions
  | _, node => ∃ expression, node = .expression expression

theorem integerOf_cases (token : Token) :
    (∃ i, integerOf token = .ok i) ∨ ∃ e, integerOf token = .error e ∧ Misread token e := by
  rw [integerOf]
  split
  · exact .inl ⟨_, rfl⟩
  · exact .inr ⟨_, rfl, .integer⟩

theorem particleRules_sorted :
    List.Forall₂ (alphabet.Fits (fun _ => True) (fun head _ => head.Sort) Misread) particleRules particleProductions := by
  simp only [particleRules, particleProductions, List.forall₂_cons, List.forall₂_nil_left_iff, and_true, Alphabet.Fits,
    Alphabet.forall_fills_node, Alphabet.forall_fills_token, Alphabet.forall_fills_nil, Nonterminal.Sort, forall_exists_index]
  and_intros
  all_goals
    intros
    subst_vars
    first
      | exact .inl ⟨_, rfl, _, rfl⟩
      | exact .inl ⟨_, rfl⟩

theorem definitionRules_sorted :
    List.Forall₂ (alphabet.Fits (fun _ => True) (fun head _ => head.Sort) Misread) definitionRules definitionProductions := by
  simp only [definitionRules, definitionProductions, List.forall₂_cons, List.forall₂_nil_left_iff, and_true, Alphabet.Fits,
    Alphabet.forall_fills_node, Alphabet.forall_fills_token, Alphabet.forall_fills_nil, Nonterminal.Sort, forall_exists_index]
  and_intros
  all_goals
    intros
    subst_vars
    exact .inl ⟨_, rfl, _, rfl⟩

theorem directiveRules_sorted :
    List.Forall₂ (alphabet.Fits (fun _ => True) (fun head _ => head.Sort) Misread) directiveRules directiveProductions := by
  simp only [directiveRules, directiveProductions, List.forall₂_cons, List.forall₂_nil_left_iff, and_true, Alphabet.Fits,
    Alphabet.forall_fills_node, Alphabet.forall_fills_token, Alphabet.forall_fills_nil, Nonterminal.Sort, forall_exists_index]
  and_intros
  all_goals
    intros
    subst_vars
    -- a rule builds its node, or reads a number first
    first
      | exact .inl ⟨_, rfl, _, rfl⟩
      | exact answers_map (integerOf_cases _) (by simp) fun i => ⟨_, rfl⟩

theorem conditionalRules_sorted :
    List.Forall₂ (alphabet.Fits (fun _ => True) (fun head _ => head.Sort) Misread) conditionalRules conditionalProductions := by
  simp only [conditionalRules, conditionalProductions, List.forall₂_cons, List.forall₂_nil_left_iff, and_true, Alphabet.Fits,
    Alphabet.forall_fills_node, Alphabet.forall_fills_token, Alphabet.forall_fills_nil, Nonterminal.Sort, forall_exists_index]
  and_intros
  all_goals
    intros
    subst_vars
    first
      | exact .inl ⟨_, rfl, _, rfl⟩
      | exact .inl ⟨_, rfl, _, _, rfl⟩
      | exact .inl ⟨_, rfl, rfl⟩

theorem callRules_sorted :
    List.Forall₂ (alphabet.Fits (fun _ => True) (fun head _ => head.Sort) Misread) callRules callProductions := by
  simp only [callRules, callProductions, List.forall₂_cons, List.forall₂_nil_left_iff, and_true, Alphabet.Fits,
    Alphabet.forall_fills_node, Alphabet.forall_fills_token, Alphabet.forall_fills_nil, Nonterminal.Sort, forall_exists_index]
  and_intros
  all_goals
    intros
    subst_vars
    exact .inl ⟨_, rfl, _, rfl⟩

theorem operatorRules_sorted :
    List.Forall₂ (alphabet.Fits (fun _ => True) (fun head _ => head.Sort) Misread) operatorRules operatorProductions := by
  simp only [operatorRules, operatorProductions, List.forall₂_cons, List.forall₂_nil_left_iff, and_true, Alphabet.Fits,
    Alphabet.forall_fills_node, Alphabet.forall_fills_token, Alphabet.forall_fills_nil, Nonterminal.Sort, forall_exists_index]
  and_intros
  all_goals
    intros
    subst_vars
    first
      | exact .inl ⟨_, rfl, _, rfl⟩
      | exact answers_map (integerOf_cases _) (by simp) fun i => ⟨_, rfl⟩

/-- Every rule builds a node of the sort of its head. -/
theorem rules_sorted :
    List.Forall₂ (alphabet.Fits (fun _ => True) (fun head _ => head.Sort) Misread) rules productions :=
  List.rel_append (List.rel_append (List.rel_append (List.rel_append (List.rel_append particleRules_sorted
    definitionRules_sorted) directiveRules_sorted) conditionalRules_sorted) callRules_sorted) operatorRules_sorted

/-! ## Files and single expressions -/

/-- No token begins a single expression. -/
def Plain (tokens : List Token) : Prop := ∀ token ∈ tokens, token.symbol ≠ TokenKind.expressionStart.id

/-- The tokens of a nonterminal begin no single expression, and those of a program begin one if the node is an expression. -/
def Nonterminal.Reads : Nonterminal → List Token → Node → Prop
  | .start, tokens, node | .program, tokens, node =>
    (∃ particles, node = .file particles ∧ Plain tokens) ∨ ∃ expression, node = .expression expression ∧ ¬Plain tokens
  | _, tokens, _ => Plain tokens

/-- The node of a nonterminal has the sort of the nonterminal. -/
def Sorted (head : Nonterminal) (tokens : List Token) (node : Node) : Prop := head.Sort node ∧ head.Reads tokens node

/-- Whether a nonterminal stands inside of sources and single expressions. -/
def Nonterminal.isInside (head : Nonterminal) : Bool := head ≠ .start && head ≠ .program

/-- Whether a word stands inside of sources and single expressions. -/
def isInside : Word TokenKind Nonterminal → Bool
  | .token kind => kind ≠ .expressionStart
  | .node head => head.isInside

theorem Nonterminal.reads_iff {head : Nonterminal} (h : head.isInside = true) {tokens : List Token} {node : Node} :
    head.Reads tokens node ↔ Plain tokens := by
  cases head <;> first | rfl | cases h

theorem plain_of_admits {kind : TokenKind} {token : Token} (h : alphabet.Admits kind token) (hkind : kind ≠ .expressionStart) :
    token.symbol ≠ TokenKind.expressionStart.id := by
  rcases admits_cases h with h | ⟨-, h⟩
  · rw [h]
    exact id_injective.ne hkind
  · exact h .expressionStart rfl

theorem plain_of_fills : ∀ {words : List (Word TokenKind Nonterminal)} {elements : List (Matched Node)} {tokens : List Token},
    alphabet.Fills (fun _ => True) Sorted words elements tokens → (∀ word ∈ words, isInside word = true) → Plain tokens
  | [], _, _, ⟨_, rfl⟩, _ => nofun
  | .token kind :: _, _, _, ⟨token, _, _, hadmits, _, _, rfl, hrest⟩, hwords => by
    obtain ⟨hkind, hwords⟩ := List.forall_mem_cons.mp hwords
    exact List.forall_mem_cons.mpr ⟨plain_of_admits hadmits (of_decide_eq_true hkind), plain_of_fills hrest hwords⟩
  | .node head :: _, _, _, ⟨_, _, _, _, _, hnode, _, rfl, hrest⟩, hwords => by
    obtain ⟨hhead, hwords⟩ := List.forall_mem_cons.mp hwords
    exact List.forall_mem_append.mpr ⟨(Nonterminal.reads_iff hhead).mp hnode.2, plain_of_fills hrest hwords⟩

theorem reads_inside {r : Rule Node} {p : Spelling TokenKind Nonterminal}
    (h : alphabet.Fits (fun _ => True) (fun head _ => head.Sort) Misread r p) (hhead : p.head.isInside = true)
    (hbody : ∀ word ∈ p.body, isInside word = true) : alphabet.Fits (fun _ => True) Sorted Misread r p :=
  h.and fun _ _ _ hfills _ => (Nonterminal.reads_iff hhead).mpr (plain_of_fills hfills hbody)

theorem reads_program : List.Forall₂ (alphabet.Fits (fun _ => True) Sorted Misread) (particleRules.take 3)
    (particleProductions.take 3) := by
  have hsorted := List.forall₂_take 3 particleRules_sorted
  simp only [particleRules, particleProductions, List.take, List.forall₂_cons] at hsorted ⊢
  obtain ⟨hstart, hfile, hsingle, -⟩ := hsorted
  refine ⟨hstart.and fun elements tokens node hfills hnode => ?_, hfile.and fun elements tokens node hfills hnode => ?_,
    hsingle.and fun elements tokens node hfills hnode => ?_, .nil⟩
  · obtain ⟨_, program, _, _, _, ⟨-, hreads⟩, rfl, rfl, rfl, rfl⟩ := hfills
    cases hnode
    rw [List.append_nil]
    exact hreads
  · obtain ⟨_, _, front, _, _, ⟨⟨particles, rfl⟩, hplain⟩, rfl, rfl, rfl, rfl⟩ := hfills
    cases hnode
    rw [List.append_nil]
    exact .inl ⟨particles, rfl, hplain⟩
  · obtain ⟨token, _, _, hadmits, -, rfl, rfl, _, _, _, _, _, ⟨⟨expression, rfl⟩, -⟩, rfl, rfl, rfl, rfl⟩ := hfills
    cases hnode
    refine .inr ⟨expression, rfl, fun hplain => hplain token List.mem_cons_self ?_⟩
    exact (admits_cases hadmits).resolve_right fun ⟨hany, _⟩ => nomatch hany

/-- **Every rule fits its production.** -/
theorem rules_fit : List.Forall₂ (alphabet.Fits (fun _ => True) Sorted Misread) rules productions := by
  have hinside : ∀ p ∈ productions.drop 3, p.head.isInside = true ∧ ∀ word ∈ p.body, isInside word = true := by
    decide +kernel
  rw [← List.take_append_drop 3 rules, ← List.take_append_drop 3 productions]
  refine List.rel_append reads_program (List.forall₂_iff_get.mpr ?_)
  have hsorted := List.forall₂_drop 3 rules_sorted
  refine ⟨hsorted.length_eq, fun i hr hp => ?_⟩
  obtain ⟨hhead, hbody⟩ := hinside _ (List.get_mem _ ⟨i, hp⟩)
  exact reads_inside (hsorted.get hr hp) hhead hbody

end ShaderFront.Directive
