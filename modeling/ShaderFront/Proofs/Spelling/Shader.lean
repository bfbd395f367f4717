import Mathlib
import ShaderFront.Proofs.Answers
import ShaderFront.Shader.Language

/-!
# The rules of declarations, spelled

The alphabet of declarations (`Shader.alphabet_covers`), and the sort of the node of each nonterminal. Every rule builds a node
of the sort of its head, or refuses the text of a number (`Shader.rules_fit`).
-/

namespace ShaderFront.Shader

/-- The nonterminals, in the order of their first appearance. -/
inductive Nonterminal where
  | start
  | translationUnit
  | externalDeclaration
  | leadingAnnotations
  | declaration
  | trailingAnnotations
  | functionPrototype
  | compoundBody
  | initDeclaratorList
  | precisionQualifier
  | typeSpecifier
  | typeQualifier
  | structDeclarationList
  | arraySpecifier
  | fullySpecifiedType
  | parameterList
  | parameterDeclaration
  | parameterQualifiers
  | parameterQualifier
  | singleDeclaration
  | declarator
  | initializer
  | singleTypeQualifier
  | storageQualifier
  | layoutQualifier
  | interpolationQualifier
  | layoutIdList
  | layoutId
  | typeSpecifierNonarray
  | structSpecifier
  | structDeclaration
  | structDeclaratorList
  | structDeclarator
  | nestedList
  | initItem
  | nestedItem
deriving DecidableEq

namespace Nonterminal

/-- All nonterminals. -/
def all : List Nonterminal :=
  [.start, .translationUnit, .externalDeclaration, .leadingAnnotations, .declaration, .trailingAnnotations,
   .functionPrototype, .compoundBody, .initDeclaratorList, .precisionQualifier, .typeSpecifier, .typeQualifier,
   .structDeclarationList, .arraySpecifier, .fullySpecifiedType, .parameterList, .parameterDeclaration,
   .parameterQualifiers, .parameterQualifier, .singleDeclaration, .declarator, .initializer, .singleTypeQualifier,
   .storageQualifier, .layoutQualifier, .interpolationQualifier, .layoutIdList, .layoutId, .typeSpecifierNonarray,
   .structSpecifier, .structDeclaration, .structDeclaratorList, .structDeclarator, .nestedList, .initItem,
   .nestedItem]

/-- The name of a nonterminal in the rules. -/
def name : Nonterminal → String
  | .start => "$START$"
  | .translationUnit => "translation-unit"
  | .externalDeclaration => "external-declaration"
  | .leadingAnnotations => "leading-annotations"
  | .declaration => "declaration"
  | .trailingAnnotations => "trailing-annotations"
  | .functionPrototype => "function-prototype"
  | .compoundBody => "compound-body"
  | .initDeclaratorList => "init-declarator-list"
  | .precisionQualifier => "precision-qualifier"
  | .typeSpecifier => "type-specifier"
  | .typeQualifier => "type-qualifier"
  | .structDeclarationList => "struct-declaration-list"
  | .arraySpecifier => "array-specifier"
  | .fullySpecifiedType => "fully-specified-type"
  | .parameterList => "parameter-list"
  | .parameterDeclaration => "parameter-declaration"
  | .parameterQualifiers => "parameter-qualifiers"
  | .parameterQualifier => "parameter-qualifier"
  | .singleDeclaration => "single-declaration"
  | .declarator => "declarator"
  | .initializer => "initializer"
  | .singleTypeQualifier => "single-type-qualifier"
  | .storageQualifier => "storage-qualifier"
  | .layoutQualifier => "layout-qualifier"
  | .interpolationQualifier => "interpolation-qualifier"
  | .layoutIdList => "layout-id-list"
  | .layoutId => "layout-id"
  | .typeSpecifierNonarray => "type-specifier-nonarray"
  | .structSpecifier => "struct-specifier"
  | .structDeclaration => "struct-declaration"
  | .structDeclaratorList => "struct-declarator-list"
  | .structDeclarator => "struct-declarator"
  | .nestedList => "nested-list"
  | .initItem => "init-item"
  | .nestedItem => "nested-item"

end Nonterminal

/-! ## Productions -/

/-- Units, and the comments around declarations. -/
def unitProductions : List (Spelling TokenKind Nonterminal) :=
  [ ⟨.start, [.node .translationUnit]⟩,
    ⟨.translationUnit, []⟩,
    ⟨.translationUnit, [.node .translationUnit, .node .externalDeclaration]⟩,
    ⟨.externalDeclaration, [.node .leadingAnnotations, .node .declaration, .node .trailingAnnotations]⟩,
    ⟨.externalDeclaration, [.node .leadingAnnotations, .node .functionPrototype, .node .compoundBody]⟩,
    ⟨.leadingAnnotations, []⟩,
    ⟨.leadingAnnotations, [.node .leadingAnnotations, .token .leadingTags]⟩,
    ⟨.trailingAnnotations, []⟩,
    ⟨.trailingAnnotations, [.node .trailingAnnotations, .token .trailingTags]⟩ ]

/-- Declarations. -/
def declarationProductions : List (Spelling TokenKind Nonterminal) :=
  [ ⟨.declaration, [.node .functionPrototype, .token .semicolon]⟩,
    ⟨.declaration, [.node .initDeclaratorList, .token .semicolon]⟩,
    ⟨.declaration, [.token .precision, .node .precisionQualifier, .node .typeSpecifier, .token .semicolon]⟩,
    ⟨.declaration, [.node .typeQualifier, .token .identifier, .token .braceLeft, .node .structDeclarationList,
      .token .braceRight, .token .semicolon]⟩,
    ⟨.declaration, [.node .typeQualifier, .token .identifier, .token .braceLeft, .node .structDeclarationList,
      .token .braceRight, .token .identifier, .token .semicolon]⟩,
    ⟨.declaration, [.node .typeQualifier, .token .identifier, .token .braceLeft, .node .structDeclarationList,
      .token .braceRight, .token .identifier, .node .arraySpecifier, .token .semicolon]⟩,
    ⟨.declaration, [.node .typeQualifier, .token .semicolon]⟩ ]

/-- Heads of functions and their parameters. -/
def functionProductions : List (Spelling TokenKind Nonterminal) :=
  [ ⟨.functionPrototype, [.node .fullySpecifiedType, .token .identifier, .token .parenLeft, .token .parenRight]⟩,
    ⟨.functionPrototype, [.node .fullySpecifiedType, .token .identifier, .token .parenLeft, .node .parameterList,
      .token .parenRight]⟩,
    ⟨.parameterList, [.node .parameterDeclaration]⟩,
    ⟨.parameterList, [.node .parameterList, .token .comma, .node .parameterDeclaration]⟩,
    ⟨.parameterDeclaration, [.node .parameterQualifiers, .node .typeSpecifier]⟩,
    ⟨.parameterDeclaration, [.node .parameterQualifiers, .node .typeSpecifier, .token .identifier]⟩,
    ⟨.parameterDeclaration, [.node .parameterQualifiers, .node .typeSpecifier, .token .identifier,
      .node .arraySpecifier]⟩,
    ⟨.parameterQualifiers, []⟩,
    ⟨.parameterQualifiers, [.node .parameterQualifiers, .node .parameterQualifier]⟩,
    ⟨.parameterQualifier, [.token .const]⟩,
    ⟨.parameterQualifier, [.token .in_]⟩,
    ⟨.parameterQualifier, [.token .out]⟩,
    ⟨.parameterQualifier, [.token .inOut]⟩,
    ⟨.parameterQualifier, [.node .precisionQualifier]⟩ ]

/-- Variables and the types in front of them. -/
def variableProductions : List (Spelling TokenKind Nonterminal) :=
  [ ⟨.initDeclaratorList, [.node .singleDeclaration]⟩,
    ⟨.initDeclaratorList, [.node .initDeclaratorList, .token .comma, .node .declarator]⟩,
    ⟨.singleDeclaration, [.node .fullySpecifiedType]⟩,
    ⟨.singleDeclaration, [.node .fullySpecifiedType, .node .declarator]⟩,
    ⟨.declarator, [.token .identifier]⟩,
    ⟨.declarator, [.token .identifier, .node .arraySpecifier]⟩,
    ⟨.declarator, [.token .identifier, .token .equal, .node .initializer]⟩,
    ⟨.declarator, [.token .identifier, .node .arraySpecifier, .token .equal, .node .initializer]⟩,
    ⟨.fullySpecifiedType, [.node .typeSpecifier]⟩,
    ⟨.fullySpecifiedType, [.node .typeQualifier, .node .typeSpecifier]⟩ ]

/-- Qualifiers. -/
def qualifierProductions : List (Spelling TokenKind Nonterminal) :=
  [ ⟨.typeQualifier, [.node .singleTypeQualifier]⟩,
    ⟨.typeQualifier, [.node .typeQualifier, .node .singleTypeQualifier]⟩,
    ⟨.singleTypeQualifier, [.node .storageQualifier]⟩,
    ⟨.singleTypeQualifier, [.node .layoutQualifier]⟩,
    ⟨.singleTypeQualifier, [.node .interpolationQualifier]⟩,
    ⟨.singleTypeQualifier, [.token .invariant]⟩,
    ⟨.singleTypeQualifier, [.node .precisionQualifier]⟩,
    ⟨.storageQualifier, [.token .const]⟩,
    ⟨.storageQualifier, [.token .attribute]⟩,
    ⟨.storageQualifier, [.token .varying]⟩,
    ⟨.storageQualifier, [.token .centroid, .token .varying]⟩,
    ⟨.storageQualifier, [.token .in_]⟩,
    ⟨.storageQualifier, [.token .out]⟩,
    ⟨.storageQualifier, [.token .centroid, .token .in_]⟩,
    ⟨.storageQualifier, [.token .centroid, .token .out]⟩,
    ⟨.storageQualifier, [.token .uniform]⟩,
    ⟨.layoutQualifier, [.token .layout, .token .parenLeft, .node .layoutIdList, .token .parenRight]⟩,
    ⟨.layoutIdList, [.node .layoutId]⟩,
    ⟨.layoutIdList, [.node .layoutIdList, .token .comma, .node .layoutId]⟩,
    ⟨.layoutId, [.token .identifier]⟩,
    ⟨.layoutId, [.token .identifier, .token .equal, .token .intConstant]⟩,
    ⟨.interpolationQualifier, [.token .smooth]⟩,
    ⟨.interpolationQualifier, [.token .flat]⟩,
    ⟨.interpolationQualifier, [.token .noPerspective]⟩,
    ⟨.precisionQualifier, [.token .highP]⟩,
    ⟨.precisionQualifier, [.token .mediumP]⟩,
    ⟨.precisionQualifier, [.token .lowP]⟩ ]

/-- Types and structures. -/
def typeProductions : List (Spelling TokenKind Nonterminal) :=
  [ ⟨.typeSpecifier, [.node .typeSpecifierNonarray]⟩,
    ⟨.typeSpecifier, [.node .typeSpecifierNonarray, .node .arraySpecifier]⟩,
    ⟨.typeSpecifierNonarray, [.token .void]⟩,
    ⟨.typeSpecifierNonarray, [.token .nativeType]⟩,
    ⟨.typeSpecifierNonarray, [.node .structSpecifier]⟩,
    ⟨.typeSpecifierNonarray, [.token .identifier]⟩,
    ⟨.structSpecifier, [.token .struct, .token .identifier, .token .braceLeft, .node .structDeclarationList,
      .token .braceRight]⟩,
    ⟨.structSpecifier, [.token .struct, .token .braceLeft, .node .structDeclarationList, .token .braceRight]⟩,
    ⟨.structDeclarationList, [.node .structDeclaration]⟩,
    ⟨.structDeclarationList, [.node .structDeclarationList, .node .structDeclaration]⟩,
    ⟨.structDeclaration, [.node .leadingAnnotations, .node .fullySpecifiedType, .node .structDeclaratorList,
      .token .semicolon, .node .trailingAnnotations]⟩,
    ⟨.structDeclaratorList, [.node .structDeclarator]⟩,
    ⟨.structDeclaratorList, [.node .structDeclaratorList, .token .comma, .node .structDeclarator]⟩,
    ⟨.structDeclarator, [.token .identifier]⟩,
    ⟨.structDeclarator, [.token .identifier, .node .arraySpecifier]⟩ ]

/-- Lists of tokens in which brackets are matched. -/
def tokenProductions : List (Spelling TokenKind Nonterminal) :=
  [ ⟨.arraySpecifier, [.token .bracketLeft, .node .nestedList, .token .bracketRight]⟩,
    ⟨.arraySpecifier, [.node .arraySpecifier, .token .bracketLeft, .node .nestedList, .token .bracketRight]⟩,
    ⟨.initializer, [.node .initItem]⟩,
    ⟨.initializer, [.node .initializer, .node .initItem]⟩,
    ⟨.initItem, [.token .any]⟩,
    ⟨.initItem, [.token .parenLeft, .node .nestedList, .token .parenRight]⟩,
    ⟨.initItem, [.token .braceLeft, .node .nestedList, .token .braceRight]⟩,
    ⟨.initItem, [.token .bracketLeft, .node .nestedList, .token .bracketRight]⟩,
    ⟨.nestedList, []⟩,
    ⟨.nestedList, [.node .nestedList, .node .nestedItem]⟩,
    ⟨.nestedItem, [.node .initItem]⟩,
    ⟨.nestedItem, [.token .comma]⟩,
    ⟨.nestedItem, [.token .semicolon]⟩,
    ⟨.compoundBody, [.token .braceLeft, .node .nestedList, .token .braceRight]⟩ ]

/-- All productions, in the order of the rules. -/
def productions : List (Spelling TokenKind Nonterminal) :=
  unitProductions ++ declarationProductions ++ functionProductions ++ variableProductions ++ qualifierProductions ++
    typeProductions ++ tokenProductions

/-- The alphabet of declarations. -/
def alphabet : Alphabet TokenKind Nonterminal where
  kinds := TokenKind.all
  terminal kind :=
    { name := kind.name, id := kind.id, wild := kind.isWild, role := if kind = .any then .wildcard else .common }
  heads := Nonterminal.all
  nonterminal := Nonterminal.name
  rank := Nonterminal.ctorIdx
  start := .start
  root := .translationUnit
  productions := productions

/-- **The productions are the rules.** -/
theorem rules_spelled : rules.map (fun r => (r.head, Text.words r.body)) =
    productions.map fun p => (p.head.name, p.body.map alphabet.name) := by
  simp only [rules, unitRules, declarationRules, functionRules, variableRules, qualifierRules, typeRules, tokenRules,
    productions, unitProductions, declarationProductions, functionProductions, variableProductions, qualifierProductions,
    typeProductions, tokenProductions, List.cons_append, List.nil_append, List.map_cons, List.map_nil, List.cons.injEq,
    Prod.mk.injEq, Alphabet.name, alphabet, Nonterminal.name, TokenKind.name, true_and, and_true]
  and_intros <;> exact Text.words_ofList _

theorem alphabet_covers : alphabet.Covers language where
  mem_kinds kind := by cases kind <;> decide
  mem_heads head := by cases head <;> decide
  terminals := rfl
  rules := rules_spelled
  ids := by decide +kernel
  roles := by decide +kernel
  wildcards := by decide +kernel
  names := by decide +kernel
  ranks := by decide +kernel
  empty := by decide +kernel
  startName := rfl
  startRank := rfl
  startBody := by decide +kernel
  start_not_mem := by decide +kernel
  different := by decide +kernel
  defined := by decide +kernel

/-- The tables of the alphabet have no conflicts and parse in few moves. -/
def tameness : alphabet.outline.Tame := ⟨3, 200, 60, by decide +kernel⟩

theorem admits_iff {kind : TokenKind} (hkind : kind ≠ .any) {token : Token} :
    alphabet.Admits kind token ↔ token.symbol = kind.id := by
  simp [Alphabet.Admits, alphabet, hkind]

/-! ## Sorts -/

/-- The node of a nonterminal has the sort of the nonterminal. -/
@[simp]
def Sorted : Nonterminal → List Token → Node → Prop
  | .start, _, node | .translationUnit, _, node => ∃ declarations, node = .unit declarations
  | .externalDeclaration, _, node => ∃ declaration, node = .external declaration
  | .leadingAnnotations, _, node | .trailingAnnotations, _, node => ∃ comments, node = .comments comments
  | .declaration, _, node => ∃ declaration, node = .declaration declaration
  | .functionPrototype, _, node => ∃ prototype, node = .prototype prototype
  | .parameterList, _, node => ∃ parameters, node = .parameters parameters
  | .parameterDeclaration, _, node => ∃ parameter, node = .parameter parameter
  | .parameterQualifiers, _, node => ∃ qualifiers, node = .parameterQualifiers qualifiers
  | .parameterQualifier, _, node => ∃ qualifier, node = .parameterQualifier qualifier
  | .initDeclaratorList, _, node | .singleDeclaration, _, node => ∃ list, node = .variableList list
  | .declarator, _, node => ∃ declarator, node = .declarator declarator
  | .fullySpecifiedType, _, node => ∃ type, node = .fullType type
  | .typeQualifier, _, node => ∃ qualifier, node = .typeQualifier qualifier
  | .singleTypeQualifier, _, node => ∃ qualifier, node = .qualifier qualifier
  | .storageQualifier, _, node => ∃ storage, node = .storage storage
  | .layoutQualifier, _, node | .layoutIdList, _, node => ∃ ids, node = .layoutIds ids
  | .layoutId, _, node => ∃ id, node = .layoutId id
  | .interpolationQualifier, _, node => ∃ interpolation, node = .interpolation interpolation
  | .precisionQualifier, _, node => ∃ precision, node = .precision precision
  | .typeSpecifier, _, node => ∃ type, node = .typeSpecifier type
  | .typeSpecifierNonarray, _, node | .structSpecifier, _, node => ∃ name, node = .typeName name
  | .structDeclarationList, _, node => ∃ members, node = .members members
  | .structDeclaration, _, node => ∃ member, node = .member member
  | .structDeclaratorList, _, node => ∃ declarators, node = .memberDeclarators declarators
  | .structDeclarator, _, node => ∃ declarator, node = .memberDeclarator declarator
  | .arraySpecifier, _, node => ∃ array, node = .array array
  | .compoundBody, _, node | .initializer, _, node | .initItem, _, node | .nestedList, _, node | .nestedItem, _, node =>
    ∃ tokens, node = .tokens tokens

theorem integerOf_cases (token : Token) :
    (∃ i, integerOf token = .ok i) ∨ ∃ e, integerOf token = .error e ∧ Misread token e := by
  rw [integerOf]
  split
  · exact .inl ⟨_, rfl⟩
  · exact .inr ⟨_, rfl, .integer⟩

theorem unitRules_fit : List.Forall₂ (alphabet.Fits (fun _ => True) Sorted Misread) unitRules unitProductions := by
  simp only [unitRules, unitProductions, List.forall₂_cons, List.forall₂_nil_left_iff, and_true, Alphabet.Fits,
    Alphabet.forall_fills_node, Alphabet.forall_fills_token, Alphabet.forall_fills_nil, Sorted, forall_exists_index]
  and_intros
  all_goals
    intros
    subst_vars
    exact .inl ⟨_, rfl, _, rfl⟩

theorem declarationRules_fit : List.Forall₂ (alphabet.Fits (fun _ => True) Sorted Misread) declarationRules declarationProductions := by
  simp only [declarationRules, declarationProductions, List.forall₂_cons, List.forall₂_nil_left_iff, and_true, Alphabet.Fits,
    Alphabet.forall_fills_node, Alphabet.forall_fills_token, Alphabet.forall_fills_nil, Sorted, forall_exists_index]
  and_intros
  all_goals
    intros
    subst_vars
    exact .inl ⟨_, rfl, _, rfl⟩

theorem functionRules_fit : List.Forall₂ (alphabet.Fits (fun _ => True) Sorted Misread) functionRules functionProductions := by
  simp only [functionRules, functionProductions, List.forall₂_cons, List.forall₂_nil_left_iff, and_true, Alphabet.Fits,
    Alphabet.forall_fills_node, Alphabet.forall_fills_token, Alphabet.forall_fills_nil, Sorted, forall_exists_index]
  and_intros
  all_goals
    intros
    subst_vars
    exact .inl ⟨_, rfl, _, rfl⟩

theorem variableRules_fit : List.Forall₂ (alphabet.Fits (fun _ => True) Sorted Misread) variableRules variableProductions := by
  simp only [variableRules, variableProductions, List.forall₂_cons, List.forall₂_nil_left_iff, and_true, Alphabet.Fits,
    Alphabet.forall_fills_node, Alphabet.forall_fills_token, Alphabet.forall_fills_nil, Sorted, forall_exists_index]
  and_intros
  all_goals
    intros
    subst_vars
    exact .inl ⟨_, rfl, _, rfl⟩

theorem qualifierRules_fit : List.Forall₂ (alphabet.Fits (fun _ => True) Sorted Misread) qualifierRules qualifierProductions := by
  simp only [qualifierRules, qualifierProductions, List.forall₂_cons, List.forall₂_nil_left_iff, and_true, Alphabet.Fits,
    Alphabet.forall_fills_node, Alphabet.forall_fills_token, Alphabet.forall_fills_nil, Sorted, forall_exists_index]
  and_intros
  -- the number of a layout may be misread
  on_goal 21 =>
    intro _ _ _ _ _ _ token _ _
    exact answers_map (integerOf_cases token) (by simp) fun i => ⟨_, rfl⟩
  all_goals
    intros
    subst_vars
    exact .inl ⟨_, rfl, _, rfl⟩

theorem typeRules_fit : List.Forall₂ (alphabet.Fits (fun _ => True) Sorted Misread) typeRules typeProductions := by
  simp only [typeRules, typeProductions, List.forall₂_cons, List.forall₂_nil_left_iff, and_true, Alphabet.Fits,
    Alphabet.forall_fills_node, Alphabet.forall_fills_token, Alphabet.forall_fills_nil, Sorted, forall_exists_index]
  and_intros
  all_goals
    intros
    subst_vars
    exact .inl ⟨_, rfl, _, rfl⟩

theorem tokenRules_fit : List.Forall₂ (alphabet.Fits (fun _ => True) Sorted Misread) tokenRules tokenProductions := by
  simp only [tokenRules, tokenProductions, List.forall₂_cons, List.forall₂_nil_left_iff, and_true, Alphabet.Fits,
    Alphabet.forall_fills_node, Alphabet.forall_fills_token, Alphabet.forall_fills_nil, Sorted, forall_exists_index]
  and_intros
  all_goals
    intros
    subst_vars
    exact .inl ⟨_, rfl, _, rfl⟩

/-- **Every rule fits its production.** -/
theorem rules_fit : List.Forall₂ (alphabet.Fits (fun _ => True) Sorted Misread) rules productions :=
  List.rel_append (List.rel_append (List.rel_append (List.rel_append (List.rel_append (List.rel_append unitRules_fit
    declarationRules_fit) functionRules_fit) variableRules_fit) qualifierRules_fit) typeRules_fit) tokenRules_fit

end ShaderFront.Shader
