import ShaderFront.Parse.Language
import ShaderFront.Shader.Declaration

/-!
# The language of declarations

The rules of the declaration level of a shader, each with the node it builds, and the parser they give. Inside
initializers, array sizes and function bodies any token is accepted as long as brackets match; the terminal
`ANY` is the wildcard that stands for it there.

Main content:

* `Shader.language`, `Shader.grammar`, `Shader.table`;
* `Shader.parse`.
-/

namespace ShaderFront.Shader

/-- The node of a nonterminal. -/
inductive Node where
  | unit (declarations : List External)
  | external (declaration : External)
  | comments (comments : List TagComment)
  | declaration (declaration : Declaration)
  | prototype (prototype : Prototype)
  | parameters (parameters : List Parameter)
  | parameter (parameter : Parameter)
  | parameterQualifiers (qualifiers : List ParameterQualifier)
  | parameterQualifier (qualifier : ParameterQualifier)
  | variableList (list : VariableList)
  | declarator (declarator : Declarator)
  | fullType (type : FullType)
  | typeQualifier (qualifier : TypeQualifier)
  | qualifier (qualifier : Qualifier)
  | storage (storage : Storage)
  | layoutIds (ids : List LayoutId)
  | layoutId (id : LayoutId)
  | interpolation (interpolation : Interpolation)
  | precision (precision : Precision)
  | typeSpecifier (type : TypeSpecifier)
  | typeName (name : TypeName)
  | members (members : List Member)
  | member (member : Member)
  | memberDeclarators (declarators : List MemberDeclarator)
  | memberDeclarator (declarator : MemberDeclarator)
  | array (array : ArraySpecifier)
  | tokens (tokens : List Token)
deriving Repr

/-- The value of an integer literal. -/
def integerOf (token : Token) : Except ParseError Int64 :=
  match Integer.read? token.text with
  | some i => .ok i
  | none => .error (.semantic s!"invalid integer `{token.text}`")

/-! ## Rules -/

/-- Units, and the comments around declarations. -/
def unitRules : List (Rule Node) :=
  [ ⟨"$START$", "translation-unit", fun
      | [.node _ n] => .ok n
      | _ => unfit⟩,
    ⟨"translation-unit", "", fun
      | [] => .ok (.unit [])
      | _ => unfit⟩,
    ⟨"translation-unit", "translation-unit external-declaration", fun
      | [.node _ (.unit ds), .node _ (.external d)] => .ok (.unit (ds ++ [d]))
      | _ => unfit⟩,
    ⟨"external-declaration", "leading-annotations declaration trailing-annotations", fun
      | [.node _ (.comments ls), .node _ (.declaration d), .node _ (.comments ts)] =>
        .ok (.external (.declaration ls d ts))
      | _ => unfit⟩,
    ⟨"external-declaration", "leading-annotations function-prototype compound-body", fun
      | [.node _ (.comments ls), .node _ (.prototype p), .node _ (.tokens ts)] =>
        .ok (.external (.function ls p ⟨ts⟩))
      | _ => unfit⟩,
    ⟨"leading-annotations", "", fun
      | [] => .ok (.comments [])
      | _ => unfit⟩,
    ⟨"leading-annotations", "leading-annotations LEADING-ANNOTATION", fun
      | [.node _ (.comments cs), .token t] => .ok (.comments (cs ++ [⟨t.text, t.span⟩]))
      | _ => unfit⟩,
    ⟨"trailing-annotations", "", fun
      | [] => .ok (.comments [])
      | _ => unfit⟩,
    ⟨"trailing-annotations", "trailing-annotations TRAILING-ANNOTATION", fun
      | [.node _ (.comments cs), .token t] => .ok (.comments (cs ++ [⟨t.text, t.span⟩]))
      | _ => unfit⟩ ]

/-- Declarations. -/
def declarationRules : List (Rule Node) :=
  [ ⟨"declaration", "function-prototype ;", fun
      | [.node _ (.prototype p), _] => .ok (.declaration (.prototype p))
      | _ => unfit⟩,
    ⟨"declaration", "init-declarator-list ;", fun
      | [.node _ (.variableList vs), _] => .ok (.declaration (.variableList vs))
      | _ => unfit⟩,
    ⟨"declaration", "precision precision-qualifier type-specifier ;", fun
      | [_, .node _ (.precision p), .node _ (.typeSpecifier t), _] => .ok (.declaration (.precision p t))
      | _ => unfit⟩,
    ⟨"declaration", "type-qualifier IDENTIFIER { struct-declaration-list } ;", fun
      | [.node _ (.typeQualifier q), .token t, _, .node _ (.members ms), _, _] =>
        .ok (.declaration (.block ⟨q, t.text, ms, none, none⟩))
      | _ => unfit⟩,
    ⟨"declaration", "type-qualifier IDENTIFIER { struct-declaration-list } IDENTIFIER ;", fun
      | [.node _ (.typeQualifier q), .token t, _, .node _ (.members ms), _, .token i, _] =>
        .ok (.declaration (.block ⟨q, t.text, ms, some i.text, none⟩))
      | _ => unfit⟩,
    ⟨"declaration", "type-qualifier IDENTIFIER { struct-declaration-list } IDENTIFIER array-specifier ;", fun
      | [.node _ (.typeQualifier q), .token t, _, .node _ (.members ms), _, .token i, .node _ (.array a), _] =>
        .ok (.declaration (.block ⟨q, t.text, ms, some i.text, some a⟩))
      | _ => unfit⟩,
    ⟨"declaration", "type-qualifier ;", fun
      | [.node _ (.typeQualifier q), _] => .ok (.declaration (.qualifier q))
      | _ => unfit⟩ ]

/-- Heads of functions and their parameters. -/
def functionRules : List (Rule Node) :=
  [ ⟨"function-prototype", "fully-specified-type IDENTIFIER ( )", fun
      | [.node _ (.fullType t), .token n, _, _] => .ok (.prototype ⟨t, n.text, []⟩)
      | _ => unfit⟩,
    ⟨"function-prototype", "fully-specified-type IDENTIFIER ( parameter-list )", fun
      | [.node _ (.fullType t), .token n, _, .node _ (.parameters ps), _] => .ok (.prototype ⟨t, n.text, ps⟩)
      | _ => unfit⟩,
    ⟨"parameter-list", "parameter-declaration", fun
      | [.node _ (.parameter p)] => .ok (.parameters [p])
      | _ => unfit⟩,
    ⟨"parameter-list", "parameter-list , parameter-declaration", fun
      | [.node _ (.parameters ps), _, .node _ (.parameter p)] => .ok (.parameters (ps ++ [p]))
      | _ => unfit⟩,
    ⟨"parameter-declaration", "parameter-qualifiers type-specifier", fun
      | [.node _ (.parameterQualifiers qs), .node _ (.typeSpecifier t)] =>
        .ok (.parameter ⟨qs, t, none, none⟩)
      | _ => unfit⟩,
    ⟨"parameter-declaration", "parameter-qualifiers type-specifier IDENTIFIER", fun
      | [.node _ (.parameterQualifiers qs), .node _ (.typeSpecifier t), .token n] =>
        .ok (.parameter ⟨qs, t, some n.text, none⟩)
      | _ => unfit⟩,
    ⟨"parameter-declaration", "parameter-qualifiers type-specifier IDENTIFIER array-specifier", fun
      | [.node _ (.parameterQualifiers qs), .node _ (.typeSpecifier t), .token n, .node _ (.array a)] =>
        .ok (.parameter ⟨qs, t, some n.text, some a⟩)
      | _ => unfit⟩,
    ⟨"parameter-qualifiers", "", fun
      | [] => .ok (.parameterQualifiers [])
      | _ => unfit⟩,
    ⟨"parameter-qualifiers", "parameter-qualifiers parameter-qualifier", fun
      | [.node _ (.parameterQualifiers qs), .node _ (.parameterQualifier q)] =>
        .ok (.parameterQualifiers (qs ++ [q]))
      | _ => unfit⟩,
    ⟨"parameter-qualifier", "const", fun
      | [_] => .ok (.parameterQualifier .const)
      | _ => unfit⟩,
    ⟨"parameter-qualifier", "in", fun
      | [_] => .ok (.parameterQualifier .in_)
      | _ => unfit⟩,
    ⟨"parameter-qualifier", "out", fun
      | [_] => .ok (.parameterQualifier .out)
      | _ => unfit⟩,
    ⟨"parameter-qualifier", "inout", fun
      | [_] => .ok (.parameterQualifier .inOut)
      | _ => unfit⟩,
    ⟨"parameter-qualifier", "precision-qualifier", fun
      | [.node _ (.precision p)] => .ok (.parameterQualifier (.precision p))
      | _ => unfit⟩ ]

/-- Variables and the types in front of them. -/
def variableRules : List (Rule Node) :=
  [ ⟨"init-declarator-list", "single-declaration", fun
      | [.node _ (.variableList vs)] => .ok (.variableList vs)
      | _ => unfit⟩,
    ⟨"init-declarator-list", "init-declarator-list , declarator", fun
      | [.node _ (.variableList vs), _, .node _ (.declarator d)] =>
        .ok (.variableList { vs with declarators := vs.declarators ++ [d] })
      | _ => unfit⟩,
    ⟨"single-declaration", "fully-specified-type", fun
      | [.node _ (.fullType t)] => .ok (.variableList ⟨t, []⟩)
      | _ => unfit⟩,
    ⟨"single-declaration", "fully-specified-type declarator", fun
      | [.node _ (.fullType t), .node _ (.declarator d)] => .ok (.variableList ⟨t, [d]⟩)
      | _ => unfit⟩,
    ⟨"declarator", "IDENTIFIER", fun
      | [.token n] => .ok (.declarator ⟨n.text, n.span, none, none⟩)
      | _ => unfit⟩,
    ⟨"declarator", "IDENTIFIER array-specifier", fun
      | [.token n, .node _ (.array a)] => .ok (.declarator ⟨n.text, n.span, some a, none⟩)
      | _ => unfit⟩,
    ⟨"declarator", "IDENTIFIER = initializer", fun
      | [.token n, _, .node _ (.tokens ts)] => .ok (.declarator ⟨n.text, n.span, none, some ⟨ts⟩⟩)
      | _ => unfit⟩,
    ⟨"declarator", "IDENTIFIER array-specifier = initializer", fun
      | [.token n, .node _ (.array a), _, .node _ (.tokens ts)] =>
        .ok (.declarator ⟨n.text, n.span, some a, some ⟨ts⟩⟩)
      | _ => unfit⟩,
    ⟨"fully-specified-type", "type-specifier", fun
      | [.node _ (.typeSpecifier t)] => .ok (.fullType ⟨none, t⟩)
      | _ => unfit⟩,
    ⟨"fully-specified-type", "type-qualifier type-specifier", fun
      | [.node _ (.typeQualifier q), .node _ (.typeSpecifier t)] => .ok (.fullType ⟨some q, t⟩)
      | _ => unfit⟩ ]

/-- Qualifiers. -/
def qualifierRules : List (Rule Node) :=
  [ ⟨"type-qualifier", "single-type-qualifier", fun
      | [.node _ (.qualifier q)] => .ok (.typeQualifier ⟨[q]⟩)
      | _ => unfit⟩,
    ⟨"type-qualifier", "type-qualifier single-type-qualifier", fun
      | [.node _ (.typeQualifier qs), .node _ (.qualifier q)] => .ok (.typeQualifier ⟨qs.qualifiers ++ [q]⟩)
      | _ => unfit⟩,
    ⟨"single-type-qualifier", "storage-qualifier", fun
      | [.node _ (.storage s)] => .ok (.qualifier (.storage s))
      | _ => unfit⟩,
    ⟨"single-type-qualifier", "layout-qualifier", fun
      | [.node _ (.layoutIds ids)] => .ok (.qualifier (.layout ids))
      | _ => unfit⟩,
    ⟨"single-type-qualifier", "interpolation-qualifier", fun
      | [.node _ (.interpolation i)] => .ok (.qualifier (.interpolation i))
      | _ => unfit⟩,
    ⟨"single-type-qualifier", "invariant", fun
      | [_] => .ok (.qualifier .invariant)
      | _ => unfit⟩,
    ⟨"single-type-qualifier", "precision-qualifier", fun
      | [.node _ (.precision p)] => .ok (.qualifier (.precision p))
      | _ => unfit⟩,
    ⟨"storage-qualifier", "const", fun
      | [_] => .ok (.storage .const)
      | _ => unfit⟩,
    ⟨"storage-qualifier", "attribute", fun
      | [_] => .ok (.storage .attribute)
      | _ => unfit⟩,
    ⟨"storage-qualifier", "varying", fun
      | [_] => .ok (.storage .varying)
      | _ => unfit⟩,
    ⟨"storage-qualifier", "centroid varying", fun
      | [_, _] => .ok (.storage .centroidVarying)
      | _ => unfit⟩,
    ⟨"storage-qualifier", "in", fun
      | [_] => .ok (.storage .in_)
      | _ => unfit⟩,
    ⟨"storage-qualifier", "out", fun
      | [_] => .ok (.storage .out)
      | _ => unfit⟩,
    ⟨"storage-qualifier", "centroid in", fun
      | [_, _] => .ok (.storage .centroidIn)
      | _ => unfit⟩,
    ⟨"storage-qualifier", "centroid out", fun
      | [_, _] => .ok (.storage .centroidOut)
      | _ => unfit⟩,
    ⟨"storage-qualifier", "uniform", fun
      | [_] => .ok (.storage .uniform)
      | _ => unfit⟩,
    ⟨"layout-qualifier", "layout ( layout-id-list )", fun
      | [_, _, .node _ (.layoutIds ids), _] => .ok (.layoutIds ids)
      | _ => unfit⟩,
    ⟨"layout-id-list", "layout-id", fun
      | [.node _ (.layoutId i)] => .ok (.layoutIds [i])
      | _ => unfit⟩,
    ⟨"layout-id-list", "layout-id-list , layout-id", fun
      | [.node _ (.layoutIds ids), _, .node _ (.layoutId i)] => .ok (.layoutIds (ids ++ [i]))
      | _ => unfit⟩,
    ⟨"layout-id", "IDENTIFIER", fun
      | [.token n] => .ok (.layoutId ⟨n.text, none⟩)
      | _ => unfit⟩,
    ⟨"layout-id", "IDENTIFIER = INTCONSTANT", fun
      | [.token n, _, .token v] => (integerOf v).map fun i => .layoutId ⟨n.text, some i⟩
      | _ => unfit⟩,
    ⟨"interpolation-qualifier", "smooth", fun
      | [_] => .ok (.interpolation .smooth)
      | _ => unfit⟩,
    ⟨"interpolation-qualifier", "flat", fun
      | [_] => .ok (.interpolation .flat)
      | _ => unfit⟩,
    ⟨"interpolation-qualifier", "noperspective", fun
      | [_] => .ok (.interpolation .noPerspective)
      | _ => unfit⟩,
    ⟨"precision-qualifier", "highp", fun
      | [_] => .ok (.precision .high)
      | _ => unfit⟩,
    ⟨"precision-qualifier", "mediump", fun
      | [_] => .ok (.precision .medium)
      | _ => unfit⟩,
    ⟨"precision-qualifier", "lowp", fun
      | [_] => .ok (.precision .low)
      | _ => unfit⟩ ]

/-- Types and structures. -/
def typeRules : List (Rule Node) :=
  [ ⟨"type-specifier", "type-specifier-nonarray", fun
      | [.node _ (.typeName n)] => .ok (.typeSpecifier ⟨n, none⟩)
      | _ => unfit⟩,
    ⟨"type-specifier", "type-specifier-nonarray array-specifier", fun
      | [.node _ (.typeName n), .node _ (.array a)] => .ok (.typeSpecifier ⟨n, some a⟩)
      | _ => unfit⟩,
    ⟨"type-specifier-nonarray", "void", fun
      | [_] => .ok (.typeName .void)
      | _ => unfit⟩,
    ⟨"type-specifier-nonarray", "NATIVE-TYPE", fun
      | [.token n] => .ok (.typeName (.native n.text))
      | _ => unfit⟩,
    ⟨"type-specifier-nonarray", "struct-specifier", fun
      | [.node _ (.typeName n)] => .ok (.typeName n)
      | _ => unfit⟩,
    ⟨"type-specifier-nonarray", "IDENTIFIER", fun
      | [.token n] => .ok (.typeName (.named n.text))
      | _ => unfit⟩,
    ⟨"struct-specifier", "struct IDENTIFIER { struct-declaration-list }", fun
      | [_, .token n, _, .node _ (.members ms), _] => .ok (.typeName (.struct (some n.text) ms))
      | _ => unfit⟩,
    ⟨"struct-specifier", "struct { struct-declaration-list }", fun
      | [_, _, .node _ (.members ms), _] => .ok (.typeName (.struct none ms))
      | _ => unfit⟩,
    ⟨"struct-declaration-list", "struct-declaration", fun
      | [.node _ (.member m)] => .ok (.members [m])
      | _ => unfit⟩,
    ⟨"struct-declaration-list", "struct-declaration-list struct-declaration", fun
      | [.node _ (.members ms), .node _ (.member m)] => .ok (.members (ms ++ [m]))
      | _ => unfit⟩,
    ⟨"struct-declaration", "leading-annotations fully-specified-type struct-declarator-list ; trailing-annotations", fun
      | [.node _ (.comments ls), .node _ (.fullType t), .node _ (.memberDeclarators ds), _, .node _ (.comments ts)] =>
        .ok (.member ⟨ls, t, ds, ts⟩)
      | _ => unfit⟩,
    ⟨"struct-declarator-list", "struct-declarator", fun
      | [.node _ (.memberDeclarator d)] => .ok (.memberDeclarators [d])
      | _ => unfit⟩,
    ⟨"struct-declarator-list", "struct-declarator-list , struct-declarator", fun
      | [.node _ (.memberDeclarators ds), _, .node _ (.memberDeclarator d)] =>
        .ok (.memberDeclarators (ds ++ [d]))
      | _ => unfit⟩,
    ⟨"struct-declarator", "IDENTIFIER", fun
      | [.token n] => .ok (.memberDeclarator ⟨n.text, none⟩)
      | _ => unfit⟩,
    ⟨"struct-declarator", "IDENTIFIER array-specifier", fun
      | [.token n, .node _ (.array a)] => .ok (.memberDeclarator ⟨n.text, some a⟩)
      | _ => unfit⟩ ]

/-- Lists of tokens in which brackets are matched. -/
def tokenRules : List (Rule Node) :=
  [ ⟨"array-specifier", "[ nested-list ]", fun
      | [_, .node _ (.tokens ts), _] => .ok (.array ⟨[⟨ts⟩]⟩)
      | _ => unfit⟩,
    ⟨"array-specifier", "array-specifier [ nested-list ]", fun
      | [.node _ (.array a), _, .node _ (.tokens ts), _] => .ok (.array ⟨a.dimensions ++ [⟨ts⟩]⟩)
      | _ => unfit⟩,
    ⟨"initializer", "init-item", fun
      | [.node _ (.tokens ts)] => .ok (.tokens ts)
      | _ => unfit⟩,
    ⟨"initializer", "initializer init-item", fun
      | [.node _ (.tokens ts), .node _ (.tokens us)] => .ok (.tokens (ts ++ us))
      | _ => unfit⟩,
    ⟨"init-item", "ANY", fun
      | [.token t] => .ok (.tokens [t])
      | _ => unfit⟩,
    ⟨"init-item", "( nested-list )", fun
      | [.token o, .node _ (.tokens ts), .token c] => .ok (.tokens (o :: ts ++ [c]))
      | _ => unfit⟩,
    ⟨"init-item", "{ nested-list }", fun
      | [.token o, .node _ (.tokens ts), .token c] => .ok (.tokens (o :: ts ++ [c]))
      | _ => unfit⟩,
    ⟨"init-item", "[ nested-list ]", fun
      | [.token o, .node _ (.tokens ts), .token c] => .ok (.tokens (o :: ts ++ [c]))
      | _ => unfit⟩,
    ⟨"nested-list", "", fun
      | [] => .ok (.tokens [])
      | _ => unfit⟩,
    ⟨"nested-list", "nested-list nested-item", fun
      | [.node _ (.tokens ts), .node _ (.tokens us)] => .ok (.tokens (ts ++ us))
      | _ => unfit⟩,
    ⟨"nested-item", "init-item", fun
      | [.node _ (.tokens ts)] => .ok (.tokens ts)
      | _ => unfit⟩,
    ⟨"nested-item", ",", fun
      | [.token t] => .ok (.tokens [t])
      | _ => unfit⟩,
    ⟨"nested-item", ";", fun
      | [.token t] => .ok (.tokens [t])
      | _ => unfit⟩,
    ⟨"compound-body", "{ nested-list }", fun
      | [_, .node _ (.tokens ts), _] => .ok (.tokens ts)
      | _ => unfit⟩ ]

/-- All rules. The number of a production is the position of its rule. -/
def rules : List (Rule Node) :=
  unitRules ++ declarationRules ++ functionRules ++ variableRules ++ qualifierRules ++ typeRules ++ tokenRules

/-- The terminals. -/
def terminals : List Terminal :=
  TokenKind.all.map fun kind =>
    { name := kind.name, id := kind.id, wild := kind.isWild, role := if kind = .any then .wildcard else .common }

/-- The language of declarations. -/
def language : Language Node := { terminals, rules }

/-- The grammar of declarations. -/
def grammar : Except GrammarError Grammar := language.grammar

/-- The parser table of declarations. -/
def table : Except GrammarError Table := language.table

/-! ## Parsing -/

/-- The declarations of the tree of a source. -/
def unitOf : Except LanguageError Node → Except LanguageError CompilationUnit
  | .ok (.unit declarations) => .ok ⟨declarations⟩
  | .ok _ => .error (.parse (.semantic "the parse tree is not a list of declarations"))
  | .error e => .error e

/-- Parses tokens. -/
def parseTokens (tokens : List Token) : Except LanguageError CompilationUnit := unitOf (language.parse table tokens)

/-- Parses the source of a shader. -/
def parse (source : String) : Except LanguageError CompilationUnit := parseTokens (tokens source)

end ShaderFront.Shader
