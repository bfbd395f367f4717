import ShaderFront.Directive.Basic
import ShaderFront.Directive.Token
import ShaderFront.Parse.Language

/-!
# The language of directives

The rules of sources with directives and of condition expressions, each with the node it builds, and the two
parsers they give. A single expression is told from a source by the token it begins with. The terminal `token`
is the wildcard that stands for any token of a macro body.

Main content:

* `Directive.language`, `Directive.grammar`, `Directive.table`;
* `Directive.parse`, `Directive.parseExpression`.
-/

namespace ShaderFront.Directive

/-- The node of a nonterminal. -/
inductive Node where
  | file (particles : List Particle)
  | particles (particles : List Particle)
  | particle (particle : Particle)
  | tokens (tokens : List Token)
  | formals (names : List String)
  | branch (branch : Branch)
  | branches (branches : List Branch)
  /-- The branches after the first, and the body of `#else`. -/
  | alternatives (branches : List Branch) (otherwise : Option (List Particle))
  | condition (condition : Condition)
  | expression (expression : Expression)
  | arguments (expressions : List Expression)
  /-- `#else` and `#endif`, which carry nothing. -/
  | marker
deriving Repr

/-- Joins tokens, with one blank where the source has a gap between them. `last` is the end of the token before. -/
def joinTokensFrom (last : Nat) : List Token → String
  | [] => ""
  | t :: rest => (if last < t.span.start then " " else "") ++ t.text ++ joinTokensFrom t.span.stop rest

/-- Joins tokens, with one blank where the source has a gap between them. -/
def joinTokens : List Token → String
  | [] => ""
  | t :: rest => t.text ++ joinTokensFrom t.span.stop rest

/-- A text without the quotes at its ends. -/
def unquote (text : String) : String :=
  let inner := text.toList.dropWhile (· = '"')
  String.ofList (inner.reverse.dropWhile (· = '"')).reverse

/-- The value of an integer literal. -/
def integerOf (token : Token) : Except ParseError Int64 :=
  match Integer.read? token.text with
  | some i => .ok i
  | none => .error (.semantic s!"invalid integer `{token.text}`")

/-! ## Rules -/

/-- A rule that passes on the node of its only symbol. -/
def passRule (head body : String) : Rule Node :=
  ⟨head, body, fun
    | [.node _ n] => .ok n
    | _ => unfit⟩

/-- A rule of a binary operator. -/
def binaryRule (head body : String) (operator : BinaryOperator) : Rule Node :=
  ⟨head, body, fun
    | [.node _ (.expression l), _, .node _ (.expression r)] => .ok (.expression (.binary operator l r))
    | _ => unfit⟩

/-- A rule of a unary operator. -/
def unaryRule (head body : String) (operator : UnaryOperator) : Rule Node :=
  ⟨head, body, fun
    | [_, .node _ (.expression e)] => .ok (.expression (.unary operator e))
    | _ => unfit⟩

/-- Sources and single expressions. -/
def particleRules : List (Rule Node) :=
  [ passRule "$START$" "program",
    ⟨"program", "particle-list", fun
      | [.node _ (.particles ps)] => .ok (.file ps)
      | _ => unfit⟩,
    ⟨"program", "expr-start constant-expression", fun
      | [_, .node _ n] => .ok n
      | _ => unfit⟩,
    ⟨"particle-list", "", fun
      | [] => .ok (.particles [])
      | _ => unfit⟩,
    ⟨"particle-list", "particle-list particle", fun
      | [.node _ (.particles ps), .node _ (.particle p)] => .ok (.particles (ps ++ [p]))
      | _ => unfit⟩,
    ⟨"particle", "text", fun
      | [.token t] => .ok (.particle (.text t.text))
      | _ => unfit⟩,
    passRule "particle" "directive",
    passRule "directive" "def-directive",
    passRule "directive" "undef-directive",
    passRule "directive" "error-directive",
    passRule "directive" "extension-directive",
    passRule "directive" "include-directive",
    passRule "directive" "line-directive",
    passRule "directive" "null-directive",
    passRule "directive" "pragma-directive",
    passRule "directive" "version-directive",
    passRule "directive" "conditional-directive" ]

/-- Definitions of macros and lists of tokens. -/
def definitionRules : List (Rule Node) :=
  [ ⟨"def-directive", "#define IDENTIFIER newline", fun
      | [_, .token n, _] => .ok (.particle (.define ⟨n.text, none, ""⟩))
      | _ => unfit⟩,
    ⟨"def-directive", "#define IDENTIFIER token-list newline", fun
      | [_, .token n, .node _ (.tokens ts), _] => .ok (.particle (.define ⟨n.text, none, joinTokens ts⟩))
      | _ => unfit⟩,
    ⟨"def-directive", "#define IDENTIFIER macro-lparen ) newline", fun
      | [_, .token n, _, _, _] => .ok (.particle (.define ⟨n.text, some [], ""⟩))
      | _ => unfit⟩,
    ⟨"def-directive", "#define IDENTIFIER macro-lparen ) token-list newline", fun
      | [_, .token n, _, _, .node _ (.tokens ts), _] =>
        .ok (.particle (.define ⟨n.text, some [], joinTokens ts⟩))
      | _ => unfit⟩,
    ⟨"def-directive", "#define IDENTIFIER macro-lparen formals-list ) newline", fun
      | [_, .token n, _, .node _ (.formals ps), _, _] => .ok (.particle (.define ⟨n.text, some ps, ""⟩))
      | _ => unfit⟩,
    ⟨"def-directive", "#define IDENTIFIER macro-lparen formals-list ) token-list newline", fun
      | [_, .token n, _, .node _ (.formals ps), _, .node _ (.tokens ts), _] =>
        .ok (.particle (.define ⟨n.text, some ps, joinTokens ts⟩))
      | _ => unfit⟩,
    ⟨"token-list", "token", fun
      | [.token t] => .ok (.tokens [t])
      | _ => unfit⟩,
    ⟨"token-list", "token-list token", fun
      | [.node _ (.tokens ts), .token t] => .ok (.tokens (ts ++ [t]))
      | _ => unfit⟩,
    ⟨"formals-list", "IDENTIFIER", fun
      | [.token n] => .ok (.formals [n.text])
      | _ => unfit⟩,
    ⟨"formals-list", "formals-list , IDENTIFIER", fun
      | [.node _ (.formals ps), _, .token n] => .ok (.formals (ps ++ [n.text]))
      | _ => unfit⟩ ]

/-- Directives on one line. -/
def directiveRules : List (Rule Node) :=
  [ ⟨"error-directive", "#error newline", fun
      | [_, _] => .ok (.particle (.error ""))
      | _ => unfit⟩,
    ⟨"error-directive", "#error token-list newline", fun
      | [_, .node _ (.tokens ts), _] => .ok (.particle (.error (joinTokens ts)))
      | _ => unfit⟩,
    ⟨"extension-directive", "#extension newline", fun
      | [_, _] => .ok (.particle (.extension ""))
      | _ => unfit⟩,
    ⟨"extension-directive", "#extension token-list newline", fun
      | [_, .node _ (.tokens ts), _] => .ok (.particle (.extension (joinTokens ts)))
      | _ => unfit⟩,
    ⟨"include-directive", "#include STRING newline", fun
      | [_, .token t, _] => .ok (.particle (.include (unquote t.text) t.span))
      | _ => unfit⟩,
    ⟨"line-directive", "#line INTCONSTANT newline", fun
      | [_, .token t, _] => (integerOf t).map fun i => .particle (.line i none)
      | _ => unfit⟩,
    ⟨"line-directive", "#line INTCONSTANT STRING newline", fun
      | [_, .token t, .token s, _] => (integerOf t).map fun i => .particle (.line i (some (unquote s.text)))
      | _ => unfit⟩,
    ⟨"line-directive", "#line INTCONSTANT INTCONSTANT newline", fun
      | [_, .token t, .token s, _] => (integerOf t).map fun i => .particle (.line i (some (unquote s.text)))
      | _ => unfit⟩,
    ⟨"null-directive", "# newline", fun
      | [_, _] => .ok (.particle .null)
      | _ => unfit⟩,
    ⟨"pragma-directive", "#pragma newline", fun
      | [_, _] => .ok (.particle (.pragma ""))
      | _ => unfit⟩,
    ⟨"pragma-directive", "#pragma token-list newline", fun
      | [_, .node _ (.tokens ts), _] => .ok (.particle (.pragma (joinTokens ts)))
      | _ => unfit⟩,
    ⟨"undef-directive", "#undef IDENTIFIER newline", fun
      | [_, .token n, _] => .ok (.particle (.undef n.text))
      | _ => unfit⟩,
    ⟨"version-directive", "#version INTCONSTANT newline", fun
      | [_, .token t, _] => (integerOf t).map fun i => .particle (.version i none)
      | _ => unfit⟩,
    ⟨"version-directive", "#version INTCONSTANT IDENTIFIER newline", fun
      | [_, .token t, .token p, _] => (integerOf t).map fun i => .particle (.version i (some p.text))
      | _ => unfit⟩ ]

/-- Conditionals. -/
def conditionalRules : List (Rule Node) :=
  [ ⟨"conditional-directive", "if-part endif-directive", fun
      | [.node _ (.branch b), _] => .ok (.particle (.conditional [b] none))
      | _ => unfit⟩,
    ⟨"conditional-directive", "if-part else-part endif-directive", fun
      | [.node _ (.branch b), .node _ (.alternatives bs otherwise), _] =>
        .ok (.particle (.conditional (b :: bs) otherwise))
      | _ => unfit⟩,
    ⟨"if-part", "if-directive particle-list", fun
      | [.node _ (.condition c), .node _ (.particles ps)] => .ok (.branch ⟨c, ps⟩)
      | _ => unfit⟩,
    ⟨"if-part", "ifdef-directive particle-list", fun
      | [.node _ (.condition c), .node _ (.particles ps)] => .ok (.branch ⟨c, ps⟩)
      | _ => unfit⟩,
    ⟨"if-part", "ifndef-directive particle-list", fun
      | [.node _ (.condition c), .node _ (.particles ps)] => .ok (.branch ⟨c, ps⟩)
      | _ => unfit⟩,
    ⟨"elif-parts", "elif-part", fun
      | [.node _ (.branch b)] => .ok (.branches [b])
      | _ => unfit⟩,
    ⟨"elif-parts", "elif-parts elif-part", fun
      | [.node _ (.branches bs), .node _ (.branch b)] => .ok (.branches (bs ++ [b]))
      | _ => unfit⟩,
    ⟨"elif-part", "elif-directive particle-list", fun
      | [.node _ (.condition c), .node _ (.particles ps)] => .ok (.branch ⟨c, ps⟩)
      | _ => unfit⟩,
    ⟨"else-part", "elif-parts", fun
      | [.node _ (.branches bs)] => .ok (.alternatives bs none)
      | _ => unfit⟩,
    ⟨"else-part", "elif-parts else-directive particle-list", fun
      | [.node _ (.branches bs), _, .node _ (.particles ps)] => .ok (.alternatives bs (some ps))
      | _ => unfit⟩,
    ⟨"else-part", "else-directive particle-list", fun
      | [_, .node _ (.particles ps)] => .ok (.alternatives [] (some ps))
      | _ => unfit⟩,
    ⟨"if-directive", "#if constant-expression newline", fun
      | [_, .node _ (.expression e), _] => .ok (.condition (.holds e))
      | _ => unfit⟩,
    ⟨"ifdef-directive", "#ifdef IDENTIFIER newline", fun
      | [_, .token n, _] => .ok (.condition (.ifdef n.text))
      | _ => unfit⟩,
    ⟨"ifndef-directive", "#ifndef IDENTIFIER newline", fun
      | [_, .token n, _] => .ok (.condition (.ifndef n.text))
      | _ => unfit⟩,
    ⟨"else-directive", "#else newline", fun
      | [_, _] => .ok .marker
      | _ => unfit⟩,
    ⟨"elif-directive", "#elif constant-expression newline", fun
      | [_, .node _ (.expression e), _] => .ok (.condition (.holds e))
      | _ => unfit⟩,
    ⟨"endif-directive", "#endif newline", fun
      | [_, _] => .ok .marker
      | _ => unfit⟩ ]

/-- Macros in expressions. -/
def callRules : List (Rule Node) :=
  [ passRule "constant-expression" "logical-or-expression",
    ⟨"macro-evaluation", "IDENTIFIER", fun
      | [.token n] => .ok (.expression (.object n.text))
      | _ => unfit⟩,
    ⟨"macro-evaluation", "IDENTIFIER ( )", fun
      | [.token n, _, _] => .ok (.expression (.call n.text []))
      | _ => unfit⟩,
    ⟨"macro-evaluation", "IDENTIFIER ( parameter-list )", fun
      | [.token n, _, .node _ (.arguments es), _] => .ok (.expression (.call n.text es))
      | _ => unfit⟩,
    ⟨"parameter-list", "constant-expression", fun
      | [.node _ (.expression e)] => .ok (.arguments [e])
      | _ => unfit⟩,
    ⟨"parameter-list", "parameter-list , constant-expression", fun
      | [.node _ (.arguments es), _, .node _ (.expression e)] => .ok (.arguments (es ++ [e]))
      | _ => unfit⟩,
    ⟨"defined-operator", "defined ( IDENTIFIER )", fun
      | [_, _, .token n, _] => .ok (.expression (.defined n.text))
      | _ => unfit⟩,
    ⟨"defined-operator", "defined IDENTIFIER", fun
      | [_, .token n] => .ok (.expression (.defined n.text))
      | _ => unfit⟩ ]

/-- Operators, from the weakest to the strongest. -/
def operatorRules : List (Rule Node) :=
  [ passRule "logical-or-expression" "logical-and-expression",
    binaryRule "logical-or-expression" "logical-or-expression || logical-and-expression" .logicalOr,
    passRule "logical-and-expression" "inclusive-or-expression",
    binaryRule "logical-and-expression" "logical-and-expression && inclusive-or-expression" .logicalAnd,
    passRule "inclusive-or-expression" "exclusive-or-expression",
    binaryRule "inclusive-or-expression" "inclusive-or-expression | exclusive-or-expression" .bitOr,
    passRule "exclusive-or-expression" "and-expression",
    binaryRule "exclusive-or-expression" "exclusive-or-expression ^ and-expression" .bitXor,
    passRule "and-expression" "equality-expression",
    binaryRule "and-expression" "and-expression & equality-expression" .bitAnd,
    passRule "equality-expression" "relational-expression",
    binaryRule "equality-expression" "equality-expression == relational-expression" .equal,
    binaryRule "equality-expression" "equality-expression != relational-expression" .notEqual,
    passRule "relational-expression" "shift-expression",
    binaryRule "relational-expression" "relational-expression < shift-expression" .less,
    binaryRule "relational-expression" "relational-expression > shift-expression" .greater,
    binaryRule "relational-expression" "relational-expression <= shift-expression" .lessEqual,
    binaryRule "relational-expression" "relational-expression >= shift-expression" .greaterEqual,
    passRule "shift-expression" "additive-expression",
    binaryRule "shift-expression" "shift-expression << additive-expression" .shiftLeft,
    binaryRule "shift-expression" "shift-expression >> additive-expression" .shiftRight,
    passRule "additive-expression" "multiplicative-expression",
    binaryRule "additive-expression" "additive-expression + multiplicative-expression" .add,
    binaryRule "additive-expression" "additive-expression - multiplicative-expression" .subtract,
    passRule "multiplicative-expression" "unary-expression",
    binaryRule "multiplicative-expression" "multiplicative-expression * unary-expression" .multiply,
    binaryRule "multiplicative-expression" "multiplicative-expression / unary-expression" .divide,
    binaryRule "multiplicative-expression" "multiplicative-expression % unary-expression" .modulo,
    passRule "unary-expression" "primary-expression",
    unaryRule "unary-expression" "+ unary-expression" .plus,
    unaryRule "unary-expression" "- unary-expression" .minus,
    unaryRule "unary-expression" "! unary-expression" .not,
    unaryRule "unary-expression" "~ unary-expression" .complement,
    passRule "primary-expression" "defined-operator",
    passRule "primary-expression" "macro-evaluation",
    ⟨"primary-expression", "INTCONSTANT", fun
      | [.token t] => (integerOf t).map fun i => .expression (.int i)
      | _ => unfit⟩,
    ⟨"primary-expression", "( constant-expression )", fun
      | [_, .node _ n, _] => .ok n
      | _ => unfit⟩ ]

/-- All rules. The number of a production is the position of its rule. -/
def rules : List (Rule Node) :=
  particleRules ++ definitionRules ++ directiveRules ++ conditionalRules ++ callRules ++ operatorRules

/-- The terminals. -/
def terminals : List Terminal :=
  TokenKind.all.map fun kind =>
    { name := kind.name, id := kind.id, wild := kind.isWild, role := if kind = .any then .wildcard else .common }

/-- The language of directives. -/
def language : Language Node := { terminals, rules }

/-- The grammar of directives. -/
def grammar : Except GrammarError Grammar := language.grammar

/-- The parser table of directives. -/
def table : Except GrammarError Table := language.table

/-! ## Parsing -/

/-- The particles of the tree of a source. -/
def particlesOf : Except LanguageError Node → Except LanguageError (List Particle)
  | .ok (.file particles) => .ok particles
  | .ok _ => .error (.parse (.semantic "the parse tree is not a source"))
  | .error e => .error e

/-- Parses a source into runs of text and directives. -/
def parse (source : String) : Except LanguageError (List Particle) :=
  particlesOf (language.parse table (tokens source))

/-- The expression of the tree of a single expression. -/
def expressionOf : Except LanguageError Node → Except LanguageError Expression
  | .ok (.expression e) => .ok e
  | .ok _ => .error (.parse (.semantic "the parse tree is not an expression"))
  | .error e => .error e

/-- Parses a single expression, such as the body of a macro. -/
def parseExpression (text : String) : Except LanguageError Expression :=
  expressionOf (language.parse table (expressionTokens text))

end ShaderFront.Directive
