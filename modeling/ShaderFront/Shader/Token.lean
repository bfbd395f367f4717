import ShaderFront.Lex.Numeral
import ShaderFront.Parse.Engine

/-!
# Tokens of shader declarations

The tokens the declaration level of a shader is made of, and their lexer. Comments that begin with `//$` or
`/*$` are annotations and kept as tokens; all other comments are skipped. An annotation is trailing if it
follows a `;` on the same line, and leading otherwise.

Main content:

* `TokenKind`, with the number and the name of each kind as a terminal;
* `Shader.tokens`, the tokens of a source.
-/

namespace ShaderFront.Shader

/-- The kinds of tokens, in the order of their numbers. -/
inductive TokenKind where
  /-- An annotation comment before a declaration. -/
  | leadingTags
  /-- An annotation comment after the `;` of a declaration, on the same line. -/
  | trailingTags
  | semicolon
  | comma
  | parenLeft
  | parenRight
  | braceLeft
  | braceRight
  | bracketLeft
  | bracketRight
  | equal
  | attribute
  | const
  | uniform
  | varying
  | layout
  | centroid
  | flat
  | smooth
  | noPerspective
  | in_
  | out
  | inOut
  | invariant
  | highP
  | mediumP
  | lowP
  | precision
  | struct
  | void
  | nativeType
  | keyword
  | operator
  | intConstant
  | floatConstant
  | identifier
  /-- Stands in for any token inside initializers and function bodies; no token has this kind. -/
  | any
  /-- A character that begins no token. -/
  | invalid
deriving DecidableEq, Repr, Inhabited

namespace TokenKind

/-- All kinds, in the order of their numbers. -/
def all : List TokenKind :=
  [.leadingTags, .trailingTags, .semicolon, .comma, .parenLeft, .parenRight, .braceLeft, .braceRight,
   .bracketLeft, .bracketRight, .equal, .attribute, .const, .uniform, .varying, .layout, .centroid, .flat, .smooth,
   .noPerspective, .in_, .out, .inOut, .invariant, .highP, .mediumP, .lowP, .precision, .struct, .void, .nativeType,
   .keyword, .operator, .intConstant, .floatConstant, .identifier, .any, .invalid]

/-- The number of a kind as a terminal. Numbers 0 and 1 are left to the grammar. -/
def id (kind : TokenKind) : SymbolId := kind.ctorIdx + 2

/-- The kind with a number. -/
def ofId? (id : SymbolId) : Option TokenKind := all.find? (·.id = id)

/-- The name of a kind in grammars and messages. -/
def name : TokenKind → String
  | .leadingTags => "LEADING-ANNOTATION"
  | .trailingTags => "TRAILING-ANNOTATION"
  | .semicolon => ";"
  | .comma => ","
  | .parenLeft => "("
  | .parenRight => ")"
  | .braceLeft => .ofList ['{']
  | .braceRight => .ofList ['}']
  | .bracketLeft => "["
  | .bracketRight => "]"
  | .equal => "="
  | .attribute => "attribute"
  | .const => "const"
  | .uniform => "uniform"
  | .varying => "varying"
  | .layout => "layout"
  | .centroid => "centroid"
  | .flat => "flat"
  | .smooth => "smooth"
  | .noPerspective => "noperspective"
  | .in_ => "in"
  | .out => "out"
  | .inOut => "inout"
  | .invariant => "invariant"
  | .highP => "highp"
  | .mediumP => "mediump"
  | .lowP => "lowp"
  | .precision => "precision"
  | .struct => "struct"
  | .void => "void"
  | .nativeType => "NATIVE-TYPE"
  | .keyword => "KEYWORD"
  | .operator => "OPERATOR"
  | .intConstant => "INTCONSTANT"
  | .floatConstant => "FLOATCONSTANT"
  | .identifier => "IDENTIFIER"
  | .any => "ANY"
  | .invalid => "INVALID"

/-- Whether a token of this kind may stand where any token may. Delimiters of token lists may not, nor may `invalid`. -/
def isWild : TokenKind → Bool
  | .comma | .semicolon | .parenLeft | .parenRight | .braceLeft | .braceRight | .bracketLeft | .bracketRight => false
  | .invalid => false
  | _ => true

end TokenKind

/-! ## Words -/

/-- The words that are kinds of their own. -/
def reservedWords : List TokenKind :=
  [.attribute, .const, .uniform, .varying, .layout, .centroid, .flat, .smooth, .noPerspective, .in_, .out, .inOut,
   .invariant, .highP, .mediumP, .lowP, .precision, .struct, .void]

/-- The words of statements, which occur only inside function bodies and initializers. -/
def statementWords : List String :=
  ["break", "continue", "do", "for", "while", "switch", "case", "default", "if", "else", "discard", "return", "true",
   "false"]

/-- Whether a character is a dimension of a vector or a matrix. -/
def isDimension (c : Char) : Bool := c = '2' || c = '3' || c = '4'

/-- Whether some characters are one of the given texts, followed by what `rest` accepts. -/
def afterAny (parts : List String) (rest : List Char → Bool) (cs : List Char) : Bool :=
  parts.any fun part => part.toList.isPrefixOf cs && rest (cs.drop part.length)

/-- The rest of a sampler's name: its dimension, and whether it is an array or has a depth comparison. -/
def isSamplerSuffix : List Char → Bool :=
  afterAny ["1D", "2D", "3D", "Cube", "2DRect", "Buffer", "2DMS"] fun rest =>
    ["", "Array", "Shadow", "ArrayShadow"].any (·.toList = rest)

/-- Whether a word names a built-in type. -/
def isNativeType (word : List Char) : Bool :=
  ["bool", "int", "uint", "float"].any (·.toList = word) ||
  afterAny ["vec", "bvec", "ivec", "uvec"] (fun rest => rest.length = 1 && rest.all isDimension) word ||
  afterAny ["mat"] (fun
    | [n] => isDimension n
    | [n, 'x', m] => isDimension n && isDimension m
    | _ => false) word ||
  afterAny ["sampler", "isampler", "usampler"] isSamplerSuffix word

/-- The kind of a word. -/
def wordKind (word : List Char) : TokenKind :=
  match reservedWords.find? (·.name.toList = word) with
  | some kind => kind
  | none =>
    if statementWords.any (·.toList = word) then .keyword
    else if isNativeType word then .nativeType
    else .identifier

/-! ## Marks -/

/-- The operators. -/
def operators : List String :=
  [".", "+", "-", "*", "/", "%", "<", ">", "<=", ">=", "==", "!=", "&&", "||", "^^", "!", "~", "&", "|", "^", "<<",
   ">>", "++", "--", "+=", "-=", "*=", "/=", "%=", "<<=", ">>=", "&=", "^=", "|=", "?", ":"]

/-- The marks that are kinds of their own. -/
def delimiters : List TokenKind :=
  [.semicolon, .comma, .parenLeft, .parenRight, .braceLeft, .braceRight, .bracketLeft, .bracketRight, .equal]

/-- All marks with their kinds. -/
def marks : List (List Char × TokenKind) :=
  delimiters.map (fun kind => (kind.name.toList, kind)) ++ operators.map fun text => (text.toList, .operator)

/-! ## The lexer -/

/-- Whether a character is skipped between tokens. -/
def isGap (c : Char) : Bool :=
  c = ' ' || c = '\t' || c = '\r' || c = '\n' || c = '\x0c' || c = '\x0b'

/-- Whether a text begins with an annotation comment. -/
def isTagComment : List Char → Bool
  | '/' :: '/' :: '$' :: _ => true
  | '/' :: '*' :: '$' :: _ => true
  | _ => false

/-- The length of the comment at the front of a text. The `*` and the `$` that open an annotation do not close it. -/
def commentSpan? : List Char → Option Nat
  | '/' :: '*' :: '$' :: rest => some (closeLength rest + 3)
  | cs => commentLength? cs

/-- Cuts off the next piece of a source. -/
def cut (c : Char) (rest : List Char) : Cut TokenKind :=
  let cs := c :: rest
  if isGap c then ⟨none, runLength isGap rest⟩
  else
    match commentSpan? cs with
    | some length => ⟨if isTagComment cs then some .leadingTags else none, length - 1⟩
    | none =>
      match Numeral.read? .shader cs with
      | some n => ⟨some (if n.isFloat then .floatConstant else .intConstant), n.length - 1⟩
      | none =>
        if isWordStart c then
          let more := runLength isWordChar rest
          ⟨some (wordKind (c :: rest.take more)), more⟩
        else
          match longestLiteral marks cs with
          | some (kind, length) => ⟨some kind, length - 1⟩
          | none => ⟨some .invalid, 0⟩

/-- Turns pieces into tokens. `sameLine` says that the last token was a `;` and no line has ended since: then an
annotation is trailing. -/
def classify (sameLine : Bool) : List (Piece TokenKind) → List Token
  | [] => []
  | piece :: rest =>
    match piece.kind with
    | none => classify (sameLine && !piece.chars.contains '\n') rest
    | some kind =>
      let kind := if kind = .leadingTags && sameLine then .trailingTags else kind
      ⟨kind.id, String.ofList piece.chars, piece.span⟩ :: classify (kind = .semicolon) rest

/-- The tokens of a source. -/
def tokens (source : String) : List Token := classify false (scan cut 0 source.toList)

end ShaderFront.Shader
