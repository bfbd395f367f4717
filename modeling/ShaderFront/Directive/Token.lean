import ShaderFront.Lex.Numeral
import ShaderFront.Parse.Engine
import ShaderFront.Text.Blank
import ShaderFront.Text.Split

/-!
# Tokens of directives

The preprocessor reads a source line by line. A line whose first character other than white space is `#`,
outside block comments, is a directive; with a backslash at its end it goes on with the next line. Directives
are cut into tokens and end with a newline token. The lines between them are one text token.

Main content:

* `TokenKind`, with the number and the name of each kind as a terminal;
* `Directive.tokens`, the tokens of a source;
* `Directive.expressionTokens`, the tokens of a single expression.
-/

namespace ShaderFront.Directive

/-- The kinds of tokens, in the order of their numbers. -/
inductive TokenKind where
  | hash
  | define
  | undef
  | if_
  | ifdef
  | ifndef
  | elif
  | else_
  | endif
  | error
  | pragma
  | extension
  | version
  | line
  | include_
  | defined
  | intConstant
  | floatConstant
  | string
  | identifier
  | parenLeft
  | parenRight
  | comma
  | logicalOr
  | logicalAnd
  | bitOr
  | bitXor
  | bitAnd
  | equal
  | notEqual
  | less
  | greater
  | lessEqual
  | greaterEqual
  | shiftLeft
  | shiftRight
  | plus
  | minus
  | star
  | slash
  | percent
  | not
  | complement
  /-- The end of a directive. -/
  | newline
  /-- A run of lines without directives. -/
  | text
  /-- The `(` right after the name of a `#define`, which gives the macro parameters. -/
  | macroParen
  /-- Begins the tokens of a single expression. -/
  | expressionStart
  /-- Stands in for any token of a macro body or of a `#pragma`; no token has this kind. -/
  | any
  /-- A character that is part of no other token. -/
  | other
deriving DecidableEq, Repr, Inhabited

namespace TokenKind

/-- All kinds, in the order of their numbers. -/
def all : List TokenKind :=
  [.hash, .define, .undef, .if_, .ifdef, .ifndef, .elif, .else_, .endif, .error, .pragma, .extension, .version, .line,
   .include_, .defined, .intConstant, .floatConstant, .string, .identifier, .parenLeft, .parenRight, .comma, .logicalOr,
   .logicalAnd, .bitOr, .bitXor, .bitAnd, .equal, .notEqual, .less, .greater, .lessEqual, .greaterEqual, .shiftLeft,
   .shiftRight, .plus, .minus, .star, .slash, .percent, .not, .complement, .newline, .text, .macroParen,
   .expressionStart, .any, .other]

/-- The number of a kind as a terminal. Number 0 is left to the grammar. -/
def id (kind : TokenKind) : SymbolId := kind.ctorIdx + 1

/-- The kind with a number. -/
def ofId? (id : SymbolId) : Option TokenKind := all.find? (·.id = id)

/-- The name of a kind in grammars and messages. -/
def name : TokenKind → String
  | .hash => "#"
  | .define => "#define"
  | .undef => "#undef"
  | .if_ => "#if"
  | .ifdef => "#ifdef"
  | .ifndef => "#ifndef"
  | .elif => "#elif"
  | .else_ => "#else"
  | .endif => "#endif"
  | .error => "#error"
  | .pragma => "#pragma"
  | .extension => "#extension"
  | .version => "#version"
  | .line => "#line"
  | .include_ => "#include"
  | .defined => "defined"
  | .intConstant => "INTCONSTANT"
  | .floatConstant => "FLOATCONSTANT"
  | .string => "STRING"
  | .identifier => "IDENTIFIER"
  | .parenLeft => "("
  | .parenRight => ")"
  | .comma => ","
  | .logicalOr => "||"
  | .logicalAnd => "&&"
  | .bitOr => "|"
  | .bitXor => "^"
  | .bitAnd => "&"
  | .equal => "=="
  | .notEqual => "!="
  | .less => "<"
  | .greater => ">"
  | .lessEqual => "<="
  | .greaterEqual => ">="
  | .shiftLeft => "<<"
  | .shiftRight => ">>"
  | .plus => "+"
  | .minus => "-"
  | .star => "*"
  | .slash => "/"
  | .percent => "%"
  | .not => "!"
  | .complement => "~"
  | .newline => "newline"
  | .text => "text"
  | .macroParen => "macro-lparen"
  | .expressionStart => "expr-start"
  | .any => "token"
  | .other => "OTHER"

/-- Whether a token of this kind may stand where any token may. -/
def isWild : TokenKind → Bool
  | .newline | .text | .expressionStart => false
  | _ => true

end TokenKind

/-! ## Tokens inside a directive -/

/-- The words after `#`, except `if`. -/
def directiveWords : List (List Char × TokenKind) :=
  [("define".toList, .define), ("undef".toList, .undef), ("ifdef".toList, .ifdef), ("ifndef".toList, .ifndef),
   ("elif".toList, .elif), ("else".toList, .else_), ("endif".toList, .endif), ("error".toList, .error),
   ("pragma".toList, .pragma), ("extension".toList, .extension), ("version".toList, .version), ("line".toList, .line),
   ("include".toList, .include_)]

/-- The marks. -/
def marks : List (List Char × TokenKind) :=
  [TokenKind.parenLeft, .parenRight, .comma, .logicalOr, .logicalAnd, .bitOr, .bitXor, .bitAnd, .equal, .notEqual,
   .less, .greater, .lessEqual, .greaterEqual, .shiftLeft, .shiftRight, .plus, .minus, .star, .slash, .percent, .not,
   .complement].map fun kind => (kind.name.toList, kind)

/-- Whether a character is skipped between tokens. A line break is not. -/
def isGap (c : Char) : Bool := c = ' ' || c = '\t' || c = '\x0c' || c = '\x0b' || c = '\r'

/-- Cuts off a `#` with the directive word after it, which needs no boundary at its end. Blanks after a `#`
belong to it even if no word follows; an `if` that goes on with `d` or `n` but is neither `ifdef` nor `ifndef`
belongs to it too, and is no directive. -/
def cutHash (rest : List Char) : Cut TokenKind :=
  let blanks := runLength (fun c => c = ' ' || c = '\t') rest
  let word := rest.drop blanks
  match longestLiteral directiveWords word with
  | some (kind, length) => ⟨some kind, blanks + length⟩
  | none =>
    match word with
    | 'i' :: 'f' :: 'd' :: _ => ⟨some .hash, blanks + 2⟩
    | 'i' :: 'f' :: 'n' :: _ => ⟨some .hash, blanks + 2⟩
    | 'i' :: 'f' :: _ => ⟨some .if_, blanks + 2⟩
    | _ => ⟨some .hash, blanks⟩

/-- Cuts off a string whose opening quote is behind. A string that is not closed on its line is no string. -/
def cutString (rest : List Char) : Cut TokenKind :=
  let inner := runLength (fun c => c ≠ '"' && c ≠ '\n') rest
  match rest.drop inner with
  | '"' :: _ => ⟨some .string, inner + 1⟩
  | _ => ⟨some .other, inner⟩

/-- The number of characters after a backslash that continues the line. -/
def continuationLength : List Char → Nat
  | '\n' :: _ => 1
  | '\r' :: '\n' :: _ => 2
  | _ => 0

/-- Cuts off a word, a mark, or a single character. -/
def cutPlain (c : Char) (rest : List Char) : Cut TokenKind :=
  if isWordStart c then
    let more := runLength isWordChar rest
    ⟨some (if c :: rest.take more = "defined".toList then .defined else .identifier), more⟩
  else
    match longestLiteral marks (c :: rest) with
    | some (kind, length) => ⟨some kind, length - 1⟩
    | none => ⟨some .other, 0⟩

/-- Cuts off the next piece of a directive. -/
def cut (c : Char) (rest : List Char) : Cut TokenKind :=
  if isGap c then ⟨none, runLength isGap rest⟩
  else if c = '\\' && continuationLength rest ≠ 0 then ⟨none, continuationLength rest⟩
  else if c = '#' then cutHash rest
  else if c = '"' then cutString rest
  else
    match commentLength? (c :: rest) with
    | some length => ⟨none, length - 1⟩
    | none =>
      match Numeral.read? .shader (c :: rest) with
      | some n => ⟨some (if n.isFloat then .floatConstant else .intConstant), n.length - 1⟩
      | none => cutPlain c rest

/-- The two tokens before the next one, and where the last of them ends. -/
structure Context where
  last : Option TokenKind := none
  beforeLast : Option TokenKind := none
  lastEnd : Nat := 0

/-- Turns pieces into tokens. A `(` that touches the name of a `#define` is a parenthesis of its own kind. -/
def classify (context : Context) : List (Lexeme TokenKind) → List Token
  | [] => []
  | l :: rest =>
    let opensParameters :=
      l.kind = .parenLeft && context.last = some .identifier && context.beforeLast = some .define &&
        l.span.start = context.lastEnd
    let kind := if opensParameters then .macroParen else l.kind
    ⟨kind.id, l.text, l.span⟩ :: classify ⟨some kind, context.last, l.span.stop⟩ rest

/-- The tokens of a directive, or of an expression, that begins at a byte offset. -/
def piecesTokens (offset : Nat) (cs : List Char) : List Token :=
  classify {} ((scan cut offset cs).filterMap Piece.lexeme?)

/-- The tokens of a single expression. -/
def expressionTokens (text : String) : List Token :=
  ⟨TokenKind.expressionStart.id, "", .emptyAt 0⟩ :: piecesTokens 0 text.toList

/-! ## Lines -/

/-- Whether a block comment is open at the end of a text, given whether one is open at its start. -/
def endsInComment : Bool → List Char → Bool
  | inside, [] => inside
  | true, '*' :: '/' :: rest => endsInComment false rest
  | true, _ :: rest => endsInComment true rest
  | false, '/' :: '*' :: rest => endsInComment true rest
  | false, '/' :: '/' :: _ => false
  | false, _ :: rest => endsInComment false rest

/-- Whether a line is a directive if it begins outside comments. -/
def isDirective (line : List Char) : Bool := (Text.trimLeft line).head? = some '#'

/-- Whether a directive goes on with the next line: it ends in a line break, and in a backslash before its line
breaks. -/
def continues (directive : List Char) : Bool :=
  let back := directive.reverse
  back.head? = some '\n' && (back.dropWhile fun c => c = '\n' || c = '\r').head? = some '\\'

/-- A directive with the lines it goes on with, and the lines after it. -/
def joinContinued (directive : List Char) : List (List Char) → List Char × List (List Char)
  | [] => (directive, [])
  | line :: rest => if continues directive then joinContinued (directive ++ line) rest else (directive, line :: rest)

theorem length_joinContinued_le (directive : List Char) (lines : List (List Char)) :
    (joinContinued directive lines).2.length ≤ lines.length := by
  induction lines generalizing directive with
  | nil => simp [joinContinued]
  | cons line rest ih =>
    rw [joinContinued]
    split
    · exact Nat.le_succ_of_le (ih _)
    · exact Nat.le_refl _

/-- A directive without the line break that ends it. -/
def withoutLineBreak (directive : List Char) : List Char :=
  match directive.reverse with
  | '\n' :: '\r' :: rest => rest.reverse
  | '\n' :: rest => rest.reverse
  | '\r' :: rest => rest.reverse
  | _ => directive

/-- The tokens of a directive that begins at a byte offset, with the newline that ends it. -/
def directiveTokens (offset : Nat) (directive : List Char) : List Token :=
  let content := withoutLineBreak directive
  piecesTokens offset content ++
    [⟨TokenKind.newline.id, "\n", ⟨offset + byteLength content, offset + byteLength directive⟩⟩]

/-- The token of a run of lines, last one first, that ends at a byte offset; an empty run has none. -/
def textTokens (stop : Nat) (run : List (List Char)) : List Token :=
  let chars := run.reverse.flatten
  if run.isEmpty then [] else [⟨TokenKind.text.id, String.ofList chars, ⟨stop - byteLength chars, stop⟩⟩]

/-- The tokens of lines that begin at a byte offset. `run` holds the lines since the last directive, last one first, and
`inside` says whether a block comment is open. -/
def lineTokens (inside : Bool) (offset : Nat) (run : List (List Char)) : List (List Char) → List Token
  | [] => textTokens offset run
  | line :: rest =>
    if !inside && isDirective line then
      let joined := joinContinued line rest
      textTokens offset run ++ directiveTokens offset joined.1 ++
        lineTokens false (offset + byteLength joined.1) [] joined.2
    else lineTokens (endsInComment inside line) (offset + byteLength line) (line :: run) rest
termination_by lines => lines.length
decreasing_by
  · exact Nat.lt_succ_of_le (length_joinContinued_le line rest)
  · simp

/-- The tokens of a source. -/
def tokens (source : String) : List Token := lineTokens false 0 [] (Text.lines source.toList)

end ShaderFront.Directive
