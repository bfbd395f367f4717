import ShaderFront.Lex.Numeral
import ShaderFront.Parse.Engine

/-!
# Tokens of annotations

The tokens of the text of an annotation, and their lexer. Numbers may have a sign. A quote that is not closed is
one invalid token to the end of the text.
-/

namespace ShaderFront.Tag

/-- The kinds of tokens, in the order of their numbers. -/
inductive TokenKind where
  | at
  | equal
  | bracketLeft
  | bracketRight
  | comma
  | true_
  | false_
  | intConstant
  | floatConstant
  | string
  | character
  | identifier
  | invalid
deriving DecidableEq, Repr, Inhabited

namespace TokenKind

/-- All kinds, in the order of their numbers. -/
def all : List TokenKind :=
  [.at, .equal, .bracketLeft, .bracketRight, .comma, .true_, .false_, .intConstant, .floatConstant, .string, .character,
   .identifier, .invalid]

/-- The number of a kind as a terminal. -/
def id (kind : TokenKind) : SymbolId := kind.ctorIdx

/-- The kind with a number. -/
def ofId? (id : SymbolId) : Option TokenKind := all.find? (·.id = id)

/-- The name of a kind in grammars and messages. -/
def name : TokenKind → String
  | .at => "@"
  | .equal => "="
  | .bracketLeft => "["
  | .bracketRight => "]"
  | .comma => ","
  | .true_ => "true"
  | .false_ => "false"
  | .intConstant => "INTCONSTANT"
  | .floatConstant => "FLOATCONSTANT"
  | .string => "STRING"
  | .character => "CHARACTER"
  | .identifier => "IDENTIFIER"
  | .invalid => "INVALID"

end TokenKind

/-- Whether a character is skipped between tokens. -/
def isGap (c : Char) : Bool := c = ' ' || c = '\t' || c = '\r' || c = '\n' || c = '\x0c'

/-- The marks. -/
def mark? : Char → Option TokenKind
  | '@' => some .at
  | '=' => some .equal
  | '[' => some .bracketLeft
  | ']' => some .bracketRight
  | ',' => some .comma
  | _ => none

/-- The kind of a word. -/
def wordKind (word : List Char) : TokenKind :=
  if word = "true".toList then .true_ else if word = "false".toList then .false_ else .identifier

/-- Cuts off a quoted text whose opening quote is behind. -/
def cutQuoted (quote : Char) (kind : TokenKind) (rest : List Char) : Cut TokenKind :=
  let inner := runLength (· ≠ quote) rest
  if inner < rest.length then ⟨some kind, inner + 1⟩ else ⟨some .invalid, inner⟩

/-- The numeral at the front of a text, with its sign. -/
def signedNumeral? (c : Char) (rest : List Char) : Option Numeral :=
  if c = '+' || c = '-' then (Numeral.read? .tag rest).map fun n => { n with length := n.length + 1 }
  else Numeral.read? .tag (c :: rest)

/-- Cuts off the next piece of an annotation. -/
def cut (c : Char) (rest : List Char) : Cut TokenKind :=
  if isGap c then ⟨none, runLength isGap rest⟩
  else if c = '"' then cutQuoted '"' .string rest
  else if c = '\'' then cutQuoted '\'' .character rest
  else
    match mark? c with
    | some kind => ⟨some kind, 0⟩
    | none =>
      match signedNumeral? c rest with
      | some n => ⟨some (if n.isFloat then .floatConstant else .intConstant), n.length - 1⟩
      | none =>
        if isWordStart c then
          let more := runLength isWordChar rest
          ⟨some (wordKind (c :: rest.take more)), more⟩
        else ⟨some .invalid, 0⟩

/-- The tokens of an annotation whose text begins at a byte offset. -/
def tokens (text : String) (offset : Nat) : List Token :=
  ((scan cut offset text.toList).filterMap Piece.lexeme?).map fun l => ⟨l.kind.id, l.text, l.span⟩

end ShaderFront.Tag
