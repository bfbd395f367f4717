import ShaderFront.Text.Span

/-!
# Scanning

A scanner cuts a text into pieces, from left to right. Its rule looks at the rest of the text and says how far the next
piece reaches and which kind of token it is, if it is one. A piece has at least one character, so the scan ends, and the
texts of the pieces together are the text.

Main content:

* `Cut`, `Piece`, `scan`;
* `longestLiteral`, the longest of a list of literals a text begins with.
-/

namespace ShaderFront

/-- How a rule cuts off the next piece: its kind, or none if it is skipped, and its length after the first character. -/
structure Cut (κ : Type) where
  kind : Option κ
  more : Nat

/-- A part of a text; a piece without a kind is skipped. -/
structure Piece (κ : Type) where
  kind : Option κ
  chars : List Char
  span : Span

/-- Cuts a text that begins at a byte offset into pieces. -/
def scan {κ : Type} (rule : Char → List Char → Cut κ) (pos : Nat) : List Char → List (Piece κ)
  | [] => []
  | c :: rest =>
    let cut := rule c rest
    let chars := c :: rest.take cut.more
    let stop := pos + byteLength chars
    ⟨cut.kind, chars, ⟨pos, stop⟩⟩ :: scan rule stop (rest.drop cut.more)
termination_by cs => cs.length
decreasing_by simp only [List.length_cons, List.length_drop]; omega

/-- The texts of the pieces together are the text. -/
theorem flatMap_chars_scan {κ : Type} (rule : Char → List Char → Cut κ) (pos : Nat) (cs : List Char) :
    (scan rule pos cs).flatMap (·.chars) = cs := by
  fun_induction scan rule pos cs with
  | case1 => rfl
  | case2 pos c rest cut chars stop ih => simp [ih, chars]

/-- A token of a lexer, before its kind is turned into a terminal. -/
structure Lexeme (κ : Type) where
  kind : κ
  text : String
  span : Span

/-- The piece as a token, unless it is skipped. -/
def Piece.lexeme? {κ : Type} (p : Piece κ) : Option (Lexeme κ) :=
  p.kind.map fun kind => ⟨kind, String.ofList p.chars, p.span⟩

/-! ## Rules for pieces -/

/-- The number of characters at the front that satisfy a test. -/
def runLength (p : Char → Bool) : List Char → Nat
  | [] => 0
  | c :: rest => if p c then runLength p rest + 1 else 0

/-- Of the literals a text begins with, the longest one, with its value and length; of two equally long ones the
first. -/
def longestLiteral {κ : Type} (literals : List (List Char × κ)) (cs : List Char) : Option (κ × Nat) :=
  literals.foldl
    (fun best (literal, kind) =>
      if literal.isPrefixOf cs && (best.map (·.2)).getD 0 < literal.length then some (kind, literal.length) else best)
    none

/-- The number of characters up to and including `*/`, or all of them if there is none. -/
def closeLength : List Char → Nat
  | [] => 0
  | '*' :: '/' :: _ => 2
  | _ :: rest => closeLength rest + 1

/-- Whether a text begins a block comment. -/
def isBlockComment : List Char → Bool
  | '/' :: '*' :: _ => true
  | _ => false

/-- The length of the comment at the front of a text: to the end of the line, or through `*/`, or all the rest. -/
def commentLength? : List Char → Option Nat
  | '/' :: '/' :: rest => some (runLength (· ≠ '\n') rest + 2)
  | '/' :: '*' :: rest => some (closeLength rest + 2)
  | _ => none

/-! ## Words -/

/-- Whether a character begins an identifier. -/
def isWordStart (c : Char) : Bool := c.isAlpha || c = '_'

/-- Whether a character goes on with an identifier. -/
def isWordChar (c : Char) : Bool := c.isAlphanum || c = '_'

/-- Whether a character is a hexadecimal digit. -/
def isHexDigit (c : Char) : Bool := c.isDigit || ('a' ≤ c && c ≤ 'f') || ('A' ≤ c && c ≤ 'F')

end ShaderFront
