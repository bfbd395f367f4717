/-!
# Integer literals

Reading integers from their text. A literal of the shading language is decimal, octal after a leading `0`, or
hexadecimal after `0x`, and may end in `u`; its value is a signed word of 64 bits, and a value that does not fit
is no literal.

Main content: `Integer.read?`, `Integer.readRadix?`, `Integer.readUnsigned?`.
-/

namespace ShaderFront.Integer

/-- The value of a digit below 16. -/
def digit? (c : Char) : Option Nat :=
  if '0' ≤ c ∧ c ≤ '9' then some (c.toNat - '0'.toNat)
  else if 'a' ≤ c ∧ c ≤ 'f' then some (c.toNat - 'a'.toNat + 10)
  else if 'A' ≤ c ∧ c ≤ 'F' then some (c.toNat - 'A'.toNat + 10)
  else none

/-- Reads on with digits of a radix after the value `acc`. -/
def readDigitsFrom (radix acc : Nat) : List Char → Option Nat
  | [] => some acc
  | c :: rest =>
    match digit? c with
    | some d => if d < radix then readDigitsFrom radix (acc * radix + d) rest else none
    | none => none

/-- Reads one or more digits of a radix. -/
def readDigits? (radix : Nat) (cs : List Char) : Option Nat :=
  if cs.isEmpty then none else readDigitsFrom radix 0 cs

/-- A signed word, if the integer fits into one. -/
def word? (i : Int) : Option Int64 :=
  if Int64.minValue.toInt ≤ i ∧ i ≤ Int64.maxValue.toInt then some (Int64.ofInt i) else none

/-- Reads an optional sign and digits of a radix. -/
def readRadix? (radix : Nat) : List Char → Option Int64
  | '+' :: rest => (readDigits? radix rest).bind fun n => word? n
  | '-' :: rest => (readDigits? radix rest).bind fun n => word? (-n)
  | cs => (readDigits? radix cs).bind fun n => word? n

/-- Reads an optional plus sign and decimal digits, for values of at most 32 bits. -/
def readUnsigned? (cs : List Char) : Option Nat :=
  let digits :=
    match cs with
    | '+' :: rest => rest
    | cs => cs
  (readDigits? 10 digits).filter (· < UInt32.size)

/-- The characters without the suffix of an unsigned literal, however often it is there. -/
def dropSuffix (cs : List Char) : List Char :=
  (cs.reverse.dropWhile fun c => c = 'u' || c = 'U').reverse

/-- Reads an integer literal. -/
def readChars? (cs : List Char) : Option Int64 :=
  match dropSuffix cs with
  | '0' :: 'x' :: hex => readRadix? 16 hex
  | '0' :: 'X' :: hex => readRadix? 16 hex
  | '0' :: c :: octal => readRadix? 8 (c :: octal)
  | decimal => readRadix? 10 decimal

/-- Reads an integer literal. -/
def read? (text : String) : Option Int64 := readChars? text.toList

/-- The decimal digits of a word, with a minus sign if it is negative. -/
def text (i : Int64) : String := toString i.toInt

end ShaderFront.Integer
