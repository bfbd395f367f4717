import ShaderFront.Text.Binary64
import ShaderFront.Text.Integer

/-!
# Decimal numerals

Reads a decimal numeral, with an optional sign, an optional fraction and an optional exponent, as the nearest binary
floating-point number.
-/

namespace ShaderFront.Decimal

/-- The digits at the front, and the rest. -/
def splitDigits (cs : List Char) : List Char × List Char := (cs.takeWhile Char.isDigit, cs.dropWhile Char.isDigit)

/-- The value of decimal digits. -/
def valueOf (digits : List Char) : Nat := (Integer.readDigitsFrom 10 0 digits).getD 0

/-- Reads an exponent that ends the numeral; no exponent is one of zero. -/
def exponent? : List Char → Option Int
  | [] => some 0
  | c :: rest =>
    if c = 'e' || c = 'E' then
      match rest with
      | '+' :: digits => (Integer.readDigits? 10 digits).map fun n => (n : Int)
      | '-' :: digits => (Integer.readDigits? 10 digits).map fun n => -(n : Int)
      | digits => (Integer.readDigits? 10 digits).map fun n => (n : Int)
    else none

/-- The digits after a point at the front, and the rest. -/
def splitFraction : List Char → List Char × List Char
  | '.' :: rest => splitDigits rest
  | cs => ([], cs)

/-- Reads a numeral without its sign. -/
def readMagnitude? (negative : Bool) (cs : List Char) : Option Binary64 :=
  let (whole, rest) := splitDigits cs
  let (fraction, rest) := splitFraction rest
  if whole.isEmpty && fraction.isEmpty then none
  else
    (exponent? rest).map fun e => Binary64.ofDecimal negative (valueOf (whole ++ fraction)) (e - fraction.length)

/-- Reads a numeral. -/
def read? : List Char → Option Binary64
  | '+' :: rest => readMagnitude? false rest
  | '-' :: rest => readMagnitude? true rest
  | cs => readMagnitude? false cs

end ShaderFront.Decimal
