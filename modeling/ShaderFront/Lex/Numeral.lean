import ShaderFront.Lex.Scan

/-!
# Numerals

Finds the numeral at the front of a text. Integers are decimal or hexadecimal; a numeral with a point or an
exponent is a floating-point one. What may follow an integer or a floating-point numeral as its suffix differs
between languages.
-/

namespace ShaderFront

/-- The suffixes of a language: their length at the front of a text. -/
structure NumeralStyle where
  integerSuffix : List Char → Nat
  floatSuffix : List Char → Nat

/-- A numeral at the front of a text. -/
structure Numeral where
  isFloat : Bool
  length : Nat

namespace Numeral

/-- The length of an exponent; an `e` without digits is none. -/
def exponentLength : List Char → Nat
  | c :: rest =>
    if c = 'e' || c = 'E' then
      match rest with
      | s :: digits =>
        if s = '+' || s = '-' then
          let n := runLength Char.isDigit digits
          if n = 0 then 0 else n + 2
        else
          let n := runLength Char.isDigit rest
          if n = 0 then 0 else n + 1
      | [] => 0
    else 0
  | [] => 0

/-- The suffix of an unsigned integer. -/
def unsignedSuffix : List Char → Nat
  | 'u' :: _ => 1
  | 'U' :: _ => 1
  | _ => 0

/-- The suffix of a number of single precision. -/
def singleSuffix : List Char → Nat
  | 'f' :: _ => 1
  | 'F' :: _ => 1
  | _ => 0

/-- The suffix of a number of single or double precision. -/
def precisionSuffix : List Char → Nat
  | 'l' :: 'f' :: _ => 2
  | 'L' :: 'F' :: _ => 2
  | cs => singleSuffix cs

/-- A floating-point numeral whose first `n` characters are behind. -/
def float (style : NumeralStyle) (n : Nat) (rest : List Char) : Numeral :=
  let exponent := exponentLength rest
  { isFloat := true, length := n + exponent + style.floatSuffix (rest.drop exponent) }

/-- An integer whose first `n` characters are behind. -/
def integer (style : NumeralStyle) (n : Nat) (rest : List Char) : Numeral :=
  { isFloat := false, length := n + style.integerSuffix rest }

/-- The length of a hexadecimal integer without its suffix. -/
def hexLength : List Char → Nat
  | '0' :: x :: rest =>
    if x = 'x' || x = 'X' then
      let n := runLength isHexDigit rest
      if n = 0 then 0 else n + 2
    else 0
  | _ => 0

/-- The numeral at the front of a text. -/
def read? (style : NumeralStyle) (cs : List Char) : Option Numeral :=
  let whole := runLength Char.isDigit cs
  let rest := cs.drop whole
  if whole = 0 then
    match rest with
    | '.' :: digits =>
      let n := runLength Char.isDigit digits
      if n = 0 then none else some (float style (n + 1) (digits.drop n))
    | _ => none
  else
    let hex := hexLength cs
    if hex ≠ 0 then some (integer style hex (cs.drop hex))
    else
      match rest with
      | '.' :: digits =>
        let n := runLength Char.isDigit digits
        some (float style (whole + n + 1) (digits.drop n))
      | _ => if exponentLength rest ≠ 0 then some (float style whole rest) else some (integer style whole rest)

end Numeral

/-- Integers may end in `u`, floating-point numbers in `f` or `lf`. -/
def NumeralStyle.shader : NumeralStyle := ⟨Numeral.unsignedSuffix, Numeral.precisionSuffix⟩

/-- Only floating-point numbers have a suffix, `f`. -/
def NumeralStyle.tag : NumeralStyle := ⟨fun _ => 0, Numeral.singleSuffix⟩

end ShaderFront
