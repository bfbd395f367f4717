/-!
# Binary floating-point numbers

Numbers with a sign and a magnitude of 64-bit binary format. The magnitudes are numbered in ascending order, the
number of a magnitude being its bit pattern: zero is `0`, the subnormal ones follow, and infinity comes last.
Reading a decimal gives the nearest of them, and writing one gives the fewest digits that read back as it.

Main content:

* `Binary64`, `Binary64.ofDecimal`;
* `Binary64.digits`, the shortest digits of a finite magnitude;
* `Binary64.text`, positional between 10⁻⁴ and 10¹⁶ and with an exponent outside.
-/

namespace ShaderFront

/-- A binary floating-point number other than a NaN. -/
structure Binary64 where
  negative : Bool := false
  /-- The number of the magnitude in ascending order. -/
  magnitude : Nat := 0
deriving DecidableEq, Repr, Inhabited

namespace Binary64

/-- The number of magnitudes with one exponent. -/
def binade : Nat := Nat.pow 2 52

/-- The magnitude beyond every finite one. -/
def infinity : Nat := 2047 * binade

/-- A fraction of natural numbers. -/
structure Fraction where
  num : Nat
  den : Nat
deriving Repr

/-- A fraction times a power of a base. -/
def Fraction.scale (f : Fraction) (base : Nat) (exponent : Int) : Fraction :=
  match exponent with
  | .ofNat n => { f with num := f.num * base.pow n }
  | .negSucc n => { f with den := f.den * base.pow (n + 1) }

/-- The value of a finite magnitude. -/
def value (magnitude : Nat) : Fraction :=
  let exponent := magnitude / binade
  let fraction := magnitude % binade
  if exponent = 0 then Fraction.scale ⟨fraction, 1⟩ 2 (-1074)
  else Fraction.scale ⟨binade + fraction, 1⟩ 2 ((exponent : Int) - 1075)

/-- The quotient rounded to the nearest integer, and to the even one of two. -/
def divNearestEven (num den : Nat) : Nat :=
  let q := num / den
  let r := num % den
  if 2 * r < den then q
  else if den < 2 * r then q + 1
  else if q % 2 = 0 then q else q + 1

/-- An exponent `e` with `2⁵² ≤ f / 2ᵉ < 2⁵³`, or the least exponent of the format if that one is smaller. -/
def exponentOf (f : Fraction) : Int :=
  let guess : Int := (f.num.log2 : Int) - (f.den.log2 : Int) - 52
  let scaled := f.scale 2 (-guess)
  let exponent := if scaled.num < scaled.den * binade then guess - 1 else guess
  max exponent (-1074)

/-- The magnitude nearest to a fraction, and the even one of two. -/
def nearest (f : Fraction) : Nat :=
  if f.num = 0 then 0
  else
    let exponent := exponentOf f
    let scaled := f.scale 2 (-exponent)
    min infinity ((exponent + 1074).toNat * binade + divNearestEven scaled.num scaled.den)

/-- The number nearest to `± mantissa · 10^exponent`. A bound on the decimal order tells the numbers that are far out of
range, without computing them. -/
def ofDecimal (negative : Bool) (mantissa : Nat) (exponent : Int) : Binary64 :=
  let order : Int := exponent + (mantissa.log2 : Int) / 3
  if mantissa = 0 then { negative }
  else if exponent > 400 then { negative, magnitude := infinity }
  else if order < -400 then { negative }
  else { negative, magnitude := nearest (Fraction.scale ⟨mantissa, 1⟩ 10 exponent) }

/-! ## Shortest digits -/

/-- Decimal digits, most significant first, with the point after the first `point` of them. -/
structure Digits where
  digits : List Char
  point : Int
deriving DecidableEq, Repr

/-- The largest `k` with `10ᵏ ≤ f`, searched downwards from a bound. -/
def decimalOrder (f : Fraction) : Nat → Int → Int
  | 0, k => k
  | fuel + 1, k =>
    let p := Fraction.scale ⟨1, 1⟩ 10 k
    if p.num * f.den ≤ f.num * p.den then k else decimalOrder f fuel (k - 1)

/-- The digits of a number on the grid of `10^unit`, without trailing zeros. -/
def gridDigits (n : Nat) (unit : Int) : Digits :=
  let all := Nat.toDigits 10 n
  { digits := (all.reverse.dropWhile (· = '0')).reverse, point := all.length + unit }

/-- Of the two neighbours of a value on a decimal grid, the one that reads back as the magnitude; of two the
nearer one, and the upper one of two equally near. -/
def onGrid? (magnitude : Nat) (f : Fraction) (unit : Int) : Option Digits :=
  let scaled := f.scale 10 (-unit)
  let lower := scaled.num / scaled.den
  let upper := lower + 1
  let readsBack := fun (n : Nat) => nearest (Fraction.scale ⟨n, 1⟩ 10 unit) = magnitude
  let nearerLower := 2 * (scaled.num % scaled.den) < scaled.den
  if lower ≠ 0 ∧ readsBack lower ∧ (nearerLower ∨ ¬ readsBack upper) then some (gridDigits lower unit)
  else if readsBack upper then some (gridDigits upper unit)
  else none

/-- Tries grids of one digit more each time. -/
def searchGrids (magnitude : Nat) (f : Fraction) : Nat → Int → Digits
  | 0, unit => gridDigits ((f.scale 10 (-unit)).num / (f.scale 10 (-unit)).den) unit
  | fuel + 1, unit =>
    match onGrid? magnitude f unit with
    | some d => d
    | none => searchGrids magnitude f fuel (unit - 1)

/-- The fewest digits that read back as a finite magnitude other than zero. A grid on which the value itself lies always
reads back, and every value lies on the grid of `10⁻¹⁰⁷⁴`. -/
def digits (magnitude : Nat) : Digits :=
  let f := value magnitude
  let order2 : Int := (f.num.log2 : Int) - (f.den.log2 : Int)
  let bound := max (order2 / 3) (order2 * 3 / 10) + 2
  let order := decimalOrder f 1000 bound
  searchGrids magnitude f 1100 order

/-! ## Notation -/

/-- Zeros. -/
def zeros (n : Nat) : List Char := List.replicate n '0'

/-- Positional notation, with at least one digit after the point. -/
def positional (d : Digits) : List Char :=
  if d.point ≤ 0 then '0' :: '.' :: zeros (-d.point).toNat ++ d.digits
  else
    let point := d.point.toNat
    if d.digits.length ≤ point then d.digits ++ zeros (point - d.digits.length) ++ ['.', '0']
    else d.digits.take point ++ '.' :: d.digits.drop point

/-- Notation with an exponent: one digit, a point and the other digits if there are any, and the exponent. -/
def scientific (d : Digits) : List Char :=
  let mantissa :=
    match d.digits with
    | c :: e :: rest => c :: '.' :: e :: rest
    | ds => ds
  mantissa ++ 'e' :: (toString (d.point - 1)).toList

/-- The text of a magnitude. -/
def magnitudeText (magnitude : Nat) : List Char :=
  if infinity ≤ magnitude then "inf".toList
  else if magnitude = 0 then "0.0".toList
  else
    let d := digits magnitude
    if -4 < d.point ∧ d.point ≤ 16 then positional d else scientific d

/-- The text of a number. -/
def text (x : Binary64) : String :=
  String.ofList (if x.negative then '-' :: magnitudeText x.magnitude else magnitudeText x.magnitude)

/-- The bit of the sign, above all magnitudes. -/
def signBit : Nat := 2048 * binade

/-- The sixteen hexadecimal digits of the bit pattern. -/
def bitsText (x : Binary64) : String :=
  let bits := (if x.negative then signBit else 0) + x.magnitude
  let ds := Nat.toDigits 16 bits
  String.ofList (zeros (16 - ds.length) ++ ds)

end Binary64

end ShaderFront
