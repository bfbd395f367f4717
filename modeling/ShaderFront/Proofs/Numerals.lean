import Mathlib
import ShaderFront.Lex.Numeral
import ShaderFront.Proofs.Identifiers
import ShaderFront.Proofs.Numbers
import ShaderFront.Text.Decimal

/-!
# Numerals

Numerals as they are written: digits alone (integers), or digits with a fraction or an exponent (`Decimal.numeral`). Main statements:
the parts of a numeral determine its value (`Decimal.readMagnitude?_numeral`), and a numeral is cut off the front of a text as a
whole, unless what follows goes on with it (`Numeral.read?_integer`, `Numeral.read?_numeral`).
-/

namespace ShaderFront

namespace Decimal

/-- An exponent, if there is one. -/
def exponentText : Option Int → List Char
  | none => []
  | some e => 'e' :: (toString e).toList

/-- A numeral has digits, a point with more digits if there are any, and an exponent if there is one. -/
def numeral (whole fraction : List Char) (exponent : Option Int) : List Char :=
  whole ++ ((if fraction = [] then [] else '.' :: fraction) ++ exponentText exponent)

/-- A numeral has a digit before the point, and it is no integer: it has a point or an exponent. -/
structure IsNumeral (whole fraction : List Char) (exponent : Option Int) : Prop where
  isDigit : ∀ c ∈ whole, c.isDigit = true
  ne_nil : whole ≠ []
  isDigit' : ∀ c ∈ fraction, c.isDigit = true
  pointed : fraction ≠ [] ∨ exponent.isSome = true

/-- A numeral begins with a digit. -/
theorem IsNumeral.exists_cons {whole fraction : List Char} {exponent : Option Int} (h : IsNumeral whole fraction exponent) :
    ∃ c rest, numeral whole fraction exponent = c :: rest ∧ c.isDigit = true := by
  obtain ⟨c, rest, hwhole⟩ := List.exists_cons_of_ne_nil h.ne_nil
  refine ⟨c, _, by rw [numeral, hwhole]; rfl, h.isDigit c (hwhole ▸ List.mem_cons_self)⟩

/-- The characters of a numeral. -/
theorem mem_numeral {whole fraction : List Char} {exponent : Option Int} (h : IsNumeral whole fraction exponent) {c : Char}
    (hc : c ∈ numeral whole fraction exponent) : c.isDigit = true ∨ c ∈ ['.', 'e', '-'] := by
  rcases List.mem_append.mp hc with hc | hc
  · exact .inl (h.isDigit c hc)
  rcases List.mem_append.mp hc with hc | hc
  · split at hc
    · cases hc
    · rcases List.mem_cons.mp hc with rfl | hc
      · exact .inr (by decide)
      · exact .inl (h.isDigit' c hc)
  · match exponent with
    | some (.ofNat n) =>
      rw [exponentText, Integer.toString_ofNat] at hc
      rcases List.mem_cons.mp hc with rfl | hc
      · exact .inr (by decide)
      · exact .inl (Integer.isDigit_toDigits n c hc)
    | some (.negSucc n) =>
      rw [exponentText, Integer.toString_negSucc] at hc
      rcases List.mem_cons.mp hc with rfl | hc
      · exact .inr (by decide)
      rcases List.mem_cons.mp hc with rfl | hc
      · exact .inr (by decide)
      · exact .inl (Integer.isDigit_toDigits _ c hc)

theorem splitDigits_run {run rest : List Char} (hrun : ∀ c ∈ run, c.isDigit = true)
    (hrest : ∀ c ∈ rest.head?, c.isDigit = false) : splitDigits (run ++ rest) = (run, rest) := by
  have htake : rest.takeWhile Char.isDigit = [] ∧ rest.dropWhile Char.isDigit = rest := by
    cases rest with
    | nil => exact ⟨rfl, rfl⟩
    | cons c rest => simp [hrest c rfl]
  rw [splitDigits, List.takeWhile_append_of_pos hrun, List.dropWhile_append_of_pos hrun, htake.1, htake.2, List.append_nil]

theorem head?_exponentText (exponent : Option Int) : ∀ c ∈ (exponentText exponent).head?, c = 'e' := by
  cases exponent with
  | none => nofun
  | some e => rintro c ⟨⟩; rfl

theorem exponent?_text (exponent : Option Int) : exponent? (exponentText exponent) = some (exponent.getD 0) := by
  match exponent with
  | none => rfl
  | some (.negSucc n) =>
    rw [exponentText, Integer.toString_negSucc, exponent?]
    simp [Integer.readDigits?_toDigits, Int.negSucc_eq]
  | some (.ofNat n) =>
    have hsign : ∀ sign digits, sign.isDigit = false → Nat.toDigits 10 n = sign :: digits → False := by
      intro sign digits hsign hdigits
      rw [Integer.isDigit_toDigits n sign (hdigits ▸ List.mem_cons_self)] at hsign
      cases hsign
    rw [exponentText, Integer.toString_ofNat, exponent?, if_pos (by decide), Integer.readDigits?_toDigits]
    · rfl
    · exact fun digits => hsign '+' digits rfl
    · exact fun digits => hsign '-' digits rfl

theorem valueOf_eq {digits : List Char} (h : ∀ c ∈ digits, c.isDigit = true) :
    valueOf digits = Nat.ofDigitChars 10 digits 0 := by
  rw [valueOf, Integer.readDigitsFrom_ten _ h]
  rfl

/-- **A numeral is read by its parts.** -/
theorem readMagnitude?_numeral {whole fraction : List Char} {exponent : Option Int} (h : IsNumeral whole fraction exponent)
    (negative : Bool) : readMagnitude? negative (numeral whole fraction exponent) =
      some (Binary64.ofDecimal negative (valueOf (whole ++ fraction)) (exponent.getD 0 - fraction.length)) := by
  have hexponent := exponent?_text exponent
  have hafter := head?_exponentText exponent
  rw [numeral, readMagnitude?]
  generalize exponentText exponent = tail at hexponent hafter ⊢
  have hwhole : whole.isEmpty = false := by simpa using h.ne_nil
  have hdigit : ∀ c ∈ tail.head?, c.isDigit = false := fun c hc => by rw [hafter c hc]; rfl
  by_cases hfraction : fraction = []
  · have htail : splitFraction tail = ([], tail) := by
      unfold splitFraction
      split
      · cases hafter '.' rfl
      · rfl
    rw [hfraction, if_pos rfl, List.nil_append, splitDigits_run h.isDigit hdigit]
    simp only [htail, hwhole, Bool.false_and, Bool.false_eq_true, if_false, hexponent, Option.map_some]
  · have htail : splitFraction ('.' :: (fraction ++ tail)) = (fraction, tail) := splitDigits_run h.isDigit' hdigit
    have hpoint : ∀ c ∈ ('.' :: (fraction ++ tail)).head?, c.isDigit = false := by rintro c ⟨⟩; rfl
    rw [if_neg hfraction, List.cons_append, splitDigits_run h.isDigit hpoint]
    simp only [htail, hwhole, Bool.false_and, Bool.false_eq_true, if_false, hexponent, Option.map_some]

end Decimal

/-! ## Cutting off -/

namespace Numeral

open Decimal

/-- A text that begins like this goes on with no numeral before it. -/
def Ends (rest : List Char) : Prop := ∀ c ∈ rest.head?, c.isDigit = false ∧ c ∉ ['.', 'e', 'E', 'x', 'X']

theorem Ends.isDigit {rest : List Char} (h : Ends rest) : ∀ c ∈ rest.head?, c.isDigit = false := fun c hc => (h c hc).1

theorem Ends.exponentLength {rest : List Char} (h : Ends rest) : exponentLength rest = 0 := by
  cases rest with
  | nil => rfl
  | cons c rest =>
    have hc := (h c rfl).2
    simp only [List.mem_cons, not_or] at hc
    simp [Numeral.exponentLength, hc]

/-- Digits are not the front of a hexadecimal integer, unless an `x` follows. -/
theorem hexLength_eq_zero {digits rest : List Char} (hdigits : ∀ c ∈ digits, c.isDigit = true) (hne : digits ≠ [])
    (hrest : ∀ c ∈ rest.head?, c ≠ 'x' ∧ c ≠ 'X') : hexLength (digits ++ rest) = 0 := by
  obtain ⟨c, more, rfl⟩ := List.exists_cons_of_ne_nil hne
  have hnext : ∀ x ∈ (more ++ rest).head?, x ≠ 'x' ∧ x ≠ 'X' := by
    cases more with
    | nil => exact hrest
    | cons d more =>
      rintro _ ⟨⟩
      have hd := hdigits d (by simp)
      constructor <;> (rintro rfl; cases hd)
  rw [List.cons_append]
  unfold hexLength
  split
  · rename_i x after heq
    obtain ⟨hx, hX⟩ := hnext x (by rw [(List.cons.inj heq).2]; rfl)
    rw [if_neg (by simp [hx, hX])]
  · rfl

section Run

variable {style : NumeralStyle} {whole : List Char} (hwhole : ∀ c ∈ whole, c.isDigit = true) (hne : whole ≠ [])

include hwhole hne

/-- Digits before a point. -/
theorem read?_point (digits : List Char) : read? style (whole ++ '.' :: digits) =
    some (float style (whole.length + runLength Char.isDigit digits + 1) (digits.drop (runLength Char.isDigit digits))) := by
  have hlength : whole.length ≠ 0 := List.length_eq_zero_iff.not.mpr hne
  have hrun : runLength Char.isDigit (whole ++ '.' :: digits) = whole.length :=
    Macro.runLength_run hwhole (by rintro _ ⟨⟩; decide)
  have hhex : hexLength (whole ++ '.' :: digits) = 0 := hexLength_eq_zero hwhole hne (by rintro _ ⟨⟩; decide)
  rw [read?]
  simp only [hrun, List.drop_left, if_neg hlength, hhex, ne_eq, not_true_eq_false, if_false]

/-- Digits without a point. -/
theorem read?_run {after : List Char} (hdigit : ∀ c ∈ after.head?, c.isDigit = false)
    (hafter : ∀ c ∈ after.head?, c ≠ '.' ∧ c ≠ 'x' ∧ c ≠ 'X') : read? style (whole ++ after) =
      if exponentLength after ≠ 0 then some (float style whole.length after) else some (integer style whole.length after) := by
  have hlength : whole.length ≠ 0 := List.length_eq_zero_iff.not.mpr hne
  have hhex := hexLength_eq_zero hwhole hne fun c hc => (hafter c hc).2
  rw [read?]
  simp only [Macro.runLength_run hwhole hdigit, List.drop_left, if_neg hlength, hhex, ne_eq, not_true_eq_false, if_false]
  split
  · exact absurd rfl (hafter '.' rfl).1
  · rfl

end Run

theorem Ends.ne {rest : List Char} (h : Ends rest) : ∀ c ∈ rest.head?, c ≠ '.' ∧ c ≠ 'x' ∧ c ≠ 'X' := by
  intro c hc
  have hc := (h c hc).2
  simp only [List.mem_cons, not_or] at hc
  exact ⟨hc.1, hc.2.2.2.1, hc.2.2.2.2.1⟩

/-- **An integer is cut off as a whole.** -/
theorem read?_integer {style : NumeralStyle} {digits rest : List Char} (hdigits : ∀ c ∈ digits, c.isDigit = true)
    (hne : digits ≠ []) (hrest : Ends rest) :
    read? style (digits ++ rest) = some ⟨false, digits.length + style.integerSuffix rest⟩ := by
  rw [read?_run hdigits hne hrest.isDigit hrest.ne, hrest.exponentLength, if_neg (not_not.mpr rfl)]
  rfl

/-- An exponent is as long as its text. -/
theorem exponentLength_text (exponent : Option Int) {rest : List Char} (hrest : Ends rest) :
    exponentLength (exponentText exponent ++ rest) = (exponentText exponent).length := by
  have hrun : ∀ n, runLength Char.isDigit (Nat.toDigits 10 n ++ rest) = (Nat.toDigits 10 n).length := fun n =>
    Macro.runLength_run (Integer.isDigit_toDigits n) hrest.isDigit
  have hlength : ∀ n, (Nat.toDigits 10 n).length ≠ 0 := fun n => List.length_eq_zero_iff.not.mpr Nat.toDigits_ne_nil
  match exponent with
  | none => exact hrest.exponentLength
  | some (.negSucc n) =>
    rw [exponentText, Integer.toString_negSucc, List.cons_append, List.cons_append, exponentLength, if_pos (by decide),
      if_pos (by decide)]
    simp only [hrun, if_neg (hlength _), List.length_cons]
  | some (.ofNat n) =>
    rw [exponentText, Integer.toString_ofNat, List.cons_append]
    obtain ⟨c, more, hcs⟩ := List.exists_cons_of_ne_nil (Nat.toDigits_ne_nil (b := 10) (n := n))
    have hc : c.isDigit = true := Integer.isDigit_toDigits n c (hcs ▸ List.mem_cons_self)
    have hsign : (c = '+' || c = '-') = false := by
      rw [Bool.eq_false_iff]
      intro h
      rcases (Bool.or_eq_true _ _).mp h with h | h <;> (rw [of_decide_eq_true h] at hc; cases hc)
    have hrun := hrun n
    have hlength := hlength n
    rw [hcs] at hrun hlength ⊢
    rw [List.cons_append] at hrun ⊢
    rw [exponentLength, if_pos (by decide)]
    simp only [hsign, Bool.false_eq_true, if_false, hrun, List.length_cons, Nat.succ_ne_zero]

/-- **A numeral with a fraction or an exponent is cut off as a whole.** -/
theorem read?_numeral {style : NumeralStyle} {whole fraction rest : List Char} {exponent : Option Int}
    (h : IsNumeral whole fraction exponent) (hrest : Ends rest) (hsuffix : style.floatSuffix rest = 0) :
    read? style (numeral whole fraction exponent ++ rest) = some ⟨true, (numeral whole fraction exponent).length⟩ := by
  have hexponent := exponentLength_text exponent hrest
  have hfloat : ∀ n, float style n (exponentText exponent ++ rest) = ⟨true, n + (exponentText exponent).length⟩ := fun n => by
    rw [float, hexponent, List.drop_left, hsuffix]
    rfl
  have hafter : Ends rest ∧ exponentText exponent = [] ∨ ∃ after, exponentText exponent ++ rest = 'e' :: after := by
    cases exponent with
    | none => exact .inl ⟨hrest, rfl⟩
    | some e => exact .inr ⟨_, rfl⟩
  rw [numeral, List.append_assoc, List.append_assoc]
  by_cases hfraction : fraction = []
  · obtain ⟨e, rfl⟩ := Option.isSome_iff_exists.mp (h.pointed.resolve_left (not_not.mpr hfraction))
    have hne : exponentLength (exponentText (some e) ++ rest) ≠ 0 := hexponent ▸ Nat.succ_ne_zero _
    rw [if_pos hfraction, List.nil_append]
    rw [read?_run h.isDigit h.ne_nil (by rintro _ ⟨⟩; decide) (by rintro _ ⟨⟩; decide), if_pos hne, hfloat, List.nil_append,
      List.length_append]
  · have hrun : runLength Char.isDigit (fraction ++ (exponentText exponent ++ rest)) = fraction.length := by
      refine Macro.runLength_run h.isDigit' ?_
      rcases hafter with ⟨hends, hnil⟩ | ⟨after, hafter⟩
      · rw [hnil]
        exact hends.isDigit
      · rw [hafter]
        rintro _ ⟨⟩
        decide
    rw [if_neg hfraction, List.cons_append, read?_point h.isDigit h.ne_nil, hrun, List.drop_left, hfloat]
    simp only [List.length_append, List.length_cons]
    congr 2
    omega

end Numeral

end ShaderFront
