import Mathlib
import ShaderFront.Proofs.Numerals
import ShaderFront.Proofs.Rounding

/-!
# Shortest digits

The digits of a finite number are those of a decimal that is rounded to it: the search for them ends, at the latest on a grid on
which the number itself lies (`exists_digits`). Its text is a numeral (`exists_numeral`), positional or with an exponent. Main
statement: the text of a finite number is read as the number (`Decimal.read?_text`).
-/

namespace ShaderFront

namespace Binary64

/-! ## The search -/

/-- A natural number times a power of ten. -/
def decimal (n : Nat) (unit : Int) : Fraction := Fraction.scale ⟨n, 1⟩ 10 unit

theorem toRat_decimal (n : Nat) (unit : Int) : (decimal n unit).toRat = n * (10 : ℚ) ^ unit := by
  rw [decimal, toRat_scale, Fraction.toRat, Nat.cast_one, div_one]
  norm_num

theorem den_decimal_pos (n : Nat) (unit : Int) : 0 < (decimal n unit).den := den_scale_pos Nat.one_pos (by decide) _

theorem num_decimal_pos {n : Nat} (hn : 0 < n) (unit : Int) : 0 < (decimal n unit).num := by
  cases unit with
  | ofNat k => exact Nat.mul_pos hn (Nat.pow_pos (by decide))
  | negSucc k => exact hn

/-- The search for the order of a value does not go below a power of ten that the value reaches. -/
theorem decimalOrder_bounds {f : Fraction} (hden : 0 < f.den) {low : Int} (hlow : (10 : ℚ) ^ low ≤ f.toRat) (fuel : Nat) :
    ∀ {k : Int}, low ≤ k → low ≤ decimalOrder f fuel k ∧ decimalOrder f fuel k ≤ k := by
  have hreach : ∀ k : Int, (decimal 1 k).num * f.den ≤ f.num * (decimal 1 k).den ↔ (10 : ℚ) ^ k ≤ f.toRat := by
    intro k
    have hk : (10 : ℚ) ^ k = (decimal 1 k).toRat := by rw [toRat_decimal, Nat.cast_one, one_mul]
    rw [hk, Fraction.toRat, Fraction.toRat, div_le_div_iff₀ (Nat.cast_pos.mpr (den_decimal_pos 1 k)) (Nat.cast_pos.mpr hden)]
    norm_cast
  induction fuel with
  | zero => exact fun h => ⟨h, le_rfl⟩
  | succ fuel ih =>
    intro k h
    rw [decimalOrder]
    split
    · exact ⟨h, le_rfl⟩
    · rename_i hnot
      have hne : low ≠ k := fun heq => hnot ((hreach k).mpr (heq ▸ hlow))
      obtain ⟨hge, hle⟩ := ih (show low ≤ k - 1 by omega)
      exact ⟨hge, by omega⟩

/-- Digits are those of a decimal that is rounded to a magnitude. -/
def Rounds (magnitude : Nat) (d : Digits) : Prop :=
  ∃ n unit, 0 < n ∧ nearest (decimal n unit) = magnitude ∧ d = gridDigits n unit

theorem rounds_of_onGrid? {magnitude : Nat} {f : Fraction} {unit : Int} {d : Digits} (h : onGrid? magnitude f unit = some d) :
    Rounds magnitude d := by
  simp only [onGrid?] at h
  split_ifs at h with hlower hupper
  · cases h
    exact ⟨_, unit, Nat.pos_of_ne_zero hlower.1, hlower.2.1, rfl⟩
  · cases h
    exact ⟨_, unit, Nat.succ_pos _, hupper, rfl⟩

/-- A grid on which the value lies has digits for it. -/
theorem onGrid?_isSome {magnitude n : Nat} {f : Fraction} {unit : Int} (hden : 0 < f.den) (hnearest : nearest f = magnitude)
    (hn : 0 < n) (hvalue : f.toRat = n * (10 : ℚ) ^ unit) : (onGrid? magnitude f unit).isSome = true := by
  have hpos : 0 < (f.scale 10 (-unit)).den := den_scale_pos hden (by decide) _
  have hscaled : (f.scale 10 (-unit)).toRat = n := by
    rw [toRat_scale, hvalue, Nat.cast_ofNat, mul_assoc, ← zpow_add₀ (by norm_num), Int.add_right_neg, zpow_zero, mul_one]
  have hnum : (f.scale 10 (-unit)).num = n * (f.scale 10 (-unit)).den := by
    rw [Fraction.toRat, div_eq_iff (Nat.cast_ne_zero.mpr hpos.ne')] at hscaled
    exact_mod_cast hscaled
  have hback : nearest (Fraction.scale ⟨n, 1⟩ 10 unit) = magnitude := by
    rw [← hnearest]
    exact nearest_congr (den_decimal_pos n unit) hden (by rw [← decimal, toRat_decimal, hvalue])
  rw [onGrid?]
  simp only [hnum, Nat.mul_div_cancel _ hpos, Nat.mul_mod_left, hback, hn.ne', ne_eq, not_false_eq_true, Nat.mul_zero, hpos,
    true_or, and_self, if_true, Option.isSome_some]

/-- The search ends with digits if one of its grids has some. -/
theorem rounds_searchGrids {magnitude : Nat} {f : Fraction} : ∀ {fuel : Nat} {unit : Int}, (∃ k : Nat, k < fuel ∧
    (onGrid? magnitude f (unit - k)).isSome = true) → Rounds magnitude (searchGrids magnitude f fuel unit)
  | 0, _, ⟨_, hk, _⟩ => absurd hk (Nat.not_lt_zero _)
  | fuel + 1, unit, ⟨k, hk, hsome⟩ => by
    rw [searchGrids]
    split
    · rename_i d hd
      exact rounds_of_onGrid? hd
    · rename_i hnone
      refine rounds_searchGrids ?_
      cases k with
      | zero => simp [hnone] at hsome
      | succ k =>
        refine ⟨k, by omega, ?_⟩
        rwa [show unit - 1 - (k : Int) = unit - (k + 1 : Nat) by omega]

/-- A finite magnitude lies on a decimal grid that the search reaches. -/
theorem exists_grid {magnitude mantissa : Nat} {exponent : Int} (h : IsScaled magnitude mantissa exponent) :
    ∃ n : Nat, 0 < n ∧ (value magnitude).toRat = n * (10 : ℚ) ^ min 0 exponent := by
  rcases le_or_gt 0 exponent with hle | hgt
  · obtain ⟨k, rfl⟩ := Int.eq_ofNat_of_zero_le hle
    refine ⟨mantissa * 2 ^ k, Nat.mul_pos h.pos (Nat.pow_pos two_pos), ?_⟩
    rw [h.toRat_value, min_eq_left hle, zpow_zero, mul_one, zpow_natCast]
    push_cast
    rfl
  · obtain ⟨k, hk⟩ := Int.eq_ofNat_of_zero_le (show 0 ≤ -exponent by omega)
    obtain rfl : exponent = -(k : Int) := by omega
    refine ⟨mantissa * 5 ^ k, Nat.mul_pos h.pos (Nat.pow_pos (by decide)), ?_⟩
    have hten : (10 : ℚ) ^ k = 2 ^ k * 5 ^ k := by rw [← mul_pow]; norm_num
    rw [h.toRat_value, min_eq_right hgt.le, zpow_neg, zpow_neg, zpow_natCast, zpow_natCast, hten]
    push_cast
    field_simp

/-- **The digits of a finite magnitude other than zero are those of a decimal that is rounded to it.** -/
theorem rounds_digits {magnitude : Nat} (hpos : 0 < magnitude) (hlt : magnitude < infinity) :
    Rounds magnitude (digits magnitude) := by
  obtain ⟨mantissa, exponent, h⟩ := exists_isScaled hpos hlt
  obtain ⟨hnum, hden⟩ := h.num_pos
  obtain ⟨n, hn, hgrid⟩ := exists_grid h
  obtain ⟨hlower, hupper⟩ := toRat_bounds hnum hden
  -- the value reaches the grid on which it lies
  have hreach : (10 : ℚ) ^ min 0 exponent ≤ (value magnitude).toRat := by
    rw [hgrid]
    exact le_mul_of_one_le_left (zpow_pos (by norm_num) _).le (Nat.one_le_cast.mpr hn)
  have hscale : (0 : ℚ) < 2 ^ exponent := zpow_pos two_pos _
  have habove : (2 : ℚ) ^ exponent ≤ (value magnitude).toRat := by
    rw [h.toRat_value]
    exact le_mul_of_one_le_left hscale.le (Nat.one_le_cast.mpr h.pos)
  have hbelow : (value magnitude).toRat < 2 ^ (exponent + 53) := h.isExponent.upper
  have hleast := h.least
  have hmost := h.most
  rw [digits]
  generalize hvalue : value magnitude = f at *
  have hlow : exponent < (f.num.log2 : Int) - f.den.log2 + 1 := two_zpow_lt.mp (habove.trans_lt hupper)
  have hhigh : (f.num.log2 : Int) - f.den.log2 - 1 < exponent + 53 := two_zpow_lt.mp (hlower.trans_lt hbelow)
  generalize (f.num.log2 : Int) - f.den.log2 = order2 at hlow hhigh ⊢
  have hbound : min 0 exponent ≤ max (order2 / 3) (order2 * 3 / 10) + 2 := by omega
  obtain ⟨hge, hle⟩ := decimalOrder_bounds hden hreach 1000 hbound
  generalize decimalOrder f 1000 (max (order2 / 3) (order2 * 3 / 10) + 2) = order at hge hle ⊢
  refine rounds_searchGrids ⟨(order - min 0 exponent).toNat, by omega, ?_⟩
  have hunit : order - ((order - min 0 exponent).toNat : Int) = min 0 exponent := by omega
  rw [hunit]
  exact onGrid?_isSome hden (hvalue ▸ nearest_value hpos hlt) hn hgrid

/-! ## Decimals in range -/

/-- The least power of two that is not finite is below the powers of ten that are taken for infinite. -/
theorem two_zpow_le_ten_zpow : (2 : ℚ) ^ (1024 : Int) ≤ 10 ^ (400 : Int) := by
  have h : 2 ^ 1024 ≤ 10 ^ 400 := by decide +kernel
  exact_mod_cast h

/-- One half of the least positive number is above the powers of ten that are taken for zero. -/
theorem ten_zpow_neg_le : (10 : ℚ) ^ (-400 : Int) ≤ 2 ^ (-1075 : Int) := by
  have h : 2 ^ 1075 ≤ 10 ^ 400 := by decide +kernel
  rw [zpow_neg, zpow_neg]
  refine inv_anti₀ (zpow_pos two_pos _) ?_
  exact_mod_cast h

/-- A decimal that is rounded to a finite magnitude other than zero is read as it: none of the bounds on the order applies. -/
theorem ofDecimal_eq {magnitude mantissa : Nat} {exponent : Int} (hmantissa : 0 < mantissa) (hpos : 0 < magnitude)
    (hlt : magnitude < infinity) (hnearest : nearest (decimal mantissa exponent) = magnitude) (negative : Bool) :
    ofDecimal negative mantissa exponent = ⟨negative, magnitude⟩ := by
  have hden := den_decimal_pos mantissa exponent
  have hupper := lt_of_nearest_lt_infinity (num_decimal_pos hmantissa exponent) hden (hnearest ▸ hlt)
  have hlower := le_of_nearest_ne_zero hden (hnearest ▸ hpos.ne')
  rw [toRat_decimal] at hupper hlower
  have hten : (1 : ℚ) < 10 := by norm_num
  have hscale : (0 : ℚ) < 10 ^ exponent := zpow_pos (by norm_num) _
  have hhuge : ¬ exponent > 400 := by
    intro hexponent
    have hle : (10 : ℚ) ^ (400 : Int) ≤ 10 ^ exponent := zpow_le_zpow_right₀ hten.le (by omega)
    have hone : (10 : ℚ) ^ exponent ≤ mantissa * 10 ^ exponent :=
      le_mul_of_one_le_left hscale.le (Nat.one_le_cast.mpr hmantissa)
    exact absurd (two_zpow_le_ten_zpow.trans (hle.trans hone)) (not_le.mpr hupper)
  have htiny : ¬ exponent + (mantissa.log2 : Int) / 3 < -400 := by
    intro horder
    have hmantissa' : (mantissa : ℚ) < 10 ^ ((mantissa.log2 : Int) / 3 + 1) := by
      have hdigits : mantissa.log2 + 1 ≤ 3 * (mantissa.log2 / 3 + 1) := by omega
      have hpow : mantissa < 10 ^ (mantissa.log2 / 3 + 1) := calc
        mantissa < 2 ^ (mantissa.log2 + 1) := Nat.lt_log2_self
        _ ≤ 2 ^ (3 * (mantissa.log2 / 3 + 1)) := Nat.pow_le_pow_right two_pos hdigits
        _ = 8 ^ (mantissa.log2 / 3 + 1) := by rw [Nat.pow_mul]
        _ ≤ 10 ^ (mantissa.log2 / 3 + 1) := Nat.pow_le_pow_left (by decide) _
      exact_mod_cast hpow
    have hvalue : mantissa * (10 : ℚ) ^ exponent < 2 ^ (-1075 : Int) := calc
      mantissa * (10 : ℚ) ^ exponent < 10 ^ ((mantissa.log2 : Int) / 3 + 1) * 10 ^ exponent :=
        mul_lt_mul_of_pos_right hmantissa' hscale
      _ = 10 ^ ((mantissa.log2 : Int) / 3 + 1 + exponent) := (zpow_add₀ (by norm_num) _ _).symm
      _ ≤ 10 ^ (-400 : Int) := zpow_le_zpow_right₀ hten.le (by omega)
      _ ≤ 2 ^ (-1075 : Int) := ten_zpow_neg_le
    exact absurd hlower (not_le.mpr hvalue)
  rw [ofDecimal]
  simp only [if_neg hmantissa.ne', if_neg hhuge, if_neg htiny]
  rw [← decimal, hnearest]

end Binary64

/-! ## Digits of a magnitude -/

namespace Decimal

theorem ofDigitChars_zeros (k acc : Nat) : Nat.ofDigitChars 10 (Binary64.zeros k) acc = acc * 10 ^ k := by
  induction k generalizing acc with
  | zero => exact (Nat.mul_one acc).symm
  | succ k ih =>
    rw [Binary64.zeros, List.replicate_succ, Nat.ofDigitChars_cons]
    exact (ih _).trans (by rw [Nat.pow_succ]; simp; ring)

theorem isDigit_zeros (k : Nat) : ∀ c ∈ Binary64.zeros k, c.isDigit = true := by
  intro c hc
  rw [List.eq_of_mem_replicate hc]
  rfl

end Decimal

namespace Binary64

open Decimal

/-- Digits stand for a magnitude: at least one, and the decimal that they write is rounded to it. -/
structure StandsFor (d : Digits) (magnitude : Nat) : Prop where
  ne_nil : d.digits ≠ []
  isDigit : ∀ c ∈ d.digits, c.isDigit = true
  pos : 0 < Nat.ofDigitChars 10 d.digits 0
  nearest : nearest (decimal (Nat.ofDigitChars 10 d.digits 0) (d.point - d.digits.length)) = magnitude

/-- A decimal has many numerals: zeros may follow its digits. -/
theorem toRat_decimal_zeros (n k : Nat) (unit : Int) : (decimal (n * 10 ^ k) (unit - k)).toRat = (decimal n unit).toRat := by
  rw [toRat_decimal, toRat_decimal, zpow_sub₀ (by norm_num), zpow_natCast]
  push_cast
  field_simp

theorem Rounds.standsFor {magnitude : Nat} {d : Digits} (h : Rounds magnitude d) : StandsFor d magnitude := by
  obtain ⟨n, unit, hn, hnearest, rfl⟩ := h
  -- the digits of the number are those that are kept, and zeros
  obtain ⟨k, hk⟩ : ∃ k, Nat.toDigits 10 n = (gridDigits n unit).digits ++ zeros k := by
    have hzeros := List.eq_replicate_of_mem (l := (Nat.toDigits 10 n).reverse.takeWhile (· = '0'))
      fun c hc => by simpa using List.mem_takeWhile_imp hc
    refine ⟨((Nat.toDigits 10 n).reverse.takeWhile (· = '0')).length, ?_⟩
    rw [gridDigits, zeros, ← List.reverse_inj, List.reverse_append, List.reverse_reverse, List.reverse_replicate, ← hzeros,
      List.takeWhile_append_dropWhile]
  have hpoint : (gridDigits n unit).point = (Nat.toDigits 10 n).length + unit := rfl
  generalize gridDigits n unit = d at hk hpoint ⊢
  have hvalue : Nat.ofDigitChars 10 d.digits 0 * 10 ^ k = n := by
    rw [← ofDigitChars_zeros, ← Nat.ofDigitChars_append, ← hk, Nat.ofDigitChars_ten_toDigits]
  have hpos : 0 < Nat.ofDigitChars 10 d.digits 0 := Nat.pos_of_mul_pos_right (hvalue ▸ hn)
  refine ⟨?_, fun c hc => Integer.isDigit_toDigits n c (hk ▸ List.mem_append_left _ hc), hpos, ?_⟩
  · rintro hnil
    rw [hnil] at hpos
    exact absurd hpos (lt_irrefl 0)
  · rw [← hnearest]
    refine nearest_congr (den_decimal_pos _ _) (den_decimal_pos _ _) ?_
    have hunit : d.point - d.digits.length - k = unit := by
      rw [hpoint, hk, List.length_append, zeros, List.length_replicate]
      omega
    rw [← toRat_decimal_zeros _ k, hvalue, hunit]

/-- A numeral for digits reads as what they stand for: its digits are these, with zeros after them. -/
theorem StandsFor.ofDecimal_eq {d : Digits} {magnitude : Nat} (h : StandsFor d magnitude) (hpos : 0 < magnitude)
    (hlt : magnitude < infinity) {whole fraction : List Char} {exponent : Option Int} (hnumeral : IsNumeral whole fraction exponent)
    {k : Nat} (hvalue : Nat.ofDigitChars 10 (whole ++ fraction) 0 = Nat.ofDigitChars 10 d.digits 0 * 10 ^ k)
    (hexponent : exponent.getD 0 - fraction.length = d.point - d.digits.length - k) (negative : Bool) :
    ofDecimal negative (valueOf (whole ++ fraction)) (exponent.getD 0 - fraction.length) = ⟨negative, magnitude⟩ := by
  rw [valueOf_eq (List.forall_mem_append.mpr ⟨hnumeral.isDigit, hnumeral.isDigit'⟩), hvalue, hexponent]
  refine Binary64.ofDecimal_eq (Nat.mul_pos h.pos (Nat.pow_pos (by decide))) hpos hlt ?_ negative
  rw [← h.nearest]
  exact nearest_congr (den_decimal_pos _ _) (den_decimal_pos _ _) (toRat_decimal_zeros _ _ _)

/-- A text is a numeral that is read as a magnitude. -/
def IsNumeralOf (magnitude : Nat) (text : List Char) : Prop :=
  ∃ whole fraction exponent, IsNumeral whole fraction exponent ∧ text = numeral whole fraction exponent ∧
    ∀ negative, ofDecimal negative (valueOf (whole ++ fraction)) (exponent.getD 0 - fraction.length) = ⟨negative, magnitude⟩

theorem StandsFor.positional {d : Digits} {magnitude : Nat} (h : StandsFor d magnitude) (hpos : 0 < magnitude)
    (hlt : magnitude < infinity) : IsNumeralOf magnitude (positional d) := by
  have hlength := List.length_pos_of_ne_nil h.ne_nil
  rw [Binary64.positional]
  split
  · rename_i hpoint
    -- a zero before the point
    have hnumeral : IsNumeral ['0'] (zeros (-d.point).toNat ++ d.digits) none :=
      ⟨by simp, List.cons_ne_nil _ _, List.forall_mem_append.mpr ⟨isDigit_zeros _, h.isDigit⟩,
        .inl (List.append_ne_nil_of_right_ne_nil _ h.ne_nil)⟩
    refine ⟨_, _, _, hnumeral, ?_, h.ofDecimal_eq hpos hlt hnumeral (k := 0) ?_ ?_⟩
    · rw [numeral, if_neg (List.append_ne_nil_of_right_ne_nil _ h.ne_nil)]
      simp [exponentText]
    · have hzero : Nat.ofDigitChars 10 ['0'] 0 = 0 := rfl
      rw [Nat.ofDigitChars_append, hzero, Nat.ofDigitChars_append, ofDigitChars_zeros, Nat.zero_mul, Nat.pow_zero, Nat.mul_one]
    · rw [List.length_append, zeros, List.length_replicate, Option.getD_none]
      omega
  · rename_i hpoint
    dsimp only
    split
    · rename_i hle
      -- zeros up to the point, and one after it
      have hnumeral : IsNumeral (d.digits ++ zeros (d.point.toNat - d.digits.length)) ['0'] none :=
        ⟨List.forall_mem_append.mpr ⟨h.isDigit, isDigit_zeros _⟩, List.append_ne_nil_of_left_ne_nil h.ne_nil _, by simp,
          .inl (List.cons_ne_nil _ _)⟩
      refine ⟨_, _, _, hnumeral, ?_, h.ofDecimal_eq hpos hlt hnumeral (k := d.point.toNat - d.digits.length + 1) ?_ ?_⟩
      · simp [numeral, exponentText]
      · rw [List.append_assoc, Nat.ofDigitChars_append]
        have hzeros : zeros (d.point.toNat - d.digits.length) ++ ['0'] = zeros (d.point.toNat - d.digits.length + 1) := by
          rw [zeros, zeros, List.replicate_succ']
        rw [hzeros, ofDigitChars_zeros]
      · rw [List.length_singleton, Option.getD_none]
        omega
    · rename_i hgt
      have htake : d.digits.take d.point.toNat ++ d.digits.drop d.point.toNat = d.digits := List.take_append_drop _ _
      have hdrop : d.digits.drop d.point.toNat ≠ [] := by
        rw [ne_eq, List.drop_eq_nil_iff]
        omega
      have hnumeral : IsNumeral (d.digits.take d.point.toNat) (d.digits.drop d.point.toNat) none :=
        ⟨fun c hc => h.isDigit c (List.mem_of_mem_take hc), by simp [h.ne_nil]; omega,
          fun c hc => h.isDigit c (List.mem_of_mem_drop hc), .inl hdrop⟩
      refine ⟨_, _, _, hnumeral, ?_, h.ofDecimal_eq hpos hlt hnumeral (k := 0) ?_ ?_⟩
      · simp [numeral, hdrop, exponentText]
      · rw [htake, Nat.pow_zero, Nat.mul_one]
      · rw [List.length_drop, Option.getD_none]
        omega

theorem StandsFor.scientific {d : Digits} {magnitude : Nat} (h : StandsFor d magnitude) (hpos : 0 < magnitude)
    (hlt : magnitude < infinity) : IsNumeralOf magnitude (scientific d) := by
  obtain ⟨c, rest, hdigits⟩ := List.exists_cons_of_ne_nil h.ne_nil
  have hisDigit := h.isDigit
  rw [hdigits] at hisDigit
  obtain ⟨hc, hrest⟩ := List.forall_mem_cons.mp hisDigit
  have hnumeral : IsNumeral [c] rest (some (d.point - 1)) :=
    ⟨List.forall_mem_singleton.mpr hc, List.cons_ne_nil _ _, hrest, .inr rfl⟩
  refine ⟨_, _, _, hnumeral, ?_, h.ofDecimal_eq hpos hlt hnumeral (k := 0) ?_ ?_⟩
  · rw [Binary64.scientific, hdigits, numeral]
    cases rest <;> simp [exponentText]
  · rw [hdigits, Nat.pow_zero, Nat.mul_one, List.singleton_append]
  · rw [hdigits, List.length_cons, Option.getD_some]
    omega

/-- **The text of a finite magnitude is a numeral that is read as it.** -/
theorem isNumeralOf_magnitudeText {magnitude : Nat} (hlt : magnitude < infinity) :
    IsNumeralOf magnitude (magnitudeText magnitude) := by
  rw [magnitudeText, if_neg (Nat.not_le.mpr hlt)]
  split
  · rename_i hzero
    rw [hzero]
    exact ⟨['0'], ['0'], none, ⟨by simp, List.cons_ne_nil _ _, by simp, .inl (List.cons_ne_nil _ _)⟩, rfl, fun _ => rfl⟩
  · rename_i hne
    have hpos := Nat.pos_of_ne_zero hne
    have hdigits := (rounds_digits hpos hlt).standsFor
    dsimp only
    split
    · exact hdigits.positional hpos hlt
    · exact hdigits.scientific hpos hlt

/-- Whether a number is finite. -/
def isFinite (x : Binary64) : Bool := x.magnitude < infinity

end Binary64

/-- **The text of a finite number is read as the number.** -/
theorem Decimal.read?_text {x : Binary64} (h : x.isFinite = true) : Decimal.read? x.text.toList = some x := by
  obtain ⟨whole, fraction, exponent, hnumeral, htext, hread⟩ := Binary64.isNumeralOf_magnitudeText (of_decide_eq_true h)
  have hmagnitude : ∀ negative, readMagnitude? negative (Binary64.magnitudeText x.magnitude) = some ⟨negative, x.magnitude⟩ :=
    fun negative => by rw [htext, readMagnitude?_numeral hnumeral, hread]
  obtain ⟨c, rest, hc, hdigit⟩ := hnumeral.exists_cons
  obtain ⟨negative, magnitude⟩ := x
  rw [Binary64.text, String.toList_ofList]
  cases negative with
  | true => exact hmagnitude true
  | false =>
    rw [if_neg Bool.false_ne_true, ← hmagnitude false, htext, hc]
    unfold read?
    split
    · rename_i heq
      cases (List.cons.inj heq).1 ▸ hdigit
    · rename_i heq
      cases (List.cons.inj heq).1 ▸ hdigit
    · rfl

end ShaderFront
