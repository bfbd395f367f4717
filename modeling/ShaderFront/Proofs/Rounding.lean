import Mathlib
import ShaderFront.Text.Binary64

/-!
# Rounding to binary numbers

What the nearest magnitude of a fraction is. The exponent of a fraction is found from its value alone (`exponentOf_eq`), so the
nearest magnitude is a function of the value (`nearest_congr`), and each finite magnitude is the nearest one of its own value
(`nearest_value`). Main statement: fractions that are rounded to a finite magnitude other than zero are neither huge nor tiny
(`lt_of_nearest_lt_infinity`, `le_of_nearest_ne_zero`).
-/

namespace ShaderFront.Binary64

/-! ## Values -/

/-- The value of a fraction. -/
def Fraction.toRat (f : Fraction) : ℚ := f.num / f.den

theorem den_scale_pos {f : Fraction} (hf : 0 < f.den) {base : Nat} (hbase : 0 < base) (exponent : Int) :
    0 < (f.scale base exponent).den := by
  cases exponent with
  | ofNat n => exact hf
  | negSucc n => exact Nat.mul_pos hf (Nat.pow_pos hbase)

theorem toRat_scale (f : Fraction) {base : Nat} (exponent : Int) :
    (f.scale base exponent).toRat = f.toRat * (base : ℚ) ^ exponent := by
  cases exponent with
  | ofNat n =>
    have hnum : (f.scale base (.ofNat n)).toRat = ((f.num * base ^ n : Nat) : ℚ) / f.den := rfl
    rw [hnum, Fraction.toRat, Int.ofNat_eq_natCast, zpow_natCast, Nat.cast_mul, Nat.cast_pow]
    ring
  | negSucc n =>
    have hden : (f.scale base (.negSucc n)).toRat = (f.num : ℚ) / ((f.den * base ^ (n + 1) : Nat) : ℚ) := rfl
    rw [hden, Fraction.toRat, zpow_negSucc, Nat.cast_mul, Nat.cast_pow, div_mul_eq_div_div, div_eq_mul_inv]

/-- A fraction is compared with a number by its value. -/
theorem num_lt_iff {f : Fraction} (hden : 0 < f.den) (n : Nat) : f.num < f.den * n ↔ f.toRat < n := by
  have hden : (0 : ℚ) < f.den := Nat.cast_pos.mpr hden
  rw [Fraction.toRat, div_lt_iff₀ hden, mul_comm (n : ℚ), ← Nat.cast_mul, Nat.cast_lt]

/-! ## Quotients -/

theorem divNearestEven_mul_left {k : Nat} (hk : 0 < k) (num den : Nat) :
    divNearestEven (k * num) (k * den) = divNearestEven num den := by
  have hlt : ∀ a b : Nat, k * a < k * b ↔ a < b := fun a b => Nat.mul_lt_mul_left hk
  simp only [divNearestEven, Nat.mul_div_mul_left _ _ hk, Nat.mul_mod_mul_left, Nat.mul_left_comm 2 k, hlt]

/-- A rounded quotient depends on the value only. -/
theorem divNearestEven_congr {f g : Fraction} (hf : 0 < f.den) (hg : 0 < g.den) (h : f.toRat = g.toRat) :
    divNearestEven f.num f.den = divNearestEven g.num g.den := by
  have hcross : f.num * g.den = g.num * f.den := by
    rw [Fraction.toRat, Fraction.toRat, div_eq_div_iff (Nat.cast_ne_zero.mpr hf.ne') (Nat.cast_ne_zero.mpr hg.ne')] at h
    exact_mod_cast h
  calc divNearestEven f.num f.den
      = divNearestEven (g.den * f.num) (g.den * f.den) := (divNearestEven_mul_left hg _ _).symm
    _ = divNearestEven (f.den * g.num) (f.den * g.den) := by
      rw [Nat.mul_comm g.den f.num, hcross, Nat.mul_comm g.num, Nat.mul_comm g.den]
    _ = divNearestEven g.num g.den := divNearestEven_mul_left hf _ _

theorem divNearestEven_of_eq {f : Fraction} (hf : 0 < f.den) {n : Nat} (h : f.toRat = n) :
    divNearestEven f.num f.den = n := by
  rw [divNearestEven_congr (g := ⟨n, 1⟩) hf Nat.one_pos (by rw [h, Fraction.toRat, Nat.cast_one, div_one])]
  simp [divNearestEven, Nat.mod_one]

/-- A value from a whole number on is not rounded below it. -/
theorem le_divNearestEven {f : Fraction} (hf : 0 < f.den) {n : Nat} (h : n ≤ f.toRat) : n ≤ divNearestEven f.num f.den := by
  have hq : n ≤ f.num / f.den := by
    rw [Nat.le_div_iff_mul_le hf, Nat.mul_comm, ← Nat.not_lt, num_lt_iff hf]
    exact not_lt.mpr h
  rw [divNearestEven]
  split_ifs <;> omega

/-- Less than one half is rounded to zero. -/
theorem divNearestEven_eq_zero {f : Fraction} (hf : 0 < f.den) (h : f.toRat < 1 / 2) : divNearestEven f.num f.den = 0 := by
  have hhalf : 2 * f.num < f.den := by
    have hden : (0 : ℚ) < f.den := Nat.cast_pos.mpr hf
    rw [Fraction.toRat, div_lt_iff₀ hden] at h
    have : (2 * f.num : ℚ) < f.den := by linarith
    exact_mod_cast this
  have hlt : f.num < f.den := by omega
  rw [divNearestEven, Nat.mod_eq_of_lt hlt, if_pos hhalf, Nat.div_eq_of_lt hlt]

/-! ## Exponents -/

/-- An exponent puts the value of a fraction into its binade, or it is the least one. -/
structure IsExponent (f : Fraction) (e : Int) : Prop where
  least : -1074 ≤ e
  upper : f.toRat < 2 ^ (e + 53)
  lower : e = -1074 ∨ 2 ^ (e + 52) ≤ f.toRat

theorem two_zpow_le {a b : Int} : (2 : ℚ) ^ a ≤ 2 ^ b ↔ a ≤ b := zpow_le_zpow_iff_right₀ one_lt_two

theorem two_zpow_lt {a b : Int} : (2 : ℚ) ^ a < 2 ^ b ↔ a < b := zpow_lt_zpow_iff_right₀ one_lt_two

theorem two_zpow_add (a b : Int) : (2 : ℚ) ^ (a + b) = 2 ^ a * 2 ^ b := zpow_add₀ two_ne_zero a b

/-- A fraction has one exponent. -/
theorem IsExponent.unique {f g : Fraction} (hfg : f.toRat = g.toRat) {e e' : Int} (h : IsExponent f e) (h' : IsExponent g e') :
    e = e' := by
  have hle : ∀ {f g : Fraction} {e e' : Int}, f.toRat = g.toRat → IsExponent f e → IsExponent g e' → e ≤ e' := by
    intro f g e e' hfg h h'
    rcases h.lower with rfl | hlower
    · exact h'.least
    · have hlt : (2 : ℚ) ^ (e + 52) < 2 ^ (e' + 53) := hlower.trans_lt (hfg ▸ h'.upper)
      have := two_zpow_lt.mp hlt
      omega
  exact le_antisymm (hle hfg h h') (hle hfg.symm h' h)

theorem two_zpow_log2_le {n : Nat} (hn : 0 < n) : (2 : ℚ) ^ (n.log2 : Int) ≤ n := by
  rw [zpow_natCast]
  exact_mod_cast Nat.log2_self_le hn.ne'

theorem lt_two_zpow_log2 (n : Nat) : (n : ℚ) < 2 ^ ((n.log2 : Int) + 1) := by
  have h : n < 2 ^ (n.log2 + 1) := Nat.lt_log2_self
  exact_mod_cast h

/-- The logarithms of numerator and denominator bound a fraction on both sides. -/
theorem toRat_bounds {f : Fraction} (hnum : 0 < f.num) (hden : 0 < f.den) :
    (2 : ℚ) ^ ((f.num.log2 : Int) - f.den.log2 - 1) ≤ f.toRat ∧ f.toRat < 2 ^ ((f.num.log2 : Int) - f.den.log2 + 1) := by
  have hpos : (0 : ℚ) < f.den := Nat.cast_pos.mpr hden
  have hscale : (0 : ℚ) < 2 ^ ((f.num.log2 : Int) - f.den.log2 - 1) := zpow_pos two_pos _
  refine ⟨?_, ?_⟩
  · rw [Fraction.toRat, le_div_iff₀ hpos]
    calc (2 : ℚ) ^ ((f.num.log2 : Int) - f.den.log2 - 1) * f.den
        ≤ 2 ^ ((f.num.log2 : Int) - f.den.log2 - 1) * 2 ^ ((f.den.log2 : Int) + 1) :=
          mul_le_mul_of_nonneg_left (lt_two_zpow_log2 _).le hscale.le
      _ = 2 ^ (f.num.log2 : Int) := by
          rw [← two_zpow_add]
          congr 1
          omega
      _ ≤ f.num := two_zpow_log2_le hnum
  · rw [Fraction.toRat, div_lt_iff₀ hpos]
    calc (f.num : ℚ) < 2 ^ ((f.num.log2 : Int) + 1) := lt_two_zpow_log2 _
      _ = 2 ^ ((f.num.log2 : Int) - f.den.log2 + 1) * 2 ^ (f.den.log2 : Int) := by
          rw [← two_zpow_add]
          congr 1
          omega
      _ ≤ 2 ^ ((f.num.log2 : Int) - f.den.log2 + 1) * f.den :=
          mul_le_mul_of_nonneg_left (two_zpow_log2_le hden) (zpow_pos two_pos _).le

theorem cast_binade : ((binade : Nat) : ℚ) = 2 ^ (52 : Int) := by
  rw [binade]
  norm_num

/-- The value of a fraction that is scaled down by an exponent. -/
theorem toRat_scale_neg (f : Fraction) (e : Int) : (f.scale 2 (-e)).toRat = f.toRat / 2 ^ e := by
  rw [toRat_scale, zpow_neg, div_eq_mul_inv]
  norm_num

/-- **The exponent that is found is the exponent.** -/
theorem isExponent_exponentOf {f : Fraction} (hnum : 0 < f.num) (hden : 0 < f.den) : IsExponent f (exponentOf f) := by
  obtain ⟨hlow, hhigh⟩ := toRat_bounds hnum hden
  have hguess : ∀ guess : Int, guess = (f.num.log2 : Int) - f.den.log2 - 52 →
      IsExponent f (max (if f.toRat < 2 ^ (guess + 52) then guess - 1 else guess) (-1074)) := by
    rintro guess rfl
    -- the bound that the guess leaves open is decided by the comparison
    have hcase : ∃ e, (if f.toRat < 2 ^ ((f.num.log2 : Int) - f.den.log2 - 52 + 52) then (f.num.log2 : Int) - f.den.log2 - 52 - 1
        else (f.num.log2 : Int) - f.den.log2 - 52) = e ∧ f.toRat < 2 ^ (e + 53) ∧ 2 ^ (e + 52) ≤ f.toRat := by
      refine ⟨_, rfl, ?_⟩
      split
      · rename_i hlt
        refine ⟨?_, ?_⟩
        · convert hlt using 2
          omega
        · convert hlow using 2
          omega
      · rename_i hge
        refine ⟨?_, not_lt.mp hge⟩
        convert hhigh using 2
        omega
    obtain ⟨e, he, hupper, hlower⟩ := hcase
    rw [he]
    refine ⟨le_max_right _ _, hupper.trans_le (two_zpow_le.mpr (by omega)), ?_⟩
    rcases le_or_gt e (-1074) with hle | hgt
    · exact .inl (max_eq_right hle)
    · exact .inr (by rwa [max_eq_left hgt.le])
  have hcompare : ∀ guess : Int, ((f.scale 2 (-guess)).num < (f.scale 2 (-guess)).den * binade) ↔
      f.toRat < 2 ^ (guess + 52) := by
    intro guess
    rw [num_lt_iff (den_scale_pos hden two_pos _), toRat_scale_neg, cast_binade, div_lt_iff₀ (zpow_pos two_pos _), ← two_zpow_add,
      add_comm]
  rw [exponentOf]
  simp only [hcompare]
  exact hguess _ rfl

theorem exponentOf_eq {f : Fraction} (hnum : 0 < f.num) (hden : 0 < f.den) {e : Int} (h : IsExponent f e) : exponentOf f = e :=
  (isExponent_exponentOf hnum hden).unique rfl h

/-! ## The nearest magnitude -/

/-- The magnitude nearest to a fraction, by its exponent. -/
theorem nearest_eq {f : Fraction} (hnum : 0 < f.num) (hden : 0 < f.den) {e : Int} (h : IsExponent f e) :
    nearest f = min infinity ((e + 1074).toNat * binade + divNearestEven (f.scale 2 (-e)).num (f.scale 2 (-e)).den) := by
  rw [nearest, if_neg hnum.ne']
  simp only [exponentOf_eq hnum hden h]

/-- **The nearest magnitude depends on the value only.** -/
theorem nearest_congr {f g : Fraction} (hf : 0 < f.den) (hg : 0 < g.den) (h : f.toRat = g.toRat) : nearest f = nearest g := by
  have hzero : f.num = 0 ↔ g.num = 0 := by
    have hnum : ∀ k : Fraction, 0 < k.den → (k.toRat = 0 ↔ k.num = 0) := by
      intro k hk
      rw [Fraction.toRat, div_eq_zero_iff, or_iff_left (Nat.cast_ne_zero.mpr hk.ne'), Nat.cast_eq_zero]
    rw [← hnum f hf, h, hnum g hg]
  by_cases hnum : f.num = 0
  · rw [nearest, nearest, if_pos hnum, if_pos (hzero.mp hnum)]
  · have hfnum := Nat.pos_of_ne_zero hnum
    have hgnum := Nat.pos_of_ne_zero (mt hzero.mpr hnum)
    have hexponent := isExponent_exponentOf hfnum hf
    have hexponent' := isExponent_exponentOf hgnum hg
    rw [nearest_eq hfnum hf hexponent, nearest_eq hgnum hg hexponent', hexponent.unique h hexponent']
    rw [divNearestEven_congr (den_scale_pos hf two_pos _) (den_scale_pos hg two_pos _)]
    rw [toRat_scale, toRat_scale, h]

/-- Fractions that are not rounded to infinity are not huge. -/
theorem lt_of_nearest_lt_infinity {f : Fraction} (hnum : 0 < f.num) (hden : 0 < f.den) (h : nearest f < infinity) :
    f.toRat < 2 ^ (1024 : Int) := by
  by_contra hge
  have hge := not_lt.mp hge
  have hexponent := isExponent_exponentOf hnum hden
  generalize exponentOf f = e at hexponent
  have hlt : (2 : ℚ) ^ (1024 : Int) < 2 ^ (e + 53) := hge.trans_lt hexponent.upper
  have he : 971 < e := by
    have := two_zpow_lt.mp hlt
    omega
  have hlower := hexponent.lower.resolve_left (by omega)
  have hround : binade ≤ divNearestEven (f.scale 2 (-e)).num (f.scale 2 (-e)).den := by
    refine le_divNearestEven (den_scale_pos hden two_pos _) ?_
    rwa [toRat_scale_neg, cast_binade, le_div_iff₀ (zpow_pos two_pos _), ← two_zpow_add, add_comm]
  rw [nearest_eq hnum hden hexponent, min_lt_iff, or_iff_right (lt_irrefl _)] at h
  have hinfinity : infinity ≤ (e + 1074).toNat * binade + binade := by
    rw [← Nat.succ_mul]
    exact Nat.mul_le_mul_right _ (by omega)
  omega

/-- Fractions that are not rounded to zero are not tiny. -/
theorem le_of_nearest_ne_zero {f : Fraction} (hden : 0 < f.den) (h : nearest f ≠ 0) : 2 ^ (-1075 : Int) ≤ f.toRat := by
  by_contra hlt
  have hlt := not_le.mp hlt
  have hnum : 0 < f.num := by
    refine Nat.pos_of_ne_zero fun hzero => h ?_
    rw [nearest, if_pos hzero]
  have hexponent : IsExponent f (-1074) := ⟨le_rfl, hlt.trans_le (two_zpow_le.mpr (by omega)), .inl rfl⟩
  have hhalf : (f.scale 2 (-(-1074))).toRat < 1 / 2 := by
    rw [toRat_scale_neg, div_lt_iff₀ (zpow_pos two_pos _)]
    calc f.toRat < 2 ^ (-1075 : Int) := hlt
      _ = 2 ^ (-1 : Int) * 2 ^ (-1074 : Int) := by rw [← two_zpow_add]; norm_num
      _ = 1 / 2 * 2 ^ (-1074 : Int) := by norm_num
  rw [nearest_eq hnum hden hexponent, divNearestEven_eq_zero (den_scale_pos hden two_pos _) hhalf] at h
  exact h (Nat.min_zero _)

/-! ## Values of magnitudes -/

/-- A finite magnitude other than zero is a whole number times a power of two. -/
structure IsScaled (magnitude : Nat) (mantissa : Nat) (exponent : Int) : Prop where
  pos : 0 < mantissa
  lt : mantissa < 2 * binade
  least : -1074 ≤ exponent
  most : exponent ≤ 971
  full : exponent = -1074 ∨ binade ≤ mantissa
  eq : magnitude = (exponent + 1074).toNat * binade + mantissa
  value : value magnitude = Fraction.scale ⟨mantissa, 1⟩ 2 exponent

theorem exists_isScaled {magnitude : Nat} (hpos : 0 < magnitude) (hlt : magnitude < infinity) :
    ∃ mantissa exponent, IsScaled magnitude mantissa exponent := by
  have hbinade : 0 < binade := by decide
  have hsplit : binade * (magnitude / binade) + magnitude % binade = magnitude := Nat.div_add_mod _ _
  have hmod : magnitude % binade < binade := Nat.mod_lt _ hbinade
  have hdiv : magnitude / binade < 2047 := (Nat.div_lt_iff_lt_mul hbinade).mpr hlt
  by_cases hzero : magnitude / binade = 0
  · rw [hzero, Nat.mul_zero, Nat.zero_add] at hsplit
    refine ⟨magnitude % binade, -1074, by omega, by omega, le_rfl, by omega, .inl rfl, ?_, ?_⟩
    · rw [Int.toNat_of_nonpos (by omega), Nat.zero_mul, Nat.zero_add, hsplit]
    · rw [Binary64.value]
      simp only [if_pos hzero]
  · have hone : 1 ≤ magnitude / binade := Nat.one_le_iff_ne_zero.mpr hzero
    have hone' : (1 : Int) ≤ ((magnitude / binade : Nat) : Int) := Int.ofNat_le.mpr hone
    refine ⟨binade + magnitude % binade, (magnitude / binade : Nat) - 1075, by omega, by omega, by omega, by omega,
      .inr (Nat.le_add_right _ _), ?_, ?_⟩
    · have hexponent : (((magnitude / binade : Nat) : Int) - 1075 + 1074).toNat = magnitude / binade - 1 := by omega
      rw [hexponent, ← Nat.add_assoc, ← Nat.succ_mul, Nat.succ_eq_add_one, Nat.sub_add_cancel hone, Nat.mul_comm, hsplit]
    · rw [Binary64.value]
      simp only [if_neg hzero]

theorem IsScaled.toRat_value {magnitude mantissa : Nat} {exponent : Int} (h : IsScaled magnitude mantissa exponent) :
    (Binary64.value magnitude).toRat = mantissa * 2 ^ exponent := by
  rw [h.value, toRat_scale, Fraction.toRat, Nat.cast_one, div_one]
  norm_num

theorem IsScaled.isExponent {magnitude mantissa : Nat} {exponent : Int} (h : IsScaled magnitude mantissa exponent) :
    IsExponent (Binary64.value magnitude) exponent := by
  have hscale : (0 : ℚ) < 2 ^ exponent := zpow_pos two_pos _
  refine ⟨h.least, ?_, h.full.imp_right fun hfull => ?_⟩
  · rw [h.toRat_value, add_comm, two_zpow_add]
    refine mul_lt_mul_of_pos_right ?_ hscale
    calc (mantissa : ℚ) < ((2 * binade : Nat) : ℚ) := Nat.cast_lt.mpr h.lt
      _ = 2 ^ (53 : Int) := by rw [Nat.cast_mul, cast_binade]; norm_num
  · rw [h.toRat_value, add_comm, two_zpow_add, ← cast_binade]
    exact mul_le_mul_of_nonneg_right (Nat.cast_le.mpr hfull) hscale.le

theorem IsScaled.num_pos {magnitude mantissa : Nat} {exponent : Int} (h : IsScaled magnitude mantissa exponent) :
    0 < (Binary64.value magnitude).num ∧ 0 < (Binary64.value magnitude).den := by
  rw [h.value]
  refine ⟨?_, den_scale_pos Nat.one_pos two_pos _⟩
  cases exponent with
  | ofNat n => exact Nat.mul_pos h.pos (Nat.pow_pos two_pos)
  | negSucc n => exact h.pos

/-- **A finite magnitude is the nearest one of its value.** -/
theorem nearest_value {magnitude : Nat} (hpos : 0 < magnitude) (hlt : magnitude < infinity) :
    nearest (Binary64.value magnitude) = magnitude := by
  obtain ⟨mantissa, exponent, h⟩ := exists_isScaled hpos hlt
  obtain ⟨hnum, hden⟩ := h.num_pos
  have hround : divNearestEven ((Binary64.value magnitude).scale 2 (-exponent)).num
      ((Binary64.value magnitude).scale 2 (-exponent)).den = mantissa := by
    refine divNearestEven_of_eq (den_scale_pos hden two_pos _) ?_
    rw [toRat_scale_neg, h.toRat_value, mul_div_cancel_right₀ _ (zpow_pos two_pos _).ne']
  rw [nearest_eq hnum hden h.isExponent, hround, ← h.eq, min_eq_right hlt.le]

end ShaderFront.Binary64
