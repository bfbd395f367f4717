import Mathlib
import ShaderFront.Text.Integer

/-!
# Numbers as texts

The decimal digits of a number are read as the number: they begin with `0` only for zero, so they are not taken for an octal
literal (`Integer.readChars?_toDigits`).
-/

namespace ShaderFront.Integer

theorem digit?_of_isDigit {c : Char} (h : c.isDigit = true) : digit? c = some (c.toNat - '0'.toNat) := by
  have hrange : '0' ≤ c ∧ c ≤ '9' := by
    simpa [Char.isDigit, Char.le_def] using h
  rw [digit?, if_pos hrange]

theorem lt_ten_of_isDigit {c : Char} (h : c.isDigit = true) : c.toNat - '0'.toNat < 10 := by
  have hle : c.toNat ≤ 57 := by
    simp only [Char.isDigit, Bool.and_eq_true, decide_eq_true_eq] at h
    exact h.2
  have hzero : '0'.toNat = 48 := rfl
  omega

theorem readDigitsFrom_ten (cs : List Char) (hcs : ∀ c ∈ cs, c.isDigit = true) (acc : Nat) :
    readDigitsFrom 10 acc cs = some (Nat.ofDigitChars 10 cs acc) := by
  induction cs generalizing acc with
  | nil => rfl
  | cons c cs ih =>
    obtain ⟨hc, hcs⟩ := List.forall_mem_cons.mp hcs
    rw [readDigitsFrom, digit?_of_isDigit hc]
    simp only [lt_ten_of_isDigit hc, if_true]
    rw [ih hcs, Nat.ofDigitChars_cons, Nat.mul_comm acc 10]

/-- The digits of a number begin with `0` only if it is zero. -/
theorem head?_toDigits {n : Nat} (hn : n ≠ 0) : (Nat.toDigits 10 n).head? ≠ some '0' := by
  induction n using Nat.strong_induction_on with
  | _ n ih =>
    rw [Nat.toDigits_eq_if (by omega)]
    split
    · rename_i hlt
      interval_cases n <;> simp_all [Nat.digitChar]
    · rw [List.head?_append_of_ne_nil _ Nat.toDigits_ne_nil]
      exact ih (n / 10) (by omega) (by omega)

theorem text_of_nonneg {value : Int64} (h : 0 ≤ value) : text value = String.ofList (Nat.toDigits 10 value.toInt.toNat) := by
  have hint : 0 ≤ value.toInt := by simpa using Int64.le_iff_toInt_le.mp h
  rw [text]
  obtain ⟨n, hn⟩ := Int.eq_ofNat_of_zero_le hint
  rw [hn]
  exact Nat.repr_eq_ofList_toDigits

theorem word?_toInt (value : Int64) : word? value.toInt = some value := by
  have hbounds : Int64.minValue.toInt ≤ value.toInt ∧ value.toInt ≤ Int64.maxValue.toInt :=
    ⟨Int64.minValue_le_toInt value, Int64.toInt_le value⟩
  rw [word?, if_pos hbounds, Int64.ofInt_toInt]

theorem dropSuffix_of_isDigit {cs : List Char} (h : ∀ c ∈ cs, c.isDigit = true) : dropSuffix cs = cs := by
  have hkeep : cs.reverse.dropWhile (fun c => c = 'u' || c = 'U') = cs.reverse := by
    cases hcs : cs.reverse with
    | nil => rfl
    | cons c rest =>
      have hc := h c (by rw [← List.mem_reverse, hcs]; exact List.mem_cons_self)
      refine List.dropWhile_cons_of_neg ?_
      rintro hsuffix
      rcases (Bool.or_eq_true _ _).mp hsuffix with hsuffix | hsuffix <;> (cases of_decide_eq_true hsuffix; cases hc)
  rw [dropSuffix, hkeep, List.reverse_reverse]

theorem isDigit_toDigits (n : Nat) : ∀ c ∈ Nat.toDigits 10 n, c.isDigit = true := fun _ hc =>
  Nat.isDigit_of_mem_toDigits (by omega) (by omega) hc

theorem readDigits?_toDigits (n : Nat) : readDigits? 10 (Nat.toDigits 10 n) = some n := by
  rw [readDigits?, if_neg (by simp [Nat.toDigits_ne_nil]), readDigitsFrom_ten _ (isDigit_toDigits n),
    Nat.ofDigitChars_ten_toDigits]

theorem readRadix?_toDigits (n : Nat) : readRadix? 10 (Nat.toDigits 10 n) = word? n := by
  have hdigits := isDigit_toDigits n
  unfold readRadix?
  split
  · rename_i hcs
    cases hdigits '+' (by rw [hcs]; exact List.mem_cons_self)
  · rename_i hcs
    cases hdigits '-' (by rw [hcs]; exact List.mem_cons_self)
  · rw [readDigits?_toDigits, Option.bind_some]

/-- **Digits are read as their number**, if it fits into a word. -/
theorem readChars?_toDigits (n : Nat) : readChars? (Nat.toDigits 10 n) = word? n := by
  -- a leading zero is the only digit
  have hzero : ∀ c rest, Nat.toDigits 10 n ≠ '0' :: c :: rest := by
    intro c rest heq
    by_cases hn : n = 0
    · rw [hn] at heq
      cases heq
    · exact head?_toDigits hn (by rw [heq]; rfl)
  rw [readChars?, dropSuffix_of_isDigit (isDigit_toDigits n)]
  split
  · rename_i heq
    exact absurd heq (hzero _ _)
  · rename_i heq
    exact absurd heq (hzero _ _)
  · rename_i heq
    exact absurd heq (hzero _ _)
  · exact readRadix?_toDigits n

/-- **A number that is not negative is read from its text.** -/
theorem read?_text {value : Int64} (h : 0 ≤ value) : read? (text value) = some value := by
  have hint : 0 ≤ value.toInt := by simpa using Int64.le_iff_toInt_le.mp h
  rw [read?, text_of_nonneg h, String.toList_ofList, readChars?_toDigits, Int.toNat_of_nonneg hint, word?_toInt]

theorem toString_negSucc (n : Nat) : (toString (Int.negSucc n)).toList = '-' :: Nat.toDigits 10 (n + 1) := by
  have h : toString (Int.negSucc n) = "-" ++ (n + 1).repr := rfl
  rw [h, Nat.repr_eq_ofList_toDigits]
  simp

theorem toString_ofNat (n : Nat) : (toString (Int.ofNat n)).toList = Nat.toDigits 10 n := by
  have h : toString (Int.ofNat n) = n.repr := rfl
  rw [h, Nat.repr_eq_ofList_toDigits, String.toList_ofList]

end ShaderFront.Integer
