import Mathlib
import ShaderFront.Lex.Numeral
import ShaderFront.Proofs.Identifiers

/-!
# The characters of a numeral

A numeral is made of word characters, points and signs (`Numeral.front_read?`). So no other character, such as a line break or a
slash, is ever in one.
-/

namespace ShaderFront

/-- The first characters of a text satisfy a test. -/
def FrontOf (p : Char → Bool) (n : Nat) (cs : List Char) : Prop := ∀ c ∈ cs.take n, p c = true

namespace FrontOf

variable {p q : Char → Bool} {n m : Nat} {cs : List Char}

theorem zero : FrontOf p 0 cs := by simp [FrontOf]

theorem add (h : FrontOf p n cs) (h' : FrontOf p m (cs.drop n)) : FrontOf p (n + m) cs := by
  rw [FrontOf, List.take_add]
  exact List.forall_mem_append.mpr ⟨h, h'⟩

theorem cons {c : Char} (hc : p c = true) (h : FrontOf p n cs) : FrontOf p (n + 1) (c :: cs) := by
  rw [FrontOf, List.take_succ_cons]
  exact List.forall_mem_cons.mpr ⟨hc, h⟩

theorem tail {c : Char} (h : FrontOf p n (c :: cs)) : FrontOf p (n - 1) cs := by
  cases n with
  | zero => exact .zero
  | succ n => exact fun d hd => h d (by rw [List.take_succ_cons]; exact List.mem_cons_of_mem c hd)

theorem runLength (hpq : ∀ c, q c = true → p c = true) (cs : List Char) : FrontOf p (runLength q cs) cs :=
  fun c hc => hpq c (Macro.of_mem_take_runLength hc)

/-- A character that fails the test is not at the front. -/
theorem not_mem (h : FrontOf p n cs) {d : Char} (hd : p d = false) : d ∉ cs.take n := by
  intro hmem
  rw [h d hmem] at hd
  cases hd

end FrontOf

namespace Numeral

/-- Whether a character may be in a numeral. -/
def isPart (c : Char) : Bool := isWordChar c || c = '.' || c = '+' || c = '-'

variable {n : Nat} {c : Char} {cs rest : List Char}

theorem isPart_of_isDigit (h : c.isDigit = true) : isPart c = true := by
  simp [isPart, Macro.isWordChar_of_isDigit h]

theorem isWordChar_of_isHexDigit {c : Char} (h : isHexDigit c = true) : isWordChar c = true := by
  simp only [isHexDigit, Bool.or_eq_true, Bool.and_eq_true, decide_eq_true_eq, Char.le_def] at h
  simp only [isWordChar, Char.isAlphanum, Char.isAlpha, Char.isUpper, Char.isLower, Bool.or_eq_true, Bool.and_eq_true,
    decide_eq_true_eq]
  rcases h with (h | ⟨h, h'⟩) | ⟨h, h'⟩
  · exact .inl (.inr h)
  · exact .inl (.inl (.inr ⟨h, UInt32.le_trans h' (by decide)⟩))
  · exact .inl (.inl (.inl ⟨h, UInt32.le_trans h' (by decide)⟩))

theorem isPart_of_isHexDigit (h : isHexDigit c = true) : isPart c = true := by
  simp [isPart, isWordChar_of_isHexDigit h]

theorem front_digits (cs : List Char) : FrontOf isPart (runLength Char.isDigit cs) cs :=
  .runLength (fun _ => isPart_of_isDigit) cs

theorem front_exponentLength (cs : List Char) : FrontOf isPart (exponentLength cs) cs := by
  unfold exponentLength
  split
  · rename_i c rest
    split
    · rename_i hc
      have hc : isPart c = true := by
        rcases Bool.or_eq_true_iff.mp hc with h | h <;> rw [of_decide_eq_true h] <;> rfl
      split
      · rename_i s digits
        split
        · rename_i hs
          have hs : isPart s = true := by
            rcases Bool.or_eq_true_iff.mp hs with h | h <;> rw [of_decide_eq_true h] <;> rfl
          dsimp only
          split
          · exact .zero
          · exact .cons hc (.cons hs (front_digits digits))
        · dsimp only
          split
          · exact .zero
          · exact .cons hc (front_digits _)
      · exact .zero
    · exact .zero
  · exact .zero

theorem front_hexLength (cs : List Char) : FrontOf isPart (hexLength cs) cs := by
  unfold hexLength
  split
  · rename_i x rest
    split
    · rename_i hx
      have hx : isPart x = true := by
        rcases Bool.or_eq_true_iff.mp hx with h | h <;> rw [of_decide_eq_true h] <;> rfl
      dsimp only
      split
      · exact .zero
      · exact .cons rfl (.cons hx (.runLength (fun _ => isPart_of_isHexDigit) rest))
    · exact .zero
  · exact .zero

theorem front_unsignedSuffix (cs : List Char) : FrontOf isPart (unsignedSuffix cs) cs := by
  unfold unsignedSuffix
  split
  · exact .cons rfl .zero
  · exact .cons rfl .zero
  · exact .zero

theorem front_precisionSuffix (cs : List Char) : FrontOf isPart (precisionSuffix cs) cs := by
  unfold precisionSuffix singleSuffix
  split
  · exact .cons rfl (.cons rfl .zero)
  · exact .cons rfl (.cons rfl .zero)
  · split
    · exact .cons rfl .zero
    · exact .cons rfl .zero
    · exact .zero

theorem front_float (hrest : cs.drop n = rest) (h : FrontOf isPart n cs) :
    FrontOf isPart (float .shader n rest).length cs := by
  subst hrest
  refine (h.add (front_exponentLength _)).add ?_
  rw [← List.drop_drop]
  exact front_precisionSuffix _

theorem front_integer (hrest : cs.drop n = rest) (h : FrontOf isPart n cs) :
    FrontOf isPart (integer .shader n rest).length cs := by
  subst hrest
  exact h.add (front_unsignedSuffix _)

/-- **The characters of a numeral.** -/
theorem front_read? {m : Numeral} (h : read? .shader cs = some m) : FrontOf isPart m.length cs := by
  have hwhole := front_digits cs
  have hpoint : ∀ {digits}, cs.drop (runLength Char.isDigit cs) = '.' :: digits →
      FrontOf isPart (runLength Char.isDigit cs + (runLength Char.isDigit digits + 1)) cs ∧
        cs.drop (runLength Char.isDigit cs + (runLength Char.isDigit digits + 1)) = digits.drop (runLength Char.isDigit digits) := by
    intro digits hdrop
    refine ⟨hwhole.add ?_, ?_⟩
    · rw [hdrop]
      exact .cons rfl (front_digits digits)
    · rw [← List.drop_drop, hdrop, List.drop_succ_cons]
  unfold read? at h
  dsimp only at h
  split at h
  · rename_i hzero
    split at h
    · rename_i digits hdrop
      obtain ⟨hfront, hrest⟩ := hpoint hdrop
      rw [hzero, Nat.zero_add] at hfront hrest
      split at h
      · cases h
      · cases h
        exact front_float hrest hfront
    · cases h
  · split at h
    · cases h
      exact front_integer rfl (front_hexLength cs)
    · split at h
      · rename_i digits hdrop
        obtain ⟨hfront, hrest⟩ := hpoint hdrop
        cases h
        exact front_float hrest hfront
      · split at h
        · cases h
          exact front_float rfl hwhole
        · cases h
          exact front_integer rfl hwhole

end Numeral

end ShaderFront
