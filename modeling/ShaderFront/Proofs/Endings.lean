import Mathlib
import ShaderFront.Proofs.Pasting

/-!
# Where numerals and marks end

No numeral goes on with white space, a slash or a parenthesis (`Numeral.read?_append`), and no literal with a character that it does
not have (`isPrefixOf_append_stop`). So a lexer cuts a text alike up to there, whatever follows.
-/

namespace ShaderFront

/-! ## Where a numeral ends -/

namespace Numeral

open Macro (Severed runLength_append_stop)

variable {c : Char} {back rest : List Char}

theorem ne_of_severed (h : Severed (c :: rest)) (d : Char) (hd : isWordChar d = true ∨ d ∈ ['.', '+', '-']) : c ≠ d := by
  rintro rfl
  obtain ⟨hplain, hsign⟩ := h c rfl
  rcases hd with hd | hd
  · rw [hd] at hplain
    cases hplain
  · exact hsign hd

theorem isDigit_of_severed (hback : Severed back) : ∀ c ∈ back.head?, c.isDigit = false := by
  intro c hc
  obtain ⟨rest, rfl⟩ := List.head?_eq_some_iff.mp hc
  by_contra hdigit
  exact ne_of_severed hback c (.inl (Macro.isWordChar_of_isDigit (by simpa using hdigit))) rfl

theorem isHexDigit_of_severed (hback : Severed back) : ∀ c ∈ back.head?, isHexDigit c = false := by
  intro c hc
  obtain ⟨rest, rfl⟩ := List.head?_eq_some_iff.mp hc
  by_contra hdigit
  exact ne_of_severed hback c (.inl (isWordChar_of_isHexDigit (by simpa using hdigit))) rfl

theorem runLength_digits_append (hback : Severed back) (front : List Char) :
    runLength Char.isDigit (front ++ back) = runLength Char.isDigit front :=
  runLength_append_stop front (isDigit_of_severed hback)

theorem exponentLength_append (hback : Severed back) (front : List Char) :
    exponentLength (front ++ back) = exponentLength front := by
  cases back with
  | nil => rw [List.append_nil]
  | cons d rest =>
    have hplus := ne_of_severed hback '+' (by decide)
    have hminus := ne_of_severed hback '-' (by decide)
    cases front with
    | nil => simp [exponentLength, ne_of_severed hback 'e' (by decide), ne_of_severed hback 'E' (by decide)]
    | cons c front =>
      have hrun := runLength_digits_append hback front
      cases front with
      | nil => simp_all [exponentLength, runLength]
      | cons s digits =>
        have hrun' := runLength_digits_append hback digits
        rw [List.cons_append] at hrun
        simp only [List.cons_append, exponentLength, hrun, hrun']

theorem hexLength_append (hback : Severed back) (front : List Char) : hexLength (front ++ back) = hexLength front := by
  have hskip : ∀ {c x : Char} {digits : List Char}, c ≠ '0' ∨ x ≠ 'x' ∧ x ≠ 'X' → hexLength (c :: x :: digits) = 0 := by
    intro c x digits h
    unfold hexLength
    split
    · rename_i heq
      simp only [List.cons.injEq] at heq
      obtain ⟨hc, rfl, rfl⟩ := heq
      simp [h.resolve_left fun h => h hc]
    · rfl
  cases back with
  | nil => rw [List.append_nil]
  | cons d rest =>
    cases front with
    | nil =>
      cases rest with
      | nil => simp [hexLength]
      | cons x rest => exact hskip (.inl (ne_of_severed hback '0' (by decide)))
    | cons c front =>
      cases front with
      | nil =>
        rw [List.singleton_append, hskip (.inr ⟨ne_of_severed hback 'x' (by decide), ne_of_severed hback 'X' (by decide)⟩)]
        simp [hexLength]
      | cons x digits =>
        by_cases h : c ≠ '0' ∨ x ≠ 'x' ∧ x ≠ 'X'
        · rw [List.cons_append, List.cons_append, hskip h, hskip h]
        · obtain ⟨hc, -⟩ := not_or.mp h
          obtain rfl := not_not.mp hc
          simp only [List.cons_append, hexLength, runLength_append_stop digits (isHexDigit_of_severed hback)]

theorem unsignedSuffix_severed (hback : Severed back) (front : List Char) :
    unsignedSuffix (front ++ back) = unsignedSuffix front := by
  cases front with
  | nil =>
    cases back with
    | nil => rfl
    | cons c rest => simp [unsignedSuffix, ne_of_severed hback 'u' (by decide), ne_of_severed hback 'U' (by decide)]
  | cons c front =>
    unfold unsignedSuffix
    split <;> split <;> simp_all

theorem singleSuffix_severed (hback : Severed back) (front : List Char) : singleSuffix (front ++ back) = singleSuffix front := by
  cases front with
  | nil =>
    cases back with
    | nil => rfl
    | cons c rest => simp [singleSuffix, ne_of_severed hback 'f' (by decide), ne_of_severed hback 'F' (by decide)]
  | cons c front =>
    unfold singleSuffix
    split <;> split <;> simp_all

theorem precisionSuffix_severed (hback : Severed back) (front : List Char) :
    precisionSuffix (front ++ back) = precisionSuffix front := by
  have hsingle := singleSuffix_severed hback front
  have hskip : ∀ {cs : List Char}, (∀ tail, cs ≠ 'l' :: 'f' :: tail) → (∀ tail, cs ≠ 'L' :: 'F' :: tail) →
      precisionSuffix cs = singleSuffix cs := by
    intro cs hl hL
    unfold precisionSuffix
    split
    · exact absurd rfl (hl _)
    · exact absurd rfl (hL _)
    · rfl
  cases back with
  | nil => rw [List.append_nil]
  | cons d rest =>
    have hl := ne_of_severed hback 'l' (by decide)
    have hL := ne_of_severed hback 'L' (by decide)
    have hf := ne_of_severed hback 'f' (by decide)
    have hF := ne_of_severed hback 'F' (by decide)
    cases front with
    | nil => rw [hskip (by simp [hl]) (by simp [hL]), hsingle, hskip (by simp) (by simp)]
    | cons c front =>
      cases front with
      | nil => rw [hskip (by simp [hf]) (by simp [hF]), hsingle, hskip (by simp) (by simp)]
      | cons s front =>
        by_cases hlow : c = 'l' ∧ s = 'f'
        · obtain ⟨rfl, rfl⟩ := hlow
          rfl
        by_cases hhigh : c = 'L' ∧ s = 'F'
        · obtain ⟨rfl, rfl⟩ := hhigh
          rfl
        rw [hskip (by simpa using hlow) (by simpa using hhigh), hsingle, hskip (by simpa using hlow) (by simpa using hhigh)]

theorem exponentLength_le (cs : List Char) : exponentLength cs ≤ cs.length := by
  unfold exponentLength
  split
  · split
    · split
      · rename_i s digits
        have hdigits := (take_runLength Char.isDigit digits).2
        have hall := (take_runLength Char.isDigit (s :: digits)).2
        simp only [List.length_cons] at hall ⊢
        split <;> split <;> omega
      · exact Nat.zero_le _
    · exact Nat.zero_le _
  · exact Nat.zero_le _

theorem hexLength_le (cs : List Char) : hexLength cs ≤ cs.length := by
  unfold hexLength
  split
  · rename_i x digits
    have hdigits := (take_runLength isHexDigit digits).2
    simp only [List.length_cons]
    split
    · split <;> omega
    · exact Nat.zero_le _
  · exact Nat.zero_le _

theorem precisionSuffix_le (cs : List Char) : precisionSuffix cs ≤ cs.length := by
  unfold precisionSuffix singleSuffix
  split
  · simp
  · simp
  · split <;> simp

theorem float_append (hback : Severed back) (n : Nat) (front : List Char) :
    float .shader n (front ++ back) = float .shader n front := by
  have hdrop : (front ++ back).drop (exponentLength front) = front.drop (exponentLength front) ++ back :=
    List.drop_append_of_le_length (exponentLength_le front)
  simp only [float, NumeralStyle.shader, exponentLength_append hback, hdrop, precisionSuffix_severed hback]

theorem integer_append (hback : Severed back) (n : Nat) (front : List Char) :
    integer .shader n (front ++ back) = integer .shader n front := by
  simp only [integer, NumeralStyle.shader, unsignedSuffix_severed hback]

/-- **Which numeral a text begins with** does not depend on what goes on with none. -/
theorem read?_append (hback : Severed back) (front : List Char) : read? .shader (front ++ back) = read? .shader front := by
  have hwhole := (take_runLength Char.isDigit front).2
  have hdrop : ∀ {n : Nat}, n ≤ front.length → (front ++ back).drop n = front.drop n ++ back := List.drop_append_of_le_length
  simp only [read?, runLength_digits_append hback, hexLength_append hback, hdrop hwhole, hdrop (hexLength_le front),
    integer_append hback]
  cases hrest : front.drop (runLength Char.isDigit front) with
  | nil =>
    cases back with
    | nil => rfl
    | cons c back =>
      have hpoint := ne_of_severed hback '.' (by decide)
      have hexponent : exponentLength (c :: back) = 0 := exponentLength_append hback []
      have hinteger := fun n => integer_append hback n []
      simp_all [exponentLength]
  | cons c digits =>
    have hdigits := (take_runLength Char.isDigit digits).2
    by_cases hc : c = '.'
    · subst hc
      simp only [List.cons_append, runLength_digits_append hback, List.drop_append_of_le_length hdigits, float_append hback]
    · have hexponent := exponentLength_append hback (c :: digits)
      have hinteger := fun n => integer_append hback n (c :: digits)
      have hfloat := fun n => float_append hback n (c :: digits)
      simp_all

theorem length_read?_le {cs : List Char} {m : Numeral} (h : read? .shader cs = some m) : m.length ≤ cs.length := by
  have hwhole := (take_runLength Char.isDigit cs).2
  have hfloat : ∀ n rest, n ≤ cs.length → rest.length ≤ cs.length - n → (float .shader n rest).length ≤ cs.length := by
    intro n rest hn hrest
    have hexponent := exponentLength_le rest
    have hsuffix := precisionSuffix_le (rest.drop (exponentLength rest))
    rw [List.length_drop] at hsuffix
    simp only [float, NumeralStyle.shader]
    omega
  have hinteger : ∀ n, n ≤ cs.length → (integer .shader n (cs.drop n)).length ≤ cs.length := by
    intro n hn
    have hsuffix := (take_unsignedSuffix (cs.drop n)).2
    rw [List.length_drop] at hsuffix
    simp only [integer, NumeralStyle.shader]
    omega
  have hpoint : ∀ digits, cs.drop (runLength Char.isDigit cs) = '.' :: digits → ∀ n, n = runLength Char.isDigit digits →
      (float .shader (runLength Char.isDigit cs + n + 1) (digits.drop n)).length ≤ cs.length := by
    rintro digits hdrop n rfl
    have hdigits := (take_runLength Char.isDigit digits).2
    have hlength := congrArg List.length hdrop
    rw [List.length_drop, List.length_cons] at hlength
    refine hfloat _ _ (by omega) ?_
    rw [List.length_drop]
    omega
  unfold read? at h
  dsimp only at h
  split at h
  · rename_i hzero
    split at h
    · rename_i digits hdrop
      split at h
      · cases h
      · obtain rfl := Option.some.inj h
        have := hpoint digits hdrop _ rfl
        rwa [hzero, Nat.zero_add] at this
    · cases h
  · split at h
    · obtain rfl := Option.some.inj h
      exact hinteger _ (hexLength_le cs)
    · split at h
      · rename_i digits hdrop
        obtain rfl := Option.some.inj h
        exact hpoint digits hdrop _ rfl
      · split at h
        · obtain rfl := Option.some.inj h
          exact hfloat _ _ hwhole (by simp)
        · obtain rfl := Option.some.inj h
          exact hinteger _ hwhole

end Numeral

/-! ## Where a literal ends -/

/-- Whether a text begins with a literal does not depend on what follows a character that the literal does not go on with. -/
theorem isPrefixOf_append_stop {literal s : List Char} (h : ∀ d ∈ s.head?, d ∉ literal.tail) (c : Char) (p : List Char) :
    literal.isPrefixOf (c :: (p ++ s)) = literal.isPrefixOf (c :: p) := by
  cases literal with
  | nil => rfl
  | cons e more =>
    rw [List.tail_cons] at h
    rw [List.isPrefixOf_cons_cons, List.isPrefixOf_cons_cons]
    refine congrArg _ ?_
    induction more generalizing p with
    | nil => simp
    | cons e more ih =>
      cases p with
      | nil =>
        cases s with
        | nil => rfl
        | cons d s =>
          have hne : e ≠ d := fun heq => h d rfl (heq ▸ List.mem_cons_self)
          simp [List.isPrefixOf, hne]
      | cons d p =>
        rw [List.cons_append, List.isPrefixOf_cons_cons, List.isPrefixOf_cons_cons,
          ih p fun d hd hmem => h d hd (List.mem_cons_of_mem e hmem)]

end ShaderFront
