import Mathlib
import ShaderFront.Proofs.Expansion
import ShaderFront.Proofs.Newlines
import ShaderFront.Proofs.OpenComments
import ShaderFront.Proofs.Phrasing
import ShaderFront.Proofs.Printing
import ShaderFront.Proofs.Unbroken

/-!
# Values pasted into a text

The values of arguments are pasted into the body of a macro as texts, and the text is divided into words again. The words are
those of the body, with the words of the values for the names of the parameters (`Directive.divides_substitute`): a value in
parentheses or in digits neither runs into what stands beside it nor opens or closes a comment.
-/

namespace ShaderFront

/-! ## Integer literals -/

namespace Numeral

/-- The integer literals: decimal or hexadecimal digits, and a suffix or none. -/
inductive IsLiteral : List Char → Prop
  | decimal {digits suffix : List Char} : (∀ c ∈ digits, c.isDigit = true) → digits ≠ [] → suffix ∈ [[], ['u'], ['U']] →
      IsLiteral (digits ++ suffix)
  | hexadecimal {x : Char} {digits suffix : List Char} : x ∈ ['x', 'X'] → (∀ c ∈ digits, isHexDigit c = true) → digits ≠ [] →
      suffix ∈ [[], ['u'], ['U']] → IsLiteral ('0' :: x :: (digits ++ suffix))

/-- A text that begins like this does not go on with a literal or a name before it. -/
def Parts (rest : List Char) : Prop := ∀ c ∈ rest.head?, isWordChar c = false ∧ c ≠ '.'

variable {cs piece rest : List Char}

theorem take_runLength (p : Char → Bool) (cs : List Char) :
    (∀ c ∈ cs.take (runLength p cs), p c = true) ∧ runLength p cs ≤ cs.length := by
  refine ⟨fun c hc => Macro.of_mem_take_runLength hc, ?_⟩
  induction cs with
  | nil => exact le_rfl
  | cons c cs ih =>
    rw [runLength]
    split
    · exact Nat.succ_le_succ ih
    · exact Nat.zero_le _

theorem take_ne_nil {n : Nat} (hn : n ≠ 0) (hle : n ≤ cs.length) : cs.take n ≠ [] := by
  rw [ne_eq, List.take_eq_nil_iff, not_or]
  exact ⟨hn, List.ne_nil_of_length_pos (by omega)⟩

/-- The suffix of a literal is cut off with it. -/
theorem take_unsignedSuffix (cs : List Char) :
    cs.take (unsignedSuffix cs) ∈ [[], ['u'], ['U']] ∧ unsignedSuffix cs ≤ cs.length := by
  unfold unsignedSuffix
  split <;> simp

theorem isLiteral_of_read? {n : Nat} (h : read? .shader cs = some ⟨false, n⟩) : IsLiteral (cs.take n) ∧ n ≤ cs.length := by
  have hwhole := take_runLength Char.isDigit cs
  -- the digits, and the suffix after them
  have hinteger : ∀ m, m ≤ cs.length → some (integer .shader m (cs.drop m)) = some ⟨false, n⟩ →
      cs.take n = cs.take m ++ (cs.drop m).take (unsignedSuffix (cs.drop m)) ∧ n ≤ cs.length := by
    intro m hm heq
    obtain rfl : m + unsignedSuffix (cs.drop m) = n := congrArg Numeral.length (Option.some.inj heq)
    have hsuffix := (take_unsignedSuffix (cs.drop m)).2
    rw [List.length_drop] at hsuffix
    exact ⟨List.take_add, by omega⟩
  unfold read? at h
  dsimp only at h
  split at h
  · split at h
    · split at h <;> cases h
    · cases h
  · rename_i hne
    split at h
    · rename_i hhex
      unfold hexLength at h hhex
      split at h
      · rename_i x more
        split at h
        · rename_i hx
          have hdigits := take_runLength isHexDigit more
          dsimp only at h hhex
          split at h
          · rename_i hzero
            simp [hx, hzero] at hhex
          · rename_i hpos
            obtain ⟨htake, hle⟩ := hinteger _ (by simpa using hdigits.2) h
            rw [htake, List.take_succ_cons, List.take_succ_cons]
            exact ⟨.hexadecimal (by simpa using hx) hdigits.1 (take_ne_nil hpos hdigits.2) (take_unsignedSuffix _).1, hle⟩
        · rename_i hx
          simp [hx] at hhex
      · rename_i hcs
        split at hhex
        · exact absurd rfl (hcs _ _)
        · exact absurd rfl hhex
    · split at h
      · cases h
      · split at h
        · cases h
        · obtain ⟨htake, hle⟩ := hinteger _ hwhole.2 h
          rw [htake]
          exact ⟨.decimal hwhole.1 (take_ne_nil hne hwhole.2) (take_unsignedSuffix _).1, hle⟩

theorem Parts.beginsPlain (h : Parts rest) : Macro.BeginsPlain rest := fun c hc => (h c hc).1

theorem IsLiteral.isWordChar (h : IsLiteral piece) : ∀ c ∈ piece, isWordChar c = true := by
  have hsuffix : ∀ suffix : List Char, suffix ∈ [[], ['u'], ['U']] → ∀ c ∈ suffix, ShaderFront.isWordChar c = true := by
    intro suffix hmem c hc
    have hc : c = 'u' ∨ c = 'U' := by fin_cases hmem <;> simp_all
    rcases hc with rfl | rfl <;> decide
  cases h with
  | decimal hdigits _ hmem =>
    exact List.forall_mem_append.mpr ⟨fun c hc => Macro.isWordChar_of_isDigit (hdigits c hc), hsuffix _ hmem⟩
  | hexadecimal hx hdigits _ hmem =>
    refine List.forall_mem_cons.mpr ⟨by decide, List.forall_mem_cons.mpr ⟨by fin_cases hx <;> decide, ?_⟩⟩
    exact List.forall_mem_append.mpr ⟨fun c hc => isWordChar_of_isHexDigit (hdigits c hc), hsuffix _ hmem⟩

/-- A literal begins with a digit. -/
theorem IsLiteral.exists_cons (h : IsLiteral piece) : ∃ c more, piece = c :: more ∧ c.isDigit = true := by
  cases h with
  | decimal hdigits hne _ =>
    obtain ⟨c, more, rfl⟩ := List.exists_cons_of_ne_nil hne
    exact ⟨c, _, rfl, hdigits c List.mem_cons_self⟩
  | hexadecimal => exact ⟨'0', _, rfl, by decide⟩

/-- A suffix, and what does not go on with it. -/
theorem unsignedSuffix_append {suffix : List Char} (hsuffix : suffix ∈ [[], ['u'], ['U']]) (hrest : Parts rest) :
    unsignedSuffix (suffix ++ rest) = suffix.length := by
  fin_cases hsuffix
  · cases rest with
    | nil => rfl
    | cons c rest =>
      have hplain := (hrest c rfl).1
      rw [List.nil_append]
      unfold unsignedSuffix
      split
      · rename_i heq
        obtain ⟨rfl, -⟩ := List.cons.inj heq
        exact absurd hplain (by decide)
      · rename_i heq
        obtain ⟨rfl, -⟩ := List.cons.inj heq
        exact absurd hplain (by decide)
      · rfl
  · rfl
  · rfl

/-- **A literal is cut off the front of a text again**, whatever parts it from the rest. -/
theorem IsLiteral.read? (h : IsLiteral piece) (hrest : Parts rest) :
    Numeral.read? .shader (piece ++ rest) = some ⟨false, piece.length⟩ := by
  -- what follows the digits does not go on with them
  have hnext : ∀ {suffix : List Char}, suffix ∈ [[], ['u'], ['U']] → ∀ c ∈ (suffix ++ rest).head?,
      ShaderFront.isWordChar c = false ∧ c ≠ '.' ∨ c ∈ ['u', 'U'] := by
    intro suffix hmem c hc
    fin_cases hmem
    · exact .inl (hrest c hc)
    · exact .inr (by cases hc; decide)
    · exact .inr (by cases hc; decide)
  cases h with
  | @decimal digits suffix hdigits hne hmem =>
    have hends : Ends (suffix ++ rest) := by
      intro c hc
      rcases hnext hmem c hc with ⟨hplain, hpoint⟩ | hc
      · refine ⟨Macro.isDigit_eq_false hplain, ?_⟩
        simp only [List.mem_cons, List.not_mem_nil, or_false, not_or]
        refine ⟨hpoint, ?_, ?_, ?_, ?_⟩ <;> (rintro rfl; exact absurd hplain (by decide))
      · fin_cases hc <;> decide
    rw [List.append_assoc, read?_integer hdigits hne hends]
    show some (Numeral.mk false (digits.length + unsignedSuffix (suffix ++ rest))) = _
    rw [unsignedSuffix_append hmem hrest, List.length_append]
  | @hexadecimal x digits suffix hx hdigits hne hmem =>
    have hhex : ∀ c ∈ (suffix ++ rest).head?, isHexDigit c = false := by
      intro c hc
      rcases hnext hmem c hc with ⟨hplain, -⟩ | hc
      · by_contra hdigit
        rw [isWordChar_of_isHexDigit (by simpa using hdigit)] at hplain
        cases hplain
      · fin_cases hc <;> decide
    have hrun : runLength isHexDigit (digits ++ (suffix ++ rest)) = digits.length := Macro.runLength_run hdigits hhex
    have hlength : digits.length ≠ 0 := List.length_eq_zero_iff.not.mpr hne
    have hhexLength : hexLength ('0' :: x :: (digits ++ (suffix ++ rest))) = digits.length + 2 := by
      simp only [hexLength, hrun, if_neg hlength]
      exact if_pos (by simpa using hx)
    have hwhole : runLength Char.isDigit ('0' :: x :: (digits ++ (suffix ++ rest))) = 1 := by
      have hxdigit : x.isDigit = false := by fin_cases hx <;> decide
      simp [runLength, hxdigit]
    rw [List.cons_append, List.cons_append, List.append_assoc, Numeral.read?]
    simp only [hwhole, one_ne_zero, if_false, hhexLength, ne_eq, Nat.add_eq_zero_iff, hlength, false_and, not_false_eq_true, if_true,
      List.drop_succ_cons, List.drop_left]
    show some (Numeral.mk false (digits.length + 2 + unsignedSuffix (suffix ++ rest))) = _
    rw [unsignedSuffix_append hmem hrest]
    simp only [List.length_cons, List.length_append]
    congr 2
    omega

end Numeral

/-! ## Substitution -/

namespace Macro

variable {parameters : List String} {arguments : List (List Char)}

/-- A text that can be pasted beside anything: it begins with a digit or a parenthesis, stands on one line, and does not close a
comment. -/
structure Quiet (text : List Char) : Prop where
  front : ∃ c more, text = c :: more ∧ (c.isDigit = true ∨ c = '(')
  flat : ∀ c ∈ text, c ≠ '*' ∧ c ≠ '\n'

theorem substitute_plain {front : List Char} (hfront : ∀ c ∈ front, isWordChar c = false) (rest : List Char) :
    substitute parameters arguments (front ++ rest) = front ++ substitute parameters arguments rest := by
  induction front with
  | nil => rfl
  | cons c front ih =>
    obtain ⟨hc, hfront⟩ := List.forall_mem_cons.mp hfront
    rw [List.cons_append, substitute, if_neg (by simp [isWordStart_eq_false hc]), if_neg (by simp [isDigit_eq_false hc]), ih hfront,
      List.cons_append]

theorem substitute_cons {c : Char} (hc : isWordChar c = false) (rest : List Char) :
    substitute parameters arguments (c :: rest) = c :: substitute parameters arguments rest :=
  substitute_plain (List.forall_mem_singleton.mpr hc) rest

theorem substitute_word {c : Char} {more rest : List Char} (hc : isWordStart c = true) (hmore : ∀ d ∈ more, isWordChar d = true)
    (hrest : BeginsPlain rest) : substitute parameters arguments (c :: more ++ rest) =
      (argument? parameters arguments (c :: more)).getD (c :: more) ++ substitute parameters arguments rest := by
  have hrun : runLength isWordChar (more ++ rest) = more.length := runLength_run hmore hrest
  rw [List.cons_append, substitute, if_pos hc]
  simp only [hrun, List.take_left, List.drop_left]

theorem not_isWordStart_of_isDigit {c : Char} (hc : c.isDigit = true) : ¬isWordStart c = true := by
  intro hstart
  rw [(Directive.isOrdinary_of_isWordStart hstart).2.1] at hc
  cases hc

theorem substitute_number {c : Char} {more rest : List Char} (hc : c.isDigit = true)
    (hmore : numberMore c (more ++ rest) = more.length) : substitute parameters arguments (c :: more ++ rest) =
      c :: more ++ substitute parameters arguments rest := by
  rw [List.cons_append, substitute, if_neg (not_isWordStart_of_isDigit hc), if_pos hc]
  simp only [hmore, List.take_left, List.drop_left]

/-! ### Numbers -/

theorem numberTail_run {hex : Bool} {last : Char} {more rest : List Char} (hmore : ∀ c ∈ more, isWordChar c = true)
    (hrest : Numeral.Parts rest) (hlast : hex = true ∨ ∀ c ∈ last :: more, c ≠ 'e' ∧ c ≠ 'E') :
    numberTail hex last (more ++ rest) = more.length := by
  induction more generalizing last with
  | nil =>
    cases rest with
    | nil => rfl
    | cons c rest =>
      obtain ⟨hplain, hpoint⟩ := hrest c rfl
      have hsign : ((last = 'e' || last = 'E') && !hex) = false := by
        rcases hlast with rfl | hlast
        · simp
        · simp [hlast last List.mem_cons_self]
      simp only [List.nil_append, numberTail, hplain, hpoint, decide_false, Bool.or_self, Bool.and_assoc, hsign,
        Bool.and_false, Bool.false_eq_true, if_false, List.length_nil]
  | cons c more ih =>
    obtain ⟨hc, hmore⟩ := List.forall_mem_cons.mp hmore
    rw [List.cons_append, numberTail, if_pos (by simp [hc]), ih hmore (hlast.imp id fun h => (List.forall_mem_cons.mp h).2),
      List.length_cons]

/-- A literal is a number as a whole. -/
theorem numberMore_literal {c : Char} {more rest : List Char} (h : Numeral.IsLiteral (c :: more)) (hrest : Numeral.Parts rest) :
    numberMore c (more ++ rest) = more.length := by
  have hmore := (List.forall_mem_cons.mp h.isWordChar).2
  refine numberTail_run hmore hrest ?_
  generalize hpiece : c :: more = piece at h
  cases h with
  | @decimal digits suffix hdigits _ hsuffix =>
    refine .inr fun d hd => ?_
    rcases List.mem_append.mp hd with hd | hd
    · have hd := hdigits d hd
      constructor <;> (rintro rfl; cases hd)
    · have hd : d = 'u' ∨ d = 'U' := by fin_cases hsuffix <;> simp_all
      rcases hd with rfl | rfl <;> decide
  | @hexadecimal x digits suffix hx _ _ _ =>
    obtain ⟨rfl, rfl⟩ := List.cons.inj hpiece
    exact .inl (by simpa [isHexNumber] using hx)

/-! ### Seams -/

theorem runLength_append_stop {p : Char → Bool} (front : List Char) {back : List Char} (hback : ∀ c ∈ back.head?, p c = false) :
    runLength p (front ++ back) = runLength p front := by
  induction front with
  | nil =>
    cases back with
    | nil => rfl
    | cons c back => simp [runLength, hback c rfl]
  | cons c front ih => rw [List.cons_append, runLength, runLength, ih]

/-- A text that begins like this goes on with no word and no number before it. -/
def Severed (back : List Char) : Prop := ∀ c ∈ back.head?, isWordChar c = false ∧ c ∉ ['.', '+', '-']

theorem numberTail_append {back : List Char} (hback : Severed back) (hex : Bool) (last : Char) (front : List Char) :
    numberTail hex last (front ++ back) = numberTail hex last front := by
  induction front generalizing last with
  | nil =>
    cases back with
    | nil => rfl
    | cons c back =>
      obtain ⟨hplain, hsign⟩ := hback c rfl
      simp only [List.mem_cons, List.not_mem_nil, or_false, not_or] at hsign
      simp [numberTail, hplain, hsign]
  | cons c front ih => rw [List.cons_append, numberTail, numberTail, ih]

theorem numberMore_append {back : List Char} (hback : Severed back) (c : Char) (front : List Char) :
    numberMore c (front ++ back) = numberMore c front := by
  have hhex : isHexNumber c (front ++ back) = isHexNumber c front := by
    cases front with
    | nil =>
      cases back with
      | nil => rfl
      | cons d back =>
        have hd := (hback d rfl).1
        have hne : ∀ x, isWordChar x = true → d ≠ x := by
          rintro x hx rfl
          rw [hx] at hd
          cases hd
        simp [isHexNumber, hne 'x' (by decide), hne 'X' (by decide)]
    | cons d front => rfl
  rw [numberMore, numberMore, hhex, numberTail_append hback]

theorem numberTail_le (hex : Bool) (last : Char) (text : List Char) : numberTail hex last text ≤ text.length := by
  induction text generalizing last with
  | nil => exact le_rfl
  | cons c text ih =>
    rw [numberTail]
    split
    · exact Nat.succ_le_succ (ih c)
    · exact Nat.zero_le _

/-- **Substitution goes part by part** where no word and no number runs over the seam. -/
theorem substitute_append (front : List Char) {back : List Char} (hback : Severed back) :
    substitute parameters arguments (front ++ back) =
      substitute parameters arguments front ++ substitute parameters arguments back := by
  fun_induction substitute parameters arguments front with
  | case1 => rfl
  | case2 c rest hstart more word ih =>
    have hrun : runLength isWordChar (rest ++ back) = more := runLength_append_stop rest fun c hc => (hback c hc).1
    have hle : more ≤ rest.length := (Numeral.take_runLength isWordChar rest).2
    rw [List.cons_append, substitute, if_pos hstart]
    simp only [hrun, List.take_append_of_le_length hle, List.drop_append_of_le_length hle, ih, List.append_assoc]
    rfl
  | case3 c rest hstart hdigit more ih =>
    have hmore : numberMore c (rest ++ back) = more := numberMore_append hback c rest
    have hle : more ≤ rest.length := numberTail_le _ _ _
    rw [List.cons_append, substitute, if_neg hstart, if_pos hdigit]
    simp only [hmore, List.take_append_of_le_length hle, List.drop_append_of_le_length hle, ih, List.cons_append, List.append_assoc]
  | case4 c rest hstart hdigit ih => rw [List.cons_append, substitute, if_neg hstart, if_neg hdigit, ih, List.cons_append]

/-- Two texts begin with the same mark, or neither begins with one, unless it is a parenthesis. -/
def Alike (text text' : List Char) : Prop :=
  ∀ c, isWordChar c = false → c ≠ '(' → (text.head? = some c ↔ text'.head? = some c)

theorem Quiet.head?_ne {text : List Char} (h : Quiet text) {c : Char} (hc : isWordChar c = false) (hparen : c ≠ '(')
    (rest : List Char) : (text ++ rest).head? ≠ some c := by
  obtain ⟨d, more, rfl, hd⟩ := h.front
  rintro ⟨⟩
  rcases hd with hd | hd
  · exact Bool.false_ne_true ((isDigit_eq_false hc).symm.trans hd)
  · exact hparen hd

/-- Substitution leaves the first character, unless it begins a word. -/
theorem alike_substitute (parameters : List String) (harguments : ∀ a ∈ arguments, Quiet a) (text : List Char) :
    Alike text (substitute parameters arguments text) := by
  intro d hd hparen
  cases text with
  | nil => simp [substitute]
  | cons c rest =>
    rw [substitute]
    split
    · rename_i hc
      have hne : c ≠ d := by
        rintro rfl
        rw [isWordChar_of_isWordStart hc] at hd
        cases hd
      refine ⟨fun h => absurd (Option.some.inj h) hne, fun h => ?_⟩
      dsimp only at h
      cases harg : argument? parameters arguments (c :: rest.take (runLength isWordChar rest)) with
      | none =>
        rw [harg] at h
        exact absurd (Option.some.inj h) hne
      | some a =>
        rw [harg] at h
        obtain ⟨i, -, hi⟩ := Option.bind_eq_some_iff.mp harg
        exact absurd h ((harguments a (List.mem_of_getElem? hi)).head?_ne hd hparen _)
    · split <;> rfl

end Macro

/-! ## Comments -/

namespace Directive

open Macro (Quiet Alike substitute argument? numberMore numberTail)

variable {parameters : List String} {arguments : List (List Char)}

theorem hasClose_cons (c : Char) (rest : List Char) :
    hasClose (c :: rest) = (decide (c = '*' ∧ rest.head? = some '/') || hasClose rest) := by
  by_cases h : c = '*' ∧ rest.head? = some '/'
  · obtain ⟨rfl, hrest⟩ := h
    obtain ⟨more, rfl⟩ := List.head?_eq_some_iff.mp hrest
    rfl
  · rw [decide_eq_false h, Bool.false_or, hasClose]
    rintro more rfl rfl
    exact h ⟨rfl, rfl⟩

theorem hasClose_append {front : List Char} (hfront : '*' ∉ front) (rest : List Char) : hasClose (front ++ rest) = hasClose rest := by
  induction front with
  | nil => rfl
  | cons c front ih =>
    obtain ⟨hc, hfront⟩ := not_or.mp (List.mem_cons.not.mp hfront)
    rw [List.cons_append, hasClose_cons, decide_eq_false fun h => hc h.1.symm, Bool.false_or, ih hfront]

theorem closeLength_of_hasClose {text : List Char} (h : hasClose text = false) : closeLength text = text.length := by
  induction text with
  | nil => rfl
  | cons c text ih =>
    rw [hasClose_cons, Bool.or_eq_false_iff] at h
    rw [Macro.closeLength_cons (of_decide_eq_false h.1), ih h.2, List.length_cons]

/-- A comment is closed by the first `*/`. -/
theorem closeLength_front {front : List Char} (h : hasClose (front ++ ['*']) = false) (rest : List Char) :
    closeLength (front ++ '*' :: '/' :: rest) = front.length + 2 := by
  induction front with
  | nil => rfl
  | cons c front ih =>
    rw [List.cons_append, hasClose_cons, Bool.or_eq_false_iff] at h
    have hne : ¬(c = '*' ∧ (front ++ '*' :: '/' :: rest).head? = some '/') := by
      cases front with
      | nil => simp
      | cons d front => exact of_decide_eq_false h.1
    rw [List.cons_append, Macro.closeLength_cons hne, ih h.2, List.length_cons]

theorem closeLength_cases (text : List Char) : hasClose text = false ∧ closeLength text = text.length ∨ ∃ front rest,
    text = front ++ '*' :: '/' :: rest ∧ hasClose (front ++ ['*']) = false ∧ closeLength text = front.length + 2 := by
  cases hclose : hasClose text with
  | false => exact .inl ⟨rfl, closeLength_of_hasClose hclose⟩
  | true =>
    right
    suffices h : ∃ front rest, text = front ++ '*' :: '/' :: rest ∧ hasClose (front ++ ['*']) = false by
      obtain ⟨front, rest, rfl, hfront⟩ := h
      exact ⟨front, rest, rfl, hfront, closeLength_front hfront rest⟩
    induction text with
    | nil => cases hclose
    | cons c text ih =>
      by_cases h : c = '*' ∧ text.head? = some '/'
      · obtain ⟨rfl, hrest⟩ := h
        obtain ⟨rest, rfl⟩ := List.head?_eq_some_iff.mp hrest
        exact ⟨[], rest, rfl, rfl⟩
      · rw [hasClose_cons, decide_eq_false h, Bool.false_or] at hclose
        obtain ⟨front, rest, rfl, hfront⟩ := ih hclose
        refine ⟨c :: front, rest, rfl, ?_⟩
        rw [List.cons_append, hasClose_cons, hfront, Bool.or_false]
        refine decide_eq_false fun hstar => h ⟨hstar.1, ?_⟩
        cases front with
        | nil => cases hstar.2
        | cons d front => exact hstar.2

theorem mem_number {hex : Bool} {last c : Char} {text : List Char} (h : c ∈ text.take (numberTail hex last text)) :
    isWordChar c = true ∨ c ∈ ['.', '+', '-'] := by
  induction text generalizing last with
  | nil => simp at h
  | cons d text ih =>
    rw [numberTail] at h
    split at h
    · rename_i hd
      rw [List.take_succ_cons] at h
      rcases List.mem_cons.mp h with rfl | h
      · simp only [Bool.or_eq_true, Bool.and_eq_true, decide_eq_true_eq] at hd
        rcases hd with (hd | rfl) | ⟨⟨rfl | rfl, -⟩, -⟩
        · exact .inl hd
        all_goals exact .inr (by decide)
      · exact ih h
    · simp at h

theorem ne_of_mem_number {hex : Bool} {last c d : Char} {text : List Char} (h : c ∈ text.take (numberTail hex last text))
    (hd : isWordChar d = false ∧ d ∉ ['.', '+', '-']) : c ≠ d := by
  rintro rfl
  rcases mem_number h with h | h
  · rw [hd.1] at h
    cases h
  · exact hd.2 h

theorem not_mem_of_isWordChar {word : List Char} (h : ∀ c ∈ word, isWordChar c = true) {d : Char} (hd : isWordChar d = false) :
    d ∉ word := by
  intro hmem
  rw [h d hmem] at hd
  cases hd

/-- **Pasting closes no comment and opens none up.** -/
theorem hasClose_substitute (parameters : List String) (harguments : ∀ a ∈ arguments, Quiet a) (text : List Char) :
    hasClose (substitute parameters arguments text) = hasClose text := by
  fun_induction substitute parameters arguments text with
  | case1 => rfl
  | case2 c rest hstart more word ih =>
    have hword : '*' ∉ word := by
      refine not_mem_of_isWordChar (List.forall_mem_cons.mpr ⟨Macro.isWordChar_of_isWordStart hstart, fun d hd => ?_⟩) (by decide)
      exact Macro.of_mem_take_runLength hd
    have hpasted : '*' ∉ (argument? parameters arguments word).getD word := by
      cases hargument : argument? parameters arguments word with
      | none => exact hword
      | some a =>
        obtain ⟨i, -, ha⟩ := Option.bind_eq_some_iff.mp hargument
        exact fun hmem => ((harguments a (List.mem_of_getElem? ha)).flat '*' hmem).1 rfl
    rw [hasClose_append hpasted, ih, ← hasClose_append hword, List.cons_append, List.take_append_drop]
  | case3 c rest hstart hdigit more ih =>
    have hnumber : '*' ∉ c :: rest.take more := by
      refine List.mem_cons.not.mpr (not_or.mpr ⟨?_, fun hmem => ne_of_mem_number hmem (by decide) rfl⟩)
      rintro rfl
      cases hdigit
    rw [hasClose_append hnumber, ih, ← hasClose_append hnumber, List.cons_append, List.take_append_drop]
  | case4 c rest hstart hdigit ih =>
    have hhead := Macro.alike_substitute parameters harguments rest '/' (by decide) (by decide)
    rw [hasClose_cons, hasClose_cons, ih]
    simp only [hhead]

/-! ## Pieces -/

variable {c : Char} {rest : List Char}

/-- Blanks, continuations of a line and comments are skipped. -/
theorem cut_skipped (h : (cut c rest).kind = none) : isGap c = true ∧ (cut c rest).more = runLength isGap rest ∨
    c = '\\' ∧ continuationLength rest ≠ 0 ∧ (cut c rest).more = continuationLength rest ∨
    ∃ length, commentLength? (c :: rest) = some length ∧ isGap c = false ∧ c ≠ '\\' ∧ (cut c rest).more = length - 1 := by
  generalize hnext : cut c rest = next at h
  cases cutting hnext with
  | gap hgap => exact .inl ⟨hgap, rfl⟩
  | continued hc hlength => exact .inr (.inl ⟨hc, hlength, rfl⟩)
  | @comment length hgap hcomment =>
    refine .inr (.inr ⟨length, hcomment, hgap, ?_, rfl⟩)
    rintro rfl
    cases hcomment
  | hash =>
    obtain ⟨kind, -, hkind⟩ := exists_mem_hashKinds rest
    rw [h] at hkind
    cases hkind
  | string => rcases kind_cutString rest with hkind | hkind <;> cases h.symm.trans hkind
  | numeral | word | mark | other => cases h

/-- The ways to cut off a word of an expression: a literal, a name or a mark. -/
inductive Origin (c : Char) (rest : List Char) : TokenKind → Nat → Prop
  | literal {more : Nat} : Numeral.read? .shader (c :: rest) = some ⟨false, more + 1⟩ → Origin c rest .intConstant more
  | label : isWordStart c = true → Origin c rest
      (if c :: rest.take (runLength isWordChar rest) = "defined".toList then .defined else .identifier) (runLength isWordChar rest)
  | mark {kind : TokenKind} {more : Nat} : commentLength? (c :: rest) = none →
      longestLiteral marks (c :: rest) = some (kind, more + 1) → Origin c rest kind more

theorem cut_phrase {kind : TokenKind} (h : (cut c rest).kind = some kind) (hkind : kind.isPhrase = true) :
    Origin c rest kind (cut c rest).more := by
  have hhash : ∀ kind ∈ hashKinds, kind.isPhrase = false := by decide
  generalize hnext : cut c rest = next at h ⊢
  cases cutting hnext with
  | gap | continued | comment => cases h
  | hash =>
    rw [hhash _ (mem_hashKinds h)] at hkind
    cases hkind
  | string => rcases string_or_other h with rfl | rfl <;> cases hkind
  | @numeral n hread =>
    obtain ⟨isFloat, length⟩ := n
    cases isFloat with
    | true =>
      cases h
      cases hkind
    | false =>
      cases h
      obtain ⟨hliteral, -⟩ := Numeral.isLiteral_of_read? hread
      obtain ⟨_, _, htake, -⟩ := hliteral.exists_cons
      cases length with
      | zero => cases htake
      | succ length => exact .literal hread
  | word hstart =>
    cases h
    exact .label hstart
  | mark hcomment hlongest =>
    cases h
    obtain ⟨literal, hmem, -, rfl⟩ := longestLiteral_eq_some hlongest
    have hpos : literal.length - 1 + 1 = literal.length := by
      have hhead := ordinary_of_mem_marks _ hmem
      cases literal with
      | nil => cases hhead
      | cons => rfl
    exact .mark hcomment (by rw [hpos]; exact hlongest)
  | other =>
    cases h
    cases hkind

/-- A literal is cut off where it parts from the rest. -/
theorem cutsOff_literal {piece rest : List Char} (h : Numeral.IsLiteral piece) (hrest : Numeral.Parts rest) :
    CutsOff (some .intConstant) piece rest := by
  have hread := h.read? hrest
  obtain ⟨c, more, rfl, hc⟩ := h.exists_cons
  obtain ⟨hordinary, hslash⟩ := isOrdinary_of_isDigit hc
  refine ⟨c, more, rfl, ?_⟩
  rw [cut_of_isOrdinary hordinary (commentLength?_of_ne hslash _), ← List.cons_append, hread]
  rfl

/-- What begins a mark begins no word. -/
theorem isWordChar_of_mem_marks : ∀ entry ∈ marks, (entry.1.all fun c => !isWordChar c) = true := by
  decide

/-- The characters a mark goes on with. -/
theorem length_of_mem_marks : ∀ entry ∈ marks, entry.1.length = 1 ∨
    entry.1.length = 2 ∧ entry.1.tail.head?.any (fun c => !isWordChar c && c ≠ '(') = true := by
  decide

/-- Whether a text begins with a mark depends on one character after its first. -/
theorem isPrefixOf_alike {entry : List Char × TokenKind} (hentry : entry ∈ marks) (c : Char) {rest rest' : List Char}
    (halike : Alike rest rest') : entry.1.isPrefixOf (c :: rest') = entry.1.isPrefixOf (c :: rest) := by
  have hlength := length_of_mem_marks entry hentry
  rw [Bool.eq_iff_iff, List.isPrefixOf_iff_prefix, List.isPrefixOf_iff_prefix]
  match hliteral : entry.1 with
  | [] => simp
  | [d] => simp [List.cons_prefix_cons]
  | d :: x :: more =>
    simp only [hliteral, List.length_cons, List.tail_cons, List.head?_cons, Option.any_some, Bool.and_eq_true, Bool.not_eq_true',
      decide_eq_true_eq] at hlength
    obtain ⟨hmore, hplain, hparen⟩ := hlength.resolve_left (by omega)
    obtain rfl := List.length_eq_zero_iff.mp (show more.length = 0 by omega)
    have hnext : ∀ text : List Char, [x] <+: text ↔ text.head? = some x := by
      intro text
      cases text <;> simp [List.cons_prefix_cons, eq_comm]
    rw [List.cons_prefix_cons, List.cons_prefix_cons, hnext, hnext, halike x hplain hparen]

theorem longestLiteral_congr {κ : Type} {literals : List (List Char × κ)} {cs cs' : List Char}
    (h : ∀ entry ∈ literals, entry.1.isPrefixOf cs' = entry.1.isPrefixOf cs) :
    longestLiteral literals cs' = longestLiteral literals cs := by
  refine List.foldl_ext _ _ _ fun best entry hentry => ?_
  simp only [h entry hentry]

theorem commentLength?_alike {c : Char} {rest rest' : List Char} (halike : Alike rest rest') (h : commentLength? (c :: rest) = none) :
    commentLength? (c :: rest') = none := by
  refine commentLength?_cons_eq_none.mpr fun hc d hd => ?_
  have hrest := commentLength?_cons_eq_none.mp h hc
  constructor <;> rintro rfl
  · exact (hrest '/' ((halike '/' (by decide) (by decide)).mpr hd)).1 rfl
  · exact (hrest '*' ((halike '*' (by decide) (by decide)).mpr hd)).2 rfl

/-- **A mark is cut off again**, if what follows it begins alike. -/
theorem cutsOff_mark_alike {c : Char} {rest rest' : List Char} {kind : TokenKind} {more : Nat}
    (hcomment : commentLength? (c :: rest) = none) (hlongest : longestLiteral marks (c :: rest) = some (kind, more + 1))
    (halike : Alike (rest.drop more) rest') : CutsOff (some kind) (c :: rest.take more) rest' := by
  obtain ⟨literal, hmem, hfront, hlength⟩ := longestLiteral_eq_some hlongest
  have hpiece : c :: rest.take more = literal := by
    rw [← List.take_succ_cons, hlength]
    exact (List.prefix_iff_eq_take.mp (List.isPrefixOf_iff_prefix.mp hfront)).symm
  have hordinary := ordinary_of_mem_marks _ hmem
  simp only [← hpiece, List.head?_cons, Option.any_some, Bool.and_eq_true, Bool.not_eq_true', decide_eq_true_eq] at hordinary
  obtain ⟨⟨⟨⟨hordinary, hdigit⟩, hpoint⟩, hstart⟩, -⟩ := hordinary
  have hmore : (rest.take more).length = more := by
    have := congrArg List.length hpiece
    rw [List.length_cons] at this
    omega
  -- the text begins as before, whether the mark has one character or two
  have hnext : Alike rest (rest.take more ++ rest') := by
    cases hrest : rest.take more with
    | nil =>
      obtain rfl : more = 0 := by rw [← hmore, hrest]; rfl
      exact halike
    | cons d front =>
      have hhead : rest.head? = some d := by
        rw [← List.take_append_drop more rest, hrest]
        rfl
      intro x _ _
      rw [hhead]
      rfl
  refine ⟨c, rest.take more, rfl, ?_⟩
  rw [cut_of_isOrdinary hordinary (commentLength?_alike hnext hcomment), numeral_eq_none hdigit hpoint]
  simp only [cutPlain, if_neg (Bool.eq_false_iff.mp hstart),
    longestLiteral_congr fun entry hentry => isPrefixOf_alike hentry c hnext, hlongest, hmore, Nat.add_sub_cancel]

/-! ## Skipped pieces -/

theorem head?_drop_runLength {p : Char → Bool} (text : List Char) : ∀ c ∈ (text.drop (runLength p text)).head?, p c = false := by
  induction text with
  | nil => simp
  | cons c text ih =>
    rw [runLength]
    split
    · exact ih
    · rename_i hc
      rintro _ ⟨⟩
      simpa using hc

theorem cut_comment {length : Nat} (h : commentLength? (c :: rest) = some length) : cut c rest = ⟨none, length - 1⟩ := by
  obtain rfl := eq_slash_of_commentLength? h
  rw [cut, if_neg (by decide), if_neg (by simp), if_neg (by decide), if_neg (by decide)]
  generalize commentLength? ('/' :: rest) = comment at h
  subst h
  rfl

/-- A gap stays in front of what is substituted after it. -/
theorem substitute_gap (harguments : ∀ a ∈ arguments, Quiet a) (hc : isGap c = true) :
    ∃ piece, substitute parameters arguments (c :: rest) = piece ++ substitute parameters arguments (rest.drop (runLength isGap rest)) ∧
      CutsOff none piece (substitute parameters arguments (rest.drop (runLength isGap rest))) := by
  have hgap : ∀ d, isGap d = true → isWordChar d = false ∧ d ≠ '(' := by
    intro d hd
    simp only [isGap, Bool.or_eq_true, decide_eq_true_eq] at hd
    rcases hd with (((rfl | rfl) | rfl) | rfl) | rfl <;> decide
  have hrun := (Numeral.take_runLength isGap rest).1
  have hstop : ∀ d ∈ (substitute parameters arguments (rest.drop (runLength isGap rest))).head?, isGap d = false := by
    intro d hd
    by_contra hdgap
    obtain ⟨hplain, hparen⟩ := hgap d (by simpa using hdgap)
    exact hdgap (head?_drop_runLength rest d ((Macro.alike_substitute parameters harguments _ d hplain hparen).mpr hd))
  refine ⟨c :: rest.take (runLength isGap rest), ?_, c, _, rfl, ?_⟩
  · rw [← Macro.substitute_plain (List.forall_mem_cons.mpr ⟨(hgap c hc).1, fun d hd => (hgap d (hrun d hd)).1⟩), List.cons_append,
      List.take_append_drop]
  · rw [cut, if_pos hc, Macro.runLength_run hrun hstop]

/-- The continuation of a line stays. -/
theorem substitute_continuation (h : continuationLength rest ≠ 0) :
    ∃ piece, substitute parameters arguments ('\\' :: rest) =
        piece ++ substitute parameters arguments (rest.drop (continuationLength rest)) ∧
      CutsOff none piece (substitute parameters arguments (rest.drop (continuationLength rest))) := by
  unfold continuationLength at h ⊢
  split at h
  · refine ⟨['\\', '\n'], ?_, '\\', _, rfl, rfl⟩
    rw [Macro.substitute_cons (by decide), Macro.substitute_cons (by decide)]
    rfl
  · refine ⟨['\\', '\r', '\n'], ?_, '\\', _, rfl, rfl⟩
    rw [Macro.substitute_cons (by decide), Macro.substitute_cons (by decide), Macro.substitute_cons (by decide)]
    rfl
  · exact absurd rfl h

/-- A line comment at the end of a text stays one. -/
theorem substitute_lineComment (harguments : ∀ a ∈ arguments, Quiet a) {text : List Char} (h : '\n' ∉ text) :
    ∃ piece, substitute parameters arguments ('/' :: '/' :: text) = piece ∧ CutsOff none piece [] := by
  have hpasted : '\n' ∉ substitute parameters arguments text :=
    Macro.substitute_flat (fun a ha hmem => ((harguments a ha).flat _ hmem).2 rfl) h
  have hrun : runLength (· ≠ '\n') (substitute parameters arguments text ++ []) = (substitute parameters arguments text).length :=
    Macro.runLength_run (fun d hd => by simpa using fun heq : d = '\n' => hpasted (heq ▸ hd)) (by simp)
  refine ⟨_, rfl, '/', '/' :: substitute parameters arguments text, ?_, ?_⟩
  · rw [Macro.substitute_cons (by decide), Macro.substitute_cons (by decide)]
  · rw [List.cons_append, cut_comment rfl, hrun]
    rfl

/-- A block comment that is not closed stays open. -/
theorem substitute_openComment (harguments : ∀ a ∈ arguments, Quiet a) {text : List Char} (h : hasClose text = false) :
    ∃ piece, substitute parameters arguments ('/' :: '*' :: text) = piece ∧ CutsOff none piece [] := by
  have hlength : closeLength (substitute parameters arguments text ++ []) = (substitute parameters arguments text).length := by
    rw [List.append_nil, closeLength_of_hasClose (by rw [hasClose_substitute parameters harguments, h])]
  refine ⟨_, rfl, '/', '*' :: substitute parameters arguments text, ?_, ?_⟩
  · rw [Macro.substitute_cons (by decide), Macro.substitute_cons (by decide)]
  · rw [List.cons_append, cut_comment rfl, hlength]
    rfl

/-- A block comment is closed where it was. -/
theorem substitute_closedComment (harguments : ∀ a ∈ arguments, Quiet a) {front back : List Char}
    (h : hasClose (front ++ ['*']) = false) :
    ∃ piece, substitute parameters arguments ('/' :: '*' :: (front ++ '*' :: '/' :: back)) =
        piece ++ substitute parameters arguments back ∧
      CutsOff none piece (substitute parameters arguments back) := by
  have hsevered : ∀ more, Macro.Severed ('*' :: more) := by
    rintro more _ ⟨⟩
    decide
  have hopen : hasClose (substitute parameters arguments front ++ ['*']) = false := by
    have hpasted := hasClose_substitute parameters harguments (front ++ ['*'])
    rwa [Macro.substitute_append front (hsevered []), Macro.substitute_cons (by decide), substitute, h] at hpasted
  refine ⟨'/' :: '*' :: (substitute parameters arguments front ++ ['*', '/']), ?_, '/', _, rfl, ?_⟩
  · rw [Macro.substitute_cons (by decide), Macro.substitute_cons (by decide), Macro.substitute_append front (hsevered _),
      Macro.substitute_cons (by decide), Macro.substitute_cons (by decide)]
    simp
  · have hlength := closeLength_front hopen (substitute parameters arguments back)
    rw [List.cons_append, List.append_assoc]
    refine (cut_comment rfl).trans ?_
    rw [show ['*', '/'] ++ substitute parameters arguments back = '*' :: '/' :: substitute parameters arguments back from rfl, hlength]
    simp

/-- A comment stays a comment, with the values pasted into it. -/
theorem substitute_comment (harguments : ∀ a ∈ arguments, Quiet a) {length : Nat} (h : commentLength? (c :: rest) = some length)
    (hline : ∀ d ∈ (rest.drop (length - 1)).head?, d ≠ '\n') :
    ∃ piece, substitute parameters arguments (c :: rest) = piece ++ substitute parameters arguments (rest.drop (length - 1)) ∧
      CutsOff none piece (substitute parameters arguments (rest.drop (length - 1))) := by
  have hnil : ∀ {text : List Char}, (∃ piece, substitute parameters arguments text = piece ∧ CutsOff none piece []) →
      ∃ piece, substitute parameters arguments text = piece ++ substitute parameters arguments [] ∧
        CutsOff none piece (substitute parameters arguments []) := by
    rintro text ⟨piece, hpiece, hcuts⟩
    exact ⟨piece, by rw [hpiece, substitute, List.append_nil], by rwa [substitute]⟩
  unfold commentLength? at h
  split at h
  · rename_i text heq
    obtain ⟨rfl, rfl⟩ := List.cons.inj heq
    cases h
    replace hline : ∀ d ∈ (text.drop (runLength (· ≠ '\n') text)).head?, d ≠ '\n' := hline
    -- nothing follows a line comment
    have hdrop : text.drop (runLength (· ≠ '\n') text) = [] := by
      cases hback : text.drop (runLength (· ≠ '\n') text) with
      | nil => rfl
      | cons d more =>
        have hd := head?_drop_runLength (p := (· ≠ '\n')) text d (by rw [hback]; rfl)
        exact absurd (by simpa using hd) (hline d (by rw [hback]; rfl))
    have hflat : '\n' ∉ text := by
      rw [← List.take_append_drop (runLength (· ≠ '\n') text) text, hdrop, List.append_nil]
      exact fun hmem => absurd (Macro.of_mem_take_runLength hmem) (by simp)
    show ∃ piece, _ = piece ++ substitute parameters arguments (text.drop (runLength (· ≠ '\n') text)) ∧
      CutsOff none piece (substitute parameters arguments (text.drop (runLength (· ≠ '\n') text)))
    rw [hdrop]
    exact hnil (substitute_lineComment harguments hflat)
  · rename_i text heq
    obtain ⟨rfl, rfl⟩ := List.cons.inj heq
    cases h
    show ∃ piece, _ = piece ++ substitute parameters arguments (text.drop (closeLength text)) ∧
      CutsOff none piece (substitute parameters arguments (text.drop (closeLength text)))
    rcases closeLength_cases text with ⟨hopen, hlength⟩ | ⟨front, back, rfl, hfront, hlength⟩
    · rw [hlength, List.drop_length]
      exact hnil (substitute_openComment harguments hopen)
    · have hdrop : (front ++ '*' :: '/' :: back).drop (closeLength (front ++ '*' :: '/' :: back)) = back := by
        rw [hlength, ← List.drop_drop, List.drop_left]
        rfl
      rw [hdrop]
      exact substitute_closedComment harguments hfront
  · cases h

/-- **What is skipped stays skipped.** -/
theorem substitute_skipped (parameters : List String) (harguments : ∀ a ∈ arguments, Quiet a) (h : (cut c rest).kind = none)
    (hline : ∀ d ∈ (rest.drop (cut c rest).more).head?, d ≠ '\n') :
    ∃ piece, substitute parameters arguments (c :: rest) =
        piece ++ substitute parameters arguments (rest.drop (cut c rest).more) ∧
      CutsOff none piece (substitute parameters arguments (rest.drop (cut c rest).more)) := by
  rcases cut_skipped h with ⟨hgap, hmore⟩ | ⟨rfl, hlength, hmore⟩ | ⟨length, hcomment, -, -, hmore⟩
  · rw [hmore]
    exact substitute_gap harguments hgap
  · rw [hmore]
    exact substitute_continuation hlength
  · rw [hmore] at hline ⊢
    exact substitute_comment harguments hcomment hline

/-! ## Words -/

/-- What is skipped begins with no character of a word, no point and no line break. -/
theorem plain_of_skipped (h : (cut c rest).kind = none) : isWordChar c = false ∧ c ≠ '.' ∧ c ≠ '\n' := by
  rcases cut_skipped h with ⟨hgap, -⟩ | ⟨rfl, -⟩ | ⟨length, hcomment, -⟩
  · simp only [isGap, Bool.or_eq_true, decide_eq_true_eq] at hgap
    rcases hgap with (((rfl | rfl) | rfl) | rfl) | rfl <;> decide
  · decide
  · obtain rfl := eq_slash_of_commentLength? hcomment
    decide

/-- A mark begins with none of these either. -/
theorem plain_of_longestLiteral {kind : TokenKind} {length : Nat} (h : longestLiteral marks (c :: rest) = some (kind, length)) :
    isWordChar c = false ∧ c ≠ '.' ∧ c ≠ '\n' := by
  obtain ⟨literal, hmem, hfront, -⟩ := longestLiteral_eq_some h
  have hordinary := ordinary_of_mem_marks _ hmem
  have hmark := isWordChar_of_mem_marks _ hmem
  cases literal with
  | nil => cases hordinary
  | cons d literal =>
    obtain rfl := (List.cons_prefix_cons.mp (List.isPrefixOf_iff_prefix.mp hfront)).1
    simp only [List.head?_cons, Option.any_some, Bool.and_eq_true, Bool.not_eq_true', decide_eq_true_eq] at hordinary
    simp only [List.all_cons, Bool.and_eq_true, Bool.not_eq_true'] at hmark
    refine ⟨hmark.1, hordinary.1.1.2, ?_⟩
    rintro rfl
    exact flat_of_mem_marks _ hmem List.mem_cons_self

/-- How the words of an expression begin: a number or a name, a mark, or something skipped. -/
theorem head?_of_phrases {pos : Nat} {cs : List Char} (h : ∀ word ∈ wordsFrom pos cs, word.1.isPhrase = true) :
    ∀ c ∈ cs.head?, c ≠ '.' ∧ c ≠ '\n' ∧
      (isWordChar c = true → ∃ word ∈ (wordsFrom pos cs).head?, word.1.isMark = false) := by
  cases cs with
  | nil => nofun
  | cons c rest =>
    rintro _ ⟨⟩
    -- a character of words is none of the others
    have hword : isWordChar c = true → c ≠ '.' ∧ c ≠ '\n' := by
      intro hc
      constructor <;> (rintro rfl; cases hc)
    have hplain : (isWordChar c = false ∧ c ≠ '.' ∧ c ≠ '\n') → c ≠ '.' ∧ c ≠ '\n' ∧
        (isWordChar c = true → ∃ word ∈ (wordsFrom pos (c :: rest)).head?, word.1.isMark = false) := by
      rintro ⟨hc, hpoint, hbreak⟩
      exact ⟨hpoint, hbreak, fun hc' => absurd hc' (by simp [hc])⟩
    cases hkind : (cut c rest).kind with
    | none =>
      exact hplain (plain_of_skipped hkind)
    | some kind =>
      obtain ⟨next, hwords⟩ := wordsFrom_word hkind pos
      rw [hwords] at h ⊢
      have hphrase := (List.forall_mem_cons.mp h).1
      have horigin := cut_phrase hkind hphrase
      generalize (cut c rest).more = more at horigin hwords
      cases horigin with
      | literal hread =>
        obtain ⟨hliteral, -⟩ := Numeral.isLiteral_of_read? hread
        have hc := hliteral.isWordChar c List.mem_cons_self
        exact ⟨(hword hc).1, (hword hc).2, fun _ => ⟨_, rfl, rfl⟩⟩
      | label hstart =>
        have hc := Macro.isWordChar_of_isWordStart hstart
        refine ⟨(hword hc).1, (hword hc).2, fun _ => ⟨_, rfl, ?_⟩⟩
        dsimp only
        split <;> rfl
      | mark hcomment hlongest =>
        exact hwords ▸ hplain (plain_of_longestLiteral hlongest)

/-- The words of a word, with those of its value for the name of a parameter. -/
def pastedWord (paste : String → List Written) : Written → List Written
  | (.identifier, name) => paste name
  | word => [word]

theorem pastedWord_of_ne {paste : String → List Written} {kind : TokenKind} (h : kind ≠ .identifier) (text : String) :
    pastedWord paste (kind, text) = [(kind, text)] := by
  unfold pastedWord
  split
  · rename_i heq
    exact absurd (Prod.mk.inj heq).1 h
  · rfl

/-- A text can stand for a name: it is divided into words of its own. -/
def Stands (a : List Char) (words : List Written) : Prop :=
  ∀ {rest others}, Numeral.Parts rest → ShaderFront.Divides cut rest others → ShaderFront.Divides cut (a ++ rest) (words ++ others)

/-- What follows a literal or a name follows it after the substitution. -/
theorem parts_substitute (parameters : List String) (harguments : ∀ a ∈ arguments, Quiet a) {text : List Char} (h : Numeral.Parts text) :
    Numeral.Parts (substitute parameters arguments text) := by
  refine fun d hd => ⟨Macro.beginsPlain_substitute parameters arguments h.beginsPlain d hd, ?_⟩
  rintro rfl
  exact (h '.' ((Macro.alike_substitute parameters harguments text '.' (by decide) (by decide)).mpr hd)).2 rfl

theorem divides_piece {kind : TokenKind} {piece text : List Char} {words : List Written} (hcuts : CutsOff (some kind) piece text)
    (h : ShaderFront.Divides cut text words) : ShaderFront.Divides cut (piece ++ text) ((kind, String.ofList piece) :: words) := by
  have hword := @ShaderFront.Divides.word _ cut (kind, String.ofList piece) text words (by rwa [String.toList_ofList]) h
  rwa [String.toList_ofList] at hword

/-- **A word of an expression is cut off again**, or the text that stands for it is. -/
theorem divides_origin (harguments : ∀ a ∈ arguments, Quiet a) {paste : String → List Written} {piece text : List Char}
    {kind : TokenKind} {more : Nat} {words : List Written} (horigin : Origin c rest kind more) (hpiece : piece = c :: rest.take more)
    (htext : text = rest.drop more) (hdefined : kind ≠ .defined)
    (hnext : ∀ d ∈ text.head?, d ≠ '.' ∧ (isWordChar d = true → kind ≠ .intConstant))
    (hname : kind = .identifier → ∃ a, argument? parameters arguments piece = some a ∧ Stands a (paste (String.ofList piece)))
    (h : ShaderFront.Divides cut (substitute parameters arguments text) words) :
    ShaderFront.Divides cut (substitute parameters arguments (piece ++ text)) (pastedWord paste (kind, String.ofList piece) ++ words) := by
  cases horigin with
  | literal hread =>
    obtain ⟨hliteral, -⟩ := Numeral.isLiteral_of_read? hread
    rw [List.take_succ_cons, ← hpiece] at hliteral
    have hparts : Numeral.Parts text := fun d hd => ⟨by_contra fun hd' => (hnext d hd).2 (by simpa using hd') rfl, (hnext d hd).1⟩
    have hcuts := cutsOff_literal hliteral (parts_substitute parameters harguments hparts)
    obtain ⟨d, digits, rfl, hdigit⟩ := hliteral.exists_cons
    rw [Macro.substitute_number hdigit (Macro.numberMore_literal hliteral hparts)]
    exact divides_piece hcuts h
  | label hstart =>
    have hplain : Macro.BeginsPlain text := htext ▸ Macro.beginsPlain_drop_runLength rest
    have hkind : c :: rest.take (runLength isWordChar rest) ≠ "defined".toList := fun heq => hdefined (if_pos heq)
    obtain ⟨a, hargument, hstands⟩ := hname (if_neg hkind)
    have hword : ∀ d ∈ rest.take (runLength isWordChar rest), isWordChar d = true := fun d hd => Macro.of_mem_take_runLength hd
    rw [if_neg hkind, hpiece, Macro.substitute_word hstart hword hplain, ← hpiece, hargument, Option.getD_some]
    exact hstands (parts_substitute parameters harguments fun d hd => ⟨hplain d hd, (hnext d hd).1⟩) h
  | mark hcomment hlongest =>
    obtain ⟨literal, hmem, hfront, hlength⟩ := longestLiteral_eq_some hlongest
    have hliteral : piece = literal := by
      rw [hpiece, ← List.take_succ_cons, hlength]
      exact (List.prefix_iff_eq_take.mp (List.isPrefixOf_iff_prefix.mp hfront)).symm
    have hplain : ∀ d ∈ piece, isWordChar d = false := by
      simpa [hliteral] using isWordChar_of_mem_marks _ hmem
    have hmarks : ∀ entry ∈ marks, entry.2 ≠ .identifier := by decide
    have halike := Macro.alike_substitute parameters harguments text
    rw [htext] at halike
    have hcuts := cutsOff_mark_alike hcomment hlongest halike
    rw [← hpiece, ← htext] at hcuts
    rw [Macro.substitute_plain hplain, pastedWord_of_ne (hmarks _ hmem)]
    exact divides_piece hcuts h

/-- **A text with values pasted into it is divided into its words, with those of the values for the names.** -/
theorem divides_substitute (harguments : ∀ a ∈ arguments, Quiet a) {paste : String → List Written} : ∀ (pos : Nat) (cs : List Char),
    Alternates (wordsFrom pos cs) → (∀ word ∈ wordsFrom pos cs, word.1 ≠ .defined) →
    (∀ name, writtenName name ∈ wordsFrom pos cs →
      ∃ a, argument? parameters arguments name.toList = some a ∧ Stands a (paste name)) →
    ShaderFront.Divides cut (substitute parameters arguments cs) ((wordsFrom pos cs).flatMap (pastedWord paste))
  | pos, [], _, _, _ => by
    rw [substitute, wordsFrom, scan]
    exact .nil
  | pos, c :: rest, halternates, hdefined, hnames => by
    cases hkind : (cut c rest).kind with
    | none =>
      obtain ⟨next, hwords⟩ := wordsFrom_skipped hkind pos
      rw [hwords] at halternates hdefined hnames ⊢
      obtain ⟨piece, hsubstitute, hcuts⟩ := substitute_skipped parameters harguments hkind
        fun d hd => (head?_of_phrases halternates.isPhrase d hd).2.1
      rw [hsubstitute]
      exact .gap hcuts (divides_substitute harguments next _ halternates hdefined hnames)
    | some kind =>
      obtain ⟨next, hwords⟩ := wordsFrom_word hkind pos
      rw [hwords] at halternates hdefined hnames ⊢
      have hback := divides_substitute harguments next _ halternates.tail (List.forall_mem_cons.mp hdefined).2
        fun name hname => hnames name (List.mem_cons_of_mem _ hname)
      have hpiece : c :: rest = c :: rest.take (cut c rest).more ++ rest.drop (cut c rest).more := by
        rw [List.cons_append, List.take_append_drop]
      rw [List.flatMap_cons, hpiece]
      refine divides_origin harguments (cut_phrase hkind (halternates.isPhrase _ List.mem_cons_self)) rfl rfl
        (hdefined _ List.mem_cons_self) (fun d hd => ?_) (fun hkind => ?_) hback
      · obtain ⟨hpoint, -, hchar⟩ := head?_of_phrases halternates.tail.isPhrase d hd
        refine ⟨hpoint, fun hd' hint => ?_⟩
        -- a mark comes after a number, or nothing
        obtain ⟨word, hword, hmark⟩ := hchar hd'
        rw [(List.isChain_cons.mp halternates.chain).1 word hword hint] at hmark
        cases hmark
      · subst hkind
        obtain ⟨a, hargument, hstands⟩ := hnames _ List.mem_cons_self
        exact ⟨a, by rwa [String.toList_ofList] at hargument, hstands⟩
termination_by _ cs => cs.length
decreasing_by all_goals (simp only [List.length_cons, List.length_drop]; omega)

end Directive

end ShaderFront
