import Mathlib
import ShaderFront.Macro.Expand

/-!
# The identifiers of a text

`Macro.identifiers` are the maximal runs of word characters of a text. Expansion makes no new ones: an identifier of a
substituted body stands in the body or in an argument (`Macro.mem_identifiers_substitute`), and an identifier of an
argument stands in the text of its call (`Macro.mem_identifiers_callArguments`). Both hold because texts are only ever put
together where one of the two has no word character at the seam (`Macro.Broken`).
-/

namespace ShaderFront.Macro

/-! ## Runs of word characters -/

/-- The maximal runs of word characters, in order. -/
def identifiers (text : List Char) : List (List Char) :=
  (Text.splitAt (fun c => !isWordChar c) text).filter (· ≠ [])

/-- Whether no word character stands at the end of a text. -/
def EndsPlain (text : List Char) : Prop := ∀ c ∈ text.getLast?, isWordChar c = false

/-- Whether no word character stands at the front of a text. -/
def BeginsPlain (text : List Char) : Prop := ∀ c ∈ text.head?, isWordChar c = false

/-- No run of word characters goes over the seam of two texts. -/
def Broken (left right : List Char) : Prop := EndsPlain left ∨ BeginsPlain right

theorem endsPlain_concat {c : Char} (front : List Char) (hc : isWordChar c = false) : EndsPlain (front ++ [c]) := by
  simpa [EndsPlain] using hc

theorem splitAt_append_cons {p : Char → Bool} {c : Char} (hc : p c = true) (left right : List Char) :
    Text.splitAt p (left ++ c :: right) = Text.splitAt p left ++ Text.splitAt p right := by
  induction left with
  | nil => simp [Text.splitAt, hc]
  | cons d left ih =>
    rw [List.cons_append, Text.splitAt, Text.splitAt, ih]
    by_cases hd : p d = true
    · simp [hd]
    · cases hleft : Text.splitAt p left with
      | nil => exact absurd hleft (by cases left <;> grind [Text.splitAt])
      | cons part parts => simp [hd]

@[simp] theorem identifiers_nil : identifiers [] = [] := rfl

/-- A character that is no word character divides the identifiers. -/
theorem identifiers_append_cons {c : Char} (hc : isWordChar c = false) (left right : List Char) :
    identifiers (left ++ c :: right) = identifiers left ++ identifiers right := by
  rw [identifiers, splitAt_append_cons (by simp [hc]), List.filter_append]
  rfl

theorem identifiers_cons {c : Char} (hc : isWordChar c = false) (text : List Char) :
    identifiers (c :: text) = identifiers text := by
  simpa using identifiers_append_cons hc [] text

theorem identifiers_append {left right : List Char} (h : Broken left right) :
    identifiers (left ++ right) = identifiers left ++ identifiers right := by
  rcases h with hends | hbegins
  · rcases List.eq_nil_or_concat left with rfl | ⟨front, c, rfl⟩
    · rfl
    · have hc : isWordChar c = false := hends c (by simp)
      have hleft := identifiers_append_cons hc front []
      have hboth := identifiers_append_cons hc front right
      simp_all
  · cases right with
    | nil => simp
    | cons c right =>
      have hc : isWordChar c = false := hbegins c rfl
      rw [identifiers_append_cons hc, identifiers_cons hc]

theorem splitAt_of_forall {p : Char → Bool} {text : List Char} (h : ∀ c ∈ text, p c = false) :
    Text.splitAt p text = [text] := by
  induction text with
  | nil => rfl
  | cons c text ih =>
    have hc : p c = false := h c List.mem_cons_self
    rw [Text.splitAt, ih fun x hx => h x (List.mem_cons_of_mem c hx)]
    simp [hc]

/-- A run of word characters is one identifier. -/
theorem identifiers_word {word : List Char} (hne : word ≠ []) (h : ∀ c ∈ word, isWordChar c = true) :
    identifiers word = [word] := by
  rw [identifiers, splitAt_of_forall fun c hc => by simp [h c hc]]
  simp [hne]

/-! ## Where a run ends -/

theorem beginsPlain_drop_runLength (text : List Char) : BeginsPlain (text.drop (runLength isWordChar text)) := by
  induction text with
  | nil => simp [BeginsPlain]
  | cons c text ih =>
    rw [runLength]
    by_cases hc : isWordChar c = true
    · simpa [hc] using ih
    · simp [hc, BeginsPlain]

theorem of_mem_take_runLength {p : Char → Bool} {text : List Char} {c : Char} (h : c ∈ text.take (runLength p text)) :
    p c = true := by
  induction text with
  | nil => simp at h
  | cons d text ih =>
    rw [runLength] at h
    by_cases hd : p d = true
    · rw [if_pos hd, List.take_succ_cons] at h
      rcases List.mem_cons.mp h with rfl | h
      · exact hd
      · exact ih h
    · simp [hd] at h

/-- A run ends where what follows it does not go on with it. -/
theorem runLength_run {p : Char → Bool} {run rest : List Char} (hrun : ∀ c ∈ run, p c = true)
    (hrest : ∀ c ∈ rest.head?, p c = false) : runLength p (run ++ rest) = run.length := by
  induction run with
  | nil =>
    cases rest with
    | nil => rfl
    | cons c rest => simp [runLength, hrest c rfl]
  | cons c run ih =>
    obtain ⟨hc, hrun⟩ := List.forall_mem_cons.mp hrun
    rw [List.cons_append, runLength, if_pos hc, ih hrun, List.length_cons]

theorem isWordChar_of_isWordStart {c : Char} (h : isWordStart c = true) : isWordChar c = true := by
  simp only [isWordStart, isWordChar, Char.isAlphanum, Bool.or_eq_true] at h ⊢
  tauto

theorem isWordChar_of_isDigit {c : Char} (h : c.isDigit = true) : isWordChar c = true := by
  simp [isWordChar, Char.isAlphanum, h]

theorem isWordStart_eq_false {c : Char} (h : isWordChar c = false) : isWordStart c = false :=
  eq_false_of_ne_true fun hstart => Bool.false_ne_true (h.symm.trans (isWordChar_of_isWordStart hstart))

theorem isDigit_eq_false {c : Char} (h : isWordChar c = false) : c.isDigit = false :=
  eq_false_of_ne_true fun hdigit => Bool.false_ne_true (h.symm.trans (isWordChar_of_isDigit hdigit))

/-- A word at the front of a text is an identifier of its own. -/
theorem identifiers_front {c : Char} (hc : isWordStart c = true) (rest : List Char) :
    identifiers (c :: rest.take (runLength isWordChar rest)) = [c :: rest.take (runLength isWordChar rest)] := by
  refine identifiers_word (by simp) fun d hd => ?_
  rcases List.mem_cons.mp hd with rfl | hd
  · exact isWordChar_of_isWordStart hc
  · exact of_mem_take_runLength hd

theorem beginsPlain_drop_numberTail (hex : Bool) (last : Char) (text : List Char) :
    BeginsPlain (text.drop (numberTail hex last text)) := by
  induction text generalizing last with
  | nil => simp [BeginsPlain]
  | cons c text ih =>
    rw [numberTail]
    split
    · simpa using ih c
    · rename_i h
      simp only [Bool.or_eq_true, not_or] at h
      simpa [BeginsPlain] using h.1.1

theorem isWordChar_eq_false {c : Char} (hstart : isWordStart c = false) (hdigit : c.isDigit = false) :
    isWordChar c = false := by
  simp_all [isWordStart, isWordChar, Char.isAlphanum]

/-! ## Substitution -/

/-- Substitution keeps a front without word characters. -/
theorem beginsPlain_substitute (parameters : List String) (arguments : List (List Char)) {text : List Char}
    (h : BeginsPlain text) : BeginsPlain (substitute parameters arguments text) := by
  cases text with
  | nil => simpa [substitute] using h
  | cons c rest =>
    have hc : isWordChar c = false := h c rfl
    simpa [substitute, isWordStart_eq_false hc, isDigit_eq_false hc, BeginsPlain] using hc

/-- An identifier of a substituted body stands in the body or in an argument. -/
theorem mem_identifiers_substitute {parameters : List String} {arguments : List (List Char)} {body word : List Char}
    (h : word ∈ identifiers (substitute parameters arguments body)) :
    word ∈ identifiers body ∨ ∃ a ∈ arguments, word ∈ identifiers a := by
  fun_induction substitute parameters arguments body with
  | case1 => simp at h
  | case2 c rest hstart more front ih =>
    have hbreak : BeginsPlain (rest.drop more) := beginsPlain_drop_runLength rest
    have hbody : identifiers (c :: rest) = identifiers front ++ identifiers (rest.drop more) := by
      rw [← identifiers_append (Or.inr hbreak), List.cons_append, List.take_append_drop]
    rw [identifiers_append (Or.inr (beginsPlain_substitute _ _ hbreak)), List.mem_append] at h
    rw [hbody, List.mem_append]
    rcases h with h | h
    · cases harg : argument? parameters arguments front with
      | none => exact Or.inl (Or.inl (by simpa [harg] using h))
      | some a =>
        obtain ⟨i, -, hi⟩ := Option.bind_eq_some_iff.mp harg
        exact Or.inr ⟨a, List.mem_of_getElem? hi, by simpa [harg] using h⟩
    · exact (ih h).imp_left Or.inr
  | case3 c rest hstart hdigit more ih =>
    have hbreak : BeginsPlain (rest.drop more) := beginsPlain_drop_numberTail _ c rest
    have hbody : identifiers (c :: rest) = identifiers (c :: rest.take more) ++ identifiers (rest.drop more) := by
      rw [← identifiers_append (Or.inr hbreak), List.cons_append, List.take_append_drop]
    rw [identifiers_append (Or.inr (beginsPlain_substitute _ _ hbreak)), List.mem_append] at h
    rw [hbody, List.mem_append]
    rcases h with h | h
    · exact Or.inl (Or.inl h)
    · exact (ih h).imp_left Or.inr
  | case4 c rest hstart hdigit ih =>
    have hc : isWordChar c = false := isWordChar_eq_false (by simpa using hstart) (by simpa using hdigit)
    rw [identifiers_cons hc] at h ⊢
    exact ih h

/-! ## Arguments -/

theorem isWordChar_of_isBlank {c : Char} (h : Text.isBlank c = true) : isWordChar c = false := by
  have hval : c.toNat = c.val.toNat := rfl
  have hblank : c.toNat ≤ 32 ∨ 133 ≤ c.toNat := by
    simp only [Text.isBlank, Text.blankRanges, List.any_cons, List.any_nil, Bool.or_eq_true, Bool.and_eq_true,
      decide_eq_true_eq, Bool.or_false] at h
    omega
  by_contra hword
  simp only [isWordChar, Char.isAlphanum, Char.isAlpha, Char.isUpper, Char.isLower, Char.isDigit, Bool.not_eq_false,
    Bool.or_eq_true, Bool.and_eq_true, decide_eq_true_eq, ge_iff_le, UInt32.le_iff_toNat_le] at hword
  rcases hword with hword | rfl
  · have hA : 'A'.val.toNat = 65 := rfl
    have hZ : 'Z'.val.toNat = 90 := rfl
    have ha : 'a'.val.toNat = 97 := rfl
    have hz : 'z'.val.toNat = 122 := rfl
    have h0 : '0'.val.toNat = 48 := rfl
    have h9 : '9'.val.toNat = 57 := rfl
    omega
  · revert hblank
    decide

/-- The identifiers of words set apart by blanks. -/
theorem identifiers_intercalate (words : List (List Char)) :
    identifiers ([' '].intercalate words) = words.flatMap identifiers := by
  induction words with
  | nil => rfl
  | cons word words ih =>
    cases words with
    | nil => simp
    | cons next words =>
      rw [List.intercalate_cons_cons, List.flatMap_cons, ← ih, List.append_assoc, List.singleton_append,
        identifiers_append_cons (by decide)]

theorem identifiers_wordsFrom (word text : List Char) :
    ((Text.wordsFrom word text).map String.toList).flatMap identifiers = identifiers (word.reverse ++ text) := by
  fun_induction Text.wordsFrom word text with
  | case1 => simp_all
  | case2 => simp_all
  | case3 word c rest hblank hempty ih =>
    have hword : word = [] := by simpa using hempty
    rw [ih, hword, identifiers_append_cons (isWordChar_of_isBlank hblank)]
    rfl
  | case4 word c rest hblank hempty ih =>
    rw [identifiers_append_cons (isWordChar_of_isBlank hblank), List.map_cons, List.flatMap_cons, ih]
    simp
  | case5 word c rest hblank ih => simpa using ih

/-- Normalising an argument keeps its identifiers. -/
theorem identifiers_normalize (a : List Char) : identifiers (normalize a) = identifiers a := by
  rw [normalize, String.toList_intercalate]
  have h := identifiers_wordsFrom [] a
  simpa [Text.words, identifiers_intercalate] using h

/-- An identifier of an argument stands in the text that is read. -/
theorem mem_identifiers_readArguments {depth length : Nat} {current text a word : List Char} {call : Call}
    (h : readArguments depth current length text = some call) (ha : a ∈ call.arguments) (hword : word ∈ identifiers a) :
    word ∈ identifiers (current.reverse ++ text) := by
  fun_induction readArguments depth current length text generalizing call with
  | case1 => simp at h
  | case2 depth current length c rest n hcomment ih => simpa using ih h ha
  | case3 depth current length rest hcomment ih => simpa using ih h ha
  | case4 current length rest hcomment hclose =>
    obtain rfl := Option.some.inj h
    obtain rfl := List.mem_singleton.mp ha
    rw [identifiers_append_cons (by decide)]
    exact List.mem_append_left _ hword
  | case5 depth current length rest hdepth hcomment hclose ih => simpa using ih h ha
  | case6 depth current length c rest hcomment hopen hclose hcomma ih =>
    obtain ⟨inner, hinner, rfl⟩ := Option.map_eq_some_iff.mp h
    have hc : isWordChar c = false := by
      simp only [Bool.and_eq_true, decide_eq_true_eq] at hcomma
      rw [hcomma.1]
      decide
    rw [identifiers_append_cons hc, List.mem_append]
    rcases List.mem_cons.mp ha with rfl | ha
    · exact Or.inl hword
    · exact Or.inr (by simpa using ih hinner ha)
  | case7 depth current length c rest hcomment hopen hclose hcomma ih => simpa using ih h ha

theorem readCall?_eq_some {text : List Char} {call : Call} (h : readCall? text = some call) :
    ∃ rest, text = '(' :: rest ∧ readArguments 0 [] 1 rest = some call := by
  unfold readCall? at h
  split at h
  · exact ⟨_, rfl, h⟩
  · simp at h

/-- An identifier of an argument of a call stands in the text of the call. -/
theorem mem_identifiers_callArguments {parameterCount : Nat} {text a word : List Char} {call : Call}
    (h : readCall? text = some call) (ha : a ∈ callArguments parameterCount call) (hword : word ∈ identifiers a) :
    word ∈ identifiers text := by
  obtain ⟨rest, rfl, hread⟩ := readCall?_eq_some h
  obtain ⟨raw, hraw, rfl⟩ : ∃ raw ∈ call.arguments, normalize raw = a := by
    simp only [callArguments] at ha
    split at ha
    · simp at ha
    · simpa using ha
  rw [identifiers_normalize] at hword
  rw [identifiers_cons (by decide)]
  simpa using mem_identifiers_readArguments hread hraw hword

end ShaderFront.Macro
