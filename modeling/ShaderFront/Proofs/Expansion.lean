import Mathlib
import ShaderFront.Proofs.Division
import ShaderFront.Proofs.Identifiers

/-!
# One pass of an expansion

An expansion goes over a text piece by piece: comments, numbers, words and single characters (`Macro.pieceMore`,
`Macro.pieces`). Only words can change. `Macro.verdict` says what becomes of one: it stays, it stays together with a call
that has the wrong number of arguments, or it becomes a replacement. `Macro.text_expandWith_word` and
`Macro.text_expandWith_plain` describe the pass in these terms.

How a call is read depends on its own characters alone (`Macro.readArguments_used`, `Macro.callVerdict_keeps`).
-/

namespace ShaderFront.Macro

/-! ## What becomes of a word -/

/-- What becomes of a word of a text. -/
inductive Verdict where
  | stays
  /-- The word stays, and so do the characters of the call after it. -/
  | keeps (consumed : Nat)
  /-- A replacement, followed by line breaks, takes the place of the word and of some characters after it. -/
  | becomes (replacement : List Char) (consumed newlines : Nat)
deriving DecidableEq

namespace Verdict

/-- The number of characters after the word that the verdict is about. -/
def consumed : Verdict → Nat
  | .stays => 0
  | .keeps n => n
  | .becomes _ n _ => n

/-- What stands in the result for the word and the characters after it. -/
def text (inner : List Char → List Char) (word after : List Char) : Verdict → List Char
  | .stays => word
  | .keeps n => word ++ after.take n
  | .becomes replacement _ newlines => inner replacement ++ List.replicate newlines '\n'

end Verdict

/-- What becomes of a macro with parameters. -/
def callVerdict (m : Macro) (parameters : List String) (after : List Char) : Verdict :=
  let blanks := runLength Text.isBlank after
  match readCall? (after.drop blanks) with
  | none => .stays
  | some call =>
    let arguments := callArguments parameters.length call
    let consumed := blanks + call.length
    if arguments.length ≠ parameters.length then .keeps consumed
    else .becomes (substitute parameters arguments m.body.toList) consumed (Text.newlineCount (after.take consumed))

/-- What becomes of a word. -/
def verdict (scope : Scope) (word after : List Char) : Verdict :=
  match scope.macros.get? (String.ofList word) with
  | none => .stays
  | some m =>
    if String.ofList word ∈ scope.active ∨ scope.maxDepth ≤ scope.active.length then .stays
    else
      match m.parameters with
      | none => .becomes m.body.toList 0 0
      | some parameters => callVerdict m parameters after

/-- A replacement is the body of a macro, with arguments for its parameters if it has any. -/
theorem verdict_becomes {scope : Scope} {word after replacement : List Char} {n newlines : Nat}
    (h : verdict scope word after = .becomes replacement n newlines) :
    ∃ m, scope.macros.get? (String.ofList word) = some m ∧ String.ofList word ∉ scope.active ∧
      scope.active.length < scope.maxDepth ∧
      ((m.parameters = none ∧ replacement = m.body.toList ∧ n = 0 ∧ newlines = 0) ∨
        ∃ parameters call, m.parameters = some parameters ∧
          readCall? (after.drop (runLength Text.isBlank after)) = some call ∧
          replacement = substitute parameters (callArguments parameters.length call) m.body.toList ∧
          n = runLength Text.isBlank after + call.length ∧ newlines = Text.newlineCount (after.take n)) := by
  rw [verdict] at h
  cases hm : scope.macros.get? (String.ofList word) with
  | none => simp [hm] at h
  | some m =>
    simp only [hm] at h
    by_cases hguard : String.ofList word ∈ scope.active ∨ scope.maxDepth ≤ scope.active.length
    · simp [hguard] at h
    · rw [if_neg hguard] at h
      obtain ⟨hactive, hdepth⟩ := not_or.mp hguard
      refine ⟨m, rfl, hactive, Nat.lt_of_not_le hdepth, ?_⟩
      cases hparameters : m.parameters with
      | none =>
        simp only [hparameters, Verdict.becomes.injEq] at h
        obtain ⟨rfl, rfl, rfl⟩ := h
        exact Or.inl ⟨rfl, rfl, rfl, rfl⟩
      | some parameters =>
        refine Or.inr ⟨parameters, ?_⟩
        simp only [hparameters, callVerdict] at h
        cases hcall : readCall? (after.drop (runLength Text.isBlank after)) with
        | none => simp [hcall] at h
        | some call =>
          simp only [hcall] at h
          split at h
          · simp at h
          · simp only [Verdict.becomes.injEq] at h
            obtain ⟨rfl, rfl, rfl⟩ := h
            exact ⟨call, rfl, rfl, rfl, rfl, rfl⟩

/-- A call that is kept is one of a macro with parameters. -/
theorem verdict_keeps {scope : Scope} {word after : List Char} {n : Nat} (h : verdict scope word after = .keeps n) :
    ∃ m parameters, scope.macros.get? (String.ofList word) = some m ∧ m.parameters = some parameters ∧
      callVerdict m parameters after = .keeps n := by
  rw [verdict] at h
  cases hm : scope.macros.get? (String.ofList word) with
  | none => simp [hm] at h
  | some m =>
    simp only [hm] at h
    split at h
    · simp at h
    · cases hparameters : m.parameters with
      | none => simp [hparameters] at h
      | some parameters => exact ⟨m, parameters, rfl, hparameters, by simpa [hparameters] using h⟩

theorem readCall?_eq_none {text : List Char} (h : ∀ rest, text ≠ '(' :: rest) : readCall? text = none := by
  unfold readCall?
  split
  · exact absurd rfl (h _)
  · rfl

theorem replaceCall_spec (inner : String → List Char → Expansion) (m : Macro) (parameters : List String)
    (word after : List Char) :
    (replaceCall inner m parameters word after).text =
        (callVerdict m parameters after).text (fun r => (inner (String.ofList word) r).text) word after ∧
      (replaceCall inner m parameters word after).consumed = (callVerdict m parameters after).consumed := by
  simp only [replaceCall, callVerdict]
  split
  · rename_i rest hdrop
    rw [hdrop]
    split
    · simp [keep, Verdict.text, Verdict.consumed, *]
    · split <;> simp [keep, Verdict.text, Verdict.consumed, *]
  · rename_i hdrop
    rw [readCall?_eq_none hdrop]
    simp [keep, Verdict.text, Verdict.consumed]

theorem replaceWord_spec (inner : String → List Char → Expansion) (scope : Scope) (word after : List Char) :
    (replaceWord inner scope word after).text =
        (verdict scope word after).text (fun r => (inner (String.ofList word) r).text) word after ∧
      (replaceWord inner scope word after).consumed = (verdict scope word after).consumed := by
  rw [replaceWord, verdict]
  cases hm : scope.macros.get? (String.ofList word) with
  | none => simp [keep, Verdict.text, Verdict.consumed]
  | some m =>
    by_cases hactive : String.ofList word ∈ scope.active
    · simp [hactive, keep, Verdict.text, Verdict.consumed]
    · by_cases hdepth : scope.maxDepth ≤ scope.active.length
      · simp [hactive, hdepth, keep, Verdict.text, Verdict.consumed]
      · simp only [hactive, hdepth, if_false, or_self]
        cases hparameters : m.parameters with
        | none => simp [Verdict.text, Verdict.consumed]
        | some parameters => exact replaceCall_spec inner m parameters word after

/-! ## Pieces -/

/-- The length of a piece after its first character. -/
def pieceMore (c : Char) (rest : List Char) : Nat :=
  match commentLength? (c :: rest) with
  | some n => n - 1
  | none => if isNumber c rest then numberMore c rest else if isWordStart c then runLength isWordChar rest else 0

/-- The comments, numbers, words and single characters that a text is read as. -/
def pieces : List Char → List (List Char)
  | [] => []
  | c :: rest => (c :: rest.take (pieceMore c rest)) :: pieces (rest.drop (pieceMore c rest))
termination_by text => text.length
decreasing_by simp only [List.length_cons, List.length_drop]; omega

/-- Whether a piece is a word. -/
def isWord (piece : List Char) : Bool := piece.head?.any isWordStart

theorem ne_slash_of_isWordStart {c : Char} (hc : isWordStart c = true) : c ≠ '/' := by
  rintro rfl
  revert hc
  decide

theorem isNumber_of_isWordStart {c : Char} (hc : isWordStart c = true) (rest : List Char) :
    isNumber c rest = false := by
  have hdigit : c.isDigit = false := by
    have h9 : '9'.val.toNat = 57 := rfl
    have hA : 'A'.val.toNat = 65 := rfl
    have ha : 'a'.val.toNat = 97 := rfl
    by_contra hdigit
    simp only [isWordStart, Char.isAlpha, Char.isUpper, Char.isLower, Char.isDigit, Bool.not_eq_false,
      Bool.or_eq_true, Bool.and_eq_true, decide_eq_true_eq, ge_iff_le, UInt32.le_iff_toNat_le] at hc hdigit
    rcases hc with hc | rfl
    · omega
    · revert hdigit
      decide
  have hdot : c ≠ '.' := by
    rintro rfl
    revert hc
    decide
  simp [isNumber, hdigit, hdot]

theorem pieceMore_of_isWordStart {c : Char} (hc : isWordStart c = true) (rest : List Char) :
    pieceMore c rest = runLength isWordChar rest := by
  rw [pieceMore, commentLength?_of_ne (ne_slash_of_isWordStart hc)]
  simp [isNumber_of_isWordStart hc, hc]

section Pass

variable (inner : String → List Char → Expansion) (scope : Scope) {c : Char} (rest : List Char)

/-- A pass over a text that begins with a word goes by the verdict on the word. -/
theorem text_expandWith_word (hc : isWordStart c = true) :
    let word := c :: rest.take (pieceMore c rest)
    let after := rest.drop (pieceMore c rest)
    let v := verdict scope word after
    (expandWith inner scope (c :: rest)).text =
      v.text (fun r => (inner (String.ofList word) r).text) word after ++
        (expandWith inner scope (after.drop v.consumed)).text := by
  intro word after v
  obtain ⟨htext, hconsumed⟩ := replaceWord_spec inner scope word after
  rw [expandWith, commentLength?_of_ne (ne_slash_of_isWordStart hc)]
  simp only [isNumber_of_isWordStart hc, hc, if_true, ← pieceMore_of_isWordStart hc]
  simp only [Expansion.noting, Expansion.after, Bool.false_eq_true, if_false]
  rw [← htext, ← hconsumed]

/-- A pass keeps a piece that is no word. -/
theorem text_expandWith_plain (hc : isWordStart c = false) :
    (expandWith inner scope (c :: rest)).text =
      c :: rest.take (pieceMore c rest) ++ (expandWith inner scope (rest.drop (pieceMore c rest))).text := by
  rw [expandWith, pieceMore]
  cases commentLength? (c :: rest) with
  | some n => simp [Expansion.after]
  | none =>
    by_cases hnumber : isNumber c rest = true
    · simp [Expansion.after, hnumber]
    · simp [Expansion.after, hnumber, hc]

end Pass

/-! ## Seams between pieces -/

theorem drop_runLength_newline (text : List Char) : BeginsPlain (text.drop (runLength (· ≠ '\n') text)) := by
  induction text with
  | nil => simp [BeginsPlain]
  | cons c text ih =>
    rw [runLength]
    by_cases hc : c = '\n'
    · subst hc
      simp [BeginsPlain]
      decide
    · simpa [hc] using ih

/-- A block comment is closed by a slash, or nothing follows it. -/
theorem broken_closeLength (text : List Char) :
    text.drop (closeLength text) = [] ∨
      ∃ front, text.take (closeLength text) = front ++ ['/'] := by
  fun_induction closeLength text with
  | case1 => simp
  | case2 rest => exact Or.inr ⟨['*'], rfl⟩
  | case3 c rest _ ih =>
    rcases ih with ih | ⟨front, ih⟩
    · exact Or.inl (by simpa using ih)
    · exact Or.inr ⟨c :: front, by simp [ih]⟩

/-- No word goes over the end of a piece. -/
theorem broken_piece (c : Char) (rest : List Char) :
    Broken (c :: rest.take (pieceMore c rest)) (rest.drop (pieceMore c rest)) := by
  rw [pieceMore]
  cases hcomment : commentLength? (c :: rest) with
  | some n =>
    unfold commentLength? at hcomment
    split at hcomment
    · rename_i rest' hlist
      obtain ⟨rfl, rfl⟩ := List.cons_eq_cons.mp hlist
      obtain rfl := Option.some.inj hcomment
      exact Or.inr (by simpa using drop_runLength_newline rest')
    · rename_i rest' hlist
      obtain ⟨rfl, rfl⟩ := List.cons_eq_cons.mp hlist
      obtain rfl := Option.some.inj hcomment
      rcases broken_closeLength rest' with h | ⟨front, h⟩
      · exact Or.inr (by simp [h, BeginsPlain])
      · have hpiece : '/' :: ('*' :: rest').take (closeLength rest' + 2 - 1) = '/' :: '*' :: front ++ ['/'] := by
          simp [h]
        simp only
        rw [hpiece]
        exact Or.inl (endsPlain_concat _ (by decide))
    · simp at hcomment
  | none =>
    by_cases hnumber : isNumber c rest = true
    · exact Or.inr (by simpa [hnumber, numberMore] using beginsPlain_drop_numberTail (isHexNumber c rest) c rest)
    · by_cases hstart : isWordStart c = true
      · exact Or.inr (by simpa [hnumber, hstart] using beginsPlain_drop_runLength rest)
      · have hdigit : c.isDigit = false := by
          by_contra hdigit
          simp [isNumber, hdigit] at hnumber
        exact Or.inl (by simpa [hnumber, hstart, EndsPlain] using isWordChar_eq_false (by simpa using hstart) hdigit)

/-- The identifiers of a text are those of its first piece and of the rest. -/
theorem identifiers_piece (c : Char) (rest : List Char) :
    identifiers (c :: rest) =
      identifiers (c :: rest.take (pieceMore c rest)) ++ identifiers (rest.drop (pieceMore c rest)) := by
  rw [← identifiers_append (broken_piece c rest), List.cons_append, List.take_append_drop]

/-- If a text is cut where two texts meet, the second is cut as it is cut alone. -/
theorem pieces_of_append {x y : List Char} {more : List (List Char)} (h : pieces (x ++ y) = pieces x ++ more) :
    pieces y = more := by
  fun_induction pieces x with
  | case1 => simpa using h
  | case2 c rest ih =>
    rw [List.cons_append, pieces, List.cons_append, List.cons_eq_cons] at h
    obtain ⟨hfront, hback⟩ := h
    have hrest : (rest ++ y).drop (pieceMore c (rest ++ y)) = rest.drop (pieceMore c rest) ++ y := by
      have htake := (List.cons_eq_cons.mp hfront).2
      refine List.append_cancel_left (?_ : rest.take (pieceMore c rest) ++ _ = rest.take (pieceMore c rest) ++ _)
      calc rest.take (pieceMore c rest) ++ (rest ++ y).drop (pieceMore c (rest ++ y))
          = rest ++ y := by rw [← htake, List.take_append_drop]
        _ = rest.take (pieceMore c rest) ++ (rest.drop (pieceMore c rest) ++ y) := by
            rw [← List.append_assoc, List.take_append_drop]
    rw [hrest] at hback
    exact ih hback

/-! ## Calls and what follows them -/

theorem runLength_append {p : Char → Bool} {text rest : List Char} (h : runLength p (text ++ rest) < text.length)
    (tail : List Char) : runLength p (text ++ tail) = runLength p (text ++ rest) := by
  induction text with
  | nil => simp at h
  | cons c text ih =>
    rw [List.cons_append, List.cons_append, runLength, runLength] at *
    by_cases hc : p c = true
    · simp only [hc, if_true, List.length_cons, Nat.add_lt_add_iff_right] at h ⊢
      rw [ih h]
    · simp [hc]

theorem closeLength_cons {c : Char} {rest : List Char} (h : ¬(c = '*' ∧ rest.head? = some '/')) :
    closeLength (c :: rest) = closeLength rest + 1 := by
  rw [closeLength]
  rintro tail rfl rfl
  exact h ⟨rfl, rfl⟩

theorem closeLength_append {text rest : List Char} (h : closeLength (text ++ rest) < text.length) (tail : List Char) :
    closeLength (text ++ tail) = closeLength (text ++ rest) := by
  induction text with
  | nil => simp at h
  | cons c text ih =>
    cases text with
    | nil =>
      by_cases hclose : c = '*' ∧ rest.head? = some '/'
      · obtain ⟨rfl, hrest⟩ := hclose
        obtain ⟨rest, rfl⟩ : ∃ r, rest = '/' :: r := by
          cases rest <;> simp_all
        simp [closeLength] at h
      · rw [List.singleton_append, closeLength_cons hclose] at h
        simp at h
    | cons d text =>
      by_cases hclose : c = '*' ∧ d = '/'
      · obtain ⟨rfl, rfl⟩ := hclose
        rfl
      · have hcons : ∀ more, closeLength (c :: d :: text ++ more) = closeLength (d :: text ++ more) + 1 := fun more =>
          closeLength_cons (by simpa using hclose)
        rw [hcons, List.length_cons, Nat.add_lt_add_iff_right] at h
        rw [hcons, hcons, ih h]

/-- A comment ends where it ends, whatever follows. -/
theorem commentLength?_append {text rest : List Char} {n : Nat} (h : commentLength? (text ++ rest) = some n)
    (hn : n < text.length) (tail : List Char) : commentLength? (text ++ tail) = some n := by
  unfold commentLength? at h
  split at h
  · rename_i more htext
    obtain rfl := Option.some.inj h
    obtain ⟨text, rfl⟩ : ∃ t, text = '/' :: '/' :: t := by
      match text with
      | [] => simp at hn
      | [c] => simp at hn
      | c :: d :: t => simp_all
    obtain rfl : text ++ rest = more := by simpa using htext
    have hlt : runLength (· ≠ '\n') (text ++ rest) < text.length := by simpa using hn
    rw [List.cons_append, List.cons_append, commentLength?, runLength_append hlt]
  · rename_i more htext
    obtain rfl := Option.some.inj h
    obtain ⟨text, rfl⟩ : ∃ t, text = '/' :: '*' :: t := by
      match text with
      | [] => simp at hn
      | [c] => simp at hn
      | c :: d :: t => simp_all
    obtain rfl : text ++ rest = more := by simpa using htext
    have hlt : closeLength (text ++ rest) < text.length := by simpa using hn
    rw [List.cons_append, List.cons_append, commentLength?, closeLength_append hlt]
  · simp at h

/-- Whether a comment begins depends on the next character alone. -/
theorem commentLength?_eq_none_append {c : Char} {text rest : List Char} (hne : text ≠ [])
    (h : commentLength? (c :: (text ++ rest)) = none) (tail : List Char) :
    commentLength? (c :: (text ++ tail)) = none := by
  rw [commentLength?_cons_eq_none, List.head?_append_of_ne_nil _ hne] at h ⊢
  exact h

/-- **How the arguments of a call are read depends on the characters up to its closing parenthesis alone.** -/
theorem readArguments_used {depth length : Nat} {current text : List Char} {call : Call}
    (h : readArguments depth current length text = some call) :
    ∃ used rest, text = used ++ rest ∧ used.getLast? = some ')' ∧ call.length = length + used.length ∧
      ∀ tail, readArguments depth current length (used ++ tail) = some call := by
  fun_induction readArguments depth current length text generalizing call with
  | case1 => simp at h
  | case2 depth current length c rest n hcomment ih =>
    obtain ⟨used, last, hsplit, hclosed, hlength, hread⟩ := ih h
    have hused : 0 < used.length := List.length_pos_iff.mpr (by rintro rfl; simp at hclosed)
    have hrest : (rest.drop (n - 1)).length = (used ++ last).length := by rw [hsplit]
    have htake : (rest.take (n - 1)).length = n - 1 := by
      simp only [List.length_drop, List.length_append, List.length_take] at hrest ⊢
      omega
    have htext : c :: rest = c :: rest.take (n - 1) ++ used ++ last := by
      rw [List.append_assoc, ← hsplit, List.cons_append, List.take_append_drop]
    refine ⟨c :: rest.take (n - 1) ++ used, last, htext, by simp [List.getLast?_cons, hclosed], ?_, fun tail => ?_⟩
    · simp only [List.length_append, List.length_cons, htake] at hlength ⊢
      omega
    · -- The comment is shorter than what is read, so it is the same comment whatever follows.
      have hagain : commentLength? (c :: rest.take (n - 1) ++ used ++ tail) = some n := by
        refine commentLength?_append (htext ▸ hcomment) ?_ tail
        simp only [List.length_append, List.length_cons, htake]
        omega
      rw [List.append_assoc, List.cons_append] at hagain ⊢
      rw [readArguments, hagain]
      have hfront : (rest.take (n - 1) ++ (used ++ tail)).take (n - 1) = rest.take (n - 1) := by
        rw [List.take_append_of_le_length htake.ge, List.take_take, Nat.min_self]
      have hback : (rest.take (n - 1) ++ (used ++ tail)).drop (n - 1) = used ++ tail := List.drop_left' htake
      simpa only [hfront, hback] using hread tail
  | case3 depth current length rest hcomment ih =>
    obtain ⟨used, last, rfl, hclosed, hlength, hread⟩ := ih h
    refine ⟨'(' :: used, last, rfl, by simp [List.getLast?_cons, hclosed], by simp; omega, fun tail => ?_⟩
    rw [List.cons_append, readArguments, commentLength?_eq_none_append (by rintro rfl; simp at hclosed) hcomment]
    simpa using hread tail
  | case4 current length rest hcomment hclose =>
    obtain rfl := Option.some.inj h
    exact ⟨[')'], rest, rfl, rfl, by simp, fun tail => by simp [readArguments, commentLength?_of_ne]⟩
  | case5 depth current length rest hdepth hcomment hclose ih =>
    obtain ⟨used, last, rfl, hclosed, hlength, hread⟩ := ih h
    refine ⟨')' :: used, last, rfl, by simp [List.getLast?_cons, hclosed], by simp; omega, fun tail => ?_⟩
    rw [List.cons_append, readArguments, commentLength?_eq_none_append (by rintro rfl; simp at hclosed) hcomment]
    simpa [hdepth] using hread tail
  | case6 depth current length c rest hcomment hopen hclose hcomma ih =>
    obtain ⟨call, hcall, rfl⟩ := Option.map_eq_some_iff.mp h
    obtain ⟨used, last, rfl, hclosed, hlength, hread⟩ := ih hcall
    refine ⟨c :: used, last, rfl, by simp [List.getLast?_cons, hclosed], by simp; omega, fun tail => ?_⟩
    rw [List.cons_append, readArguments, commentLength?_eq_none_append (by rintro rfl; simp at hclosed) hcomment]
    simp [hopen, hclose, hcomma, hread tail]
  | case7 depth current length c rest hcomment hopen hclose hcomma ih =>
    obtain ⟨used, last, rfl, hclosed, hlength, hread⟩ := ih h
    refine ⟨c :: used, last, rfl, by simp [List.getLast?_cons, hclosed], by simp; omega, fun tail => ?_⟩
    rw [List.cons_append, readArguments, commentLength?_eq_none_append (by rintro rfl; simp at hclosed) hcomment]
    simp [hopen, hclose, hcomma, hread tail]

/-- The characters of the blanks and the call after a word. No word goes over their ends. -/
theorem readCall?_used {after : List Char} {call : Call}
    (h : readCall? (after.drop (runLength Text.isBlank after)) = some call) :
    ∃ used rest, after = used ++ rest ∧ used.length = runLength Text.isBlank after + call.length ∧
      used.getLast? = some ')' ∧ BeginsPlain used ∧
      ∀ tail, runLength Text.isBlank (used ++ tail) = runLength Text.isBlank after ∧
        readCall? ((used ++ tail).drop (runLength Text.isBlank after)) = some call := by
  obtain ⟨rest, hdrop, hread⟩ := readCall?_eq_some h
  obtain ⟨used, last, rfl, hclosed, hlength, hused⟩ := readArguments_used hread
  set blanks := runLength Text.isBlank after with hblanks
  have hafter : after = after.take blanks ++ '(' :: used ++ last := by
    rw [List.append_assoc, List.cons_append, ← hdrop, List.take_append_drop]
  have hfront : (after.take blanks).length = blanks := by
    have := congrArg List.length hdrop
    simp only [List.length_drop, List.length_cons] at this
    rw [List.length_take]
    omega
  have hlast : (after.take blanks ++ '(' :: used).getLast? = some ')' := by
    simp [List.getLast?_append, List.getLast?_cons, hclosed]
  refine ⟨after.take blanks ++ '(' :: used, last, hafter, ?_, hlast, ?_, fun tail => ⟨?_, ?_⟩⟩
  · simp only [List.length_append, List.length_cons, hfront]
    omega
  · intro c hc
    cases hblank : after.take blanks with
    | nil =>
      simp only [hblank, List.nil_append, List.head?_cons, Option.mem_some_iff] at hc
      rw [← hc]
      decide
    | cons d front =>
      simp only [hblank, List.cons_append, List.head?_cons, Option.mem_some_iff] at hc
      have hd : d ∈ after.take (runLength Text.isBlank after) := by rw [← hblanks, hblank]; simp
      rw [← hc]
      exact isWordChar_of_isBlank (of_mem_take_runLength hd)
  · have hlt : runLength Text.isBlank (after.take blanks ++ '(' :: used ++ last) <
        (after.take blanks ++ '(' :: used).length := by
      rw [← hafter, ← hblanks, List.length_append, hfront]
      simp
    rw [runLength_append hlt, ← hafter]
  · rw [List.append_assoc, List.drop_left' hfront, List.cons_append]
    exact hused tail

/-- A call with the wrong number of arguments is kept whatever follows it. -/
theorem callVerdict_keeps {m : Macro} {parameters : List String} {after : List Char} {n : Nat}
    (h : callVerdict m parameters after = .keeps n) :
    ∃ call rest, after = call ++ rest ∧ call.length = n ∧ call.getLast? = some ')' ∧ BeginsPlain call ∧
      ∀ tail, callVerdict m parameters (call ++ tail) = .keeps n := by
  rw [callVerdict] at h
  cases hcall : readCall? (after.drop (runLength Text.isBlank after)) with
  | none => simp [hcall] at h
  | some call =>
    obtain ⟨used, rest, hafter, hlength, hclosed, hplain, hagain⟩ := readCall?_used hcall
    by_cases harity : (callArguments parameters.length call).length = parameters.length
    · simp [hcall, harity] at h
    · simp only [hcall, harity, ne_eq, not_false_eq_true, if_true, Verdict.keeps.injEq] at h
      refine ⟨used, rest, hafter, hlength.trans h, hclosed, hplain, fun tail => ?_⟩
      obtain ⟨hblanks, hread⟩ := hagain tail
      rw [callVerdict]
      simp only [hblanks, hread, harity, ne_eq, not_false_eq_true, if_true, h]

theorem broken_of_closed {used rest : List Char} (hclosed : used.getLast? = some ')') : Broken used rest := by
  refine Or.inl fun c hc => ?_
  rw [hclosed, Option.mem_some_iff] at hc
  rw [← hc]
  decide

/-- No word goes over the end of what a verdict is about. -/
theorem broken_verdict (scope : Scope) (word after : List Char) :
    Broken (after.take (verdict scope word after).consumed) (after.drop (verdict scope word after).consumed) := by
  have hnone : Broken (after.take 0) (after.drop 0) := Or.inl (by simp [EndsPlain])
  have hused : ∀ {used rest : List Char} {n : Nat}, after = used ++ rest → used.length = n → used.getLast? = some ')' →
      Broken (after.take n) (after.drop n) := by
    rintro used rest n rfl rfl hclosed
    rw [List.take_left' rfl, List.drop_left' rfl]
    exact broken_of_closed hclosed
  cases hv : verdict scope word after with
  | stays => exact hnone
  | keeps n =>
    obtain ⟨m, parameters, -, -, hkeeps⟩ := verdict_keeps hv
    obtain ⟨call, rest, hafter, hlength, hclosed, -⟩ := callVerdict_keeps hkeeps
    exact hused hafter hlength hclosed
  | becomes replacement n newlines =>
    obtain ⟨m, -, -, -, ⟨-, -, rfl, -⟩ | ⟨parameters, call, -, hcall, -, rfl, -⟩⟩ := verdict_becomes hv
    · exact hnone
    · obtain ⟨used, rest, hafter, hlength, hclosed, -⟩ := readCall?_used hcall
      exact hused hafter hlength hclosed

end ShaderFront.Macro
