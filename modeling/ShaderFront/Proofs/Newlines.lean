import Mathlib
import ShaderFront.Proofs.Settling

/-!
# Line breaks of an expansion

An expansion keeps the line breaks of its text, if no macro has one in its body (`Macro.newlineCount_expand`): the arguments of a
call hold none, because blanks become single spaces, and the line breaks between the word and the end of a call are put back
after it. A text that ends in a line break has an expansion that does (`Macro.endsLine_expand`), because a call ends with its
parenthesis.
-/

namespace ShaderFront

/-- The text is empty or its last line is ended. -/
def Text.EndsLine (text : List Char) : Prop := text = [] ∨ text.getLast? = some '\n'

namespace MacroTable

/-- No macro has a line break in its body. -/
def Flat (macros : MacroTable) : Prop := ∀ e ∈ macros.entries.toList, '\n' ∉ e.2.body.toList

variable {macros : MacroTable}

theorem Flat.get? (h : macros.Flat) {name : String} {m : Macro} (hm : macros.get? name = some m) : '\n' ∉ m.body.toList :=
  h _ (get?_eq_some hm).1

theorem Flat.insert (h : macros.Flat) (name : String) {m : Macro} (hm : '\n' ∉ m.body.toList) :
    MacroTable.Flat ⟨macros.entries.insert name m⟩ := by
  intro e he
  rcases OrderedMap.mem_insertList_imp he with rfl | he
  · exact hm
  · exact h e he

theorem Flat.define (h : macros.Flat) {m : Macro} (hm : '\n' ∉ m.body.toList) : (macros.define m).2.Flat := h.insert m.name hm

theorem Flat.undefine (h : macros.Flat) (name : String) : (macros.undefine name).2.Flat := by
  unfold MacroTable.undefine
  split
  · rename_i m hm
    have hbody := h.get? hm
    exact h.insert name hbody
  · exact h

theorem Flat.defineAll (h : macros.Flat) {entries : List (String × String)} (hentries : ∀ e ∈ entries, '\n' ∉ e.2.toList) :
    (macros.defineAll entries).Flat := by
  induction entries generalizing macros with
  | nil => exact h
  | cons e entries ih =>
    obtain ⟨he, hentries⟩ := List.forall_mem_cons.mp hentries
    exact ih (h.insert e.1 he) hentries

theorem flat_predefined : MacroTable.predefined.Flat := by
  refine Flat.defineAll (fun e he => by cases he) ?_
  decide

end MacroTable

namespace Macro

/-! ## Replacements -/

theorem substitute_flat {parameters : List String} {arguments : List (List Char)} (harguments : ∀ a ∈ arguments, '\n' ∉ a)
    {body : List Char} (hbody : '\n' ∉ body) : '\n' ∉ substitute parameters arguments body := by
  fun_induction substitute parameters arguments body with
  | case1 => exact hbody
  | case2 c rest hstart more word ih =>
    obtain ⟨hc, hrest⟩ := not_or.mp (List.mem_cons.not.mp hbody)
    refine List.mem_append.not.mpr (not_or.mpr ⟨?_, ih fun h => hrest (List.mem_of_mem_drop h)⟩)
    cases hargument : argument? parameters arguments word with
    | none => exact List.mem_cons.not.mpr (not_or.mpr ⟨hc, fun h => hrest (List.mem_of_mem_take h)⟩)
    | some a =>
      obtain ⟨i, -, ha⟩ := Option.bind_eq_some_iff.mp hargument
      exact harguments a (List.mem_of_getElem? ha)
  | case3 c rest hstart hdigit more ih =>
    obtain ⟨hc, hrest⟩ := not_or.mp (List.mem_cons.not.mp hbody)
    refine List.mem_append.not.mpr (not_or.mpr ⟨?_, ih fun h => hrest (List.mem_of_mem_drop h)⟩)
    exact List.mem_cons.not.mpr (not_or.mpr ⟨hc, fun h => hrest (List.mem_of_mem_take h)⟩)
  | case4 c rest hstart hdigit ih =>
    obtain ⟨hc, hrest⟩ := not_or.mp (List.mem_cons.not.mp hbody)
    exact List.mem_cons.not.mpr (not_or.mpr ⟨hc, ih hrest⟩)

theorem wordsFrom_flat {word text : List Char} (hword : '\n' ∉ word) : ∀ w ∈ Text.wordsFrom word text, '\n' ∉ w.toList := by
  fun_induction Text.wordsFrom word text with
  | case1 => simp
  | case2 => simpa using hword
  | case3 word c rest hblank hempty ih => exact ih (by simp)
  | case4 word c rest hblank hempty ih => exact List.forall_mem_cons.mpr ⟨by simpa using hword, ih (by simp)⟩
  | case5 word c rest hblank ih =>
    refine ih (List.mem_cons.not.mpr (not_or.mpr ⟨?_, hword⟩))
    rintro rfl
    exact hblank (by decide)

theorem intercalate_flat {words : List (List Char)} (h : ∀ word ∈ words, '\n' ∉ word) : '\n' ∉ [' '].intercalate words := by
  induction words with
  | nil => simp
  | cons word words ih =>
    obtain ⟨hword, hwords⟩ := List.forall_mem_cons.mp h
    cases words with
    | nil => simpa using hword
    | cons next words =>
      rw [List.intercalate_cons_cons]
      simp only [List.mem_append, not_or]
      exact ⟨⟨hword, by simp⟩, ih hwords⟩

/-- A normalised argument stands on one line. -/
theorem normalize_flat (a : List Char) : '\n' ∉ normalize a := by
  rw [normalize, String.toList_intercalate]
  refine intercalate_flat fun word hword => ?_
  obtain ⟨w, hw, rfl⟩ := List.mem_map.mp hword
  rw [Text.words, String.toList_ofList] at hw
  exact wordsFrom_flat (by simp) w hw

theorem callArguments_flat (parameterCount : Nat) (call : Call) : ∀ a ∈ callArguments parameterCount call, '\n' ∉ a := by
  intro a ha
  simp only [callArguments] at ha
  split at ha
  · cases ha
  · obtain ⟨raw, -, rfl⟩ := List.mem_map.mp ha
    exact normalize_flat raw

theorem word_flat {c : Char} (hc : isWordStart c = true) (rest : List Char) : '\n' ∉ c :: rest.take (pieceMore c rest) := by
  have hbreak : isWordChar '\n' = false := by decide
  intro h
  rw [pieceMore_of_isWordStart hc] at h
  rcases List.mem_cons.mp h with rfl | h
  · rw [isWordChar_of_isWordStart hc] at hbreak
    cases hbreak
  · rw [of_mem_take_runLength h] at hbreak
    cases hbreak

variable {scope : Scope} {word after : List Char}

/-- A replacement stands on one line, and the line breaks after it are those it takes the place of. -/
theorem verdict_becomes_flat (h : scope.macros.Flat) {replacement : List Char} {n newlines : Nat}
    (hv : verdict scope word after = .becomes replacement n newlines) :
    '\n' ∉ replacement ∧ newlines = Text.newlineCount (after.take n) := by
  obtain ⟨m, hm, -, -, ⟨-, rfl, rfl, rfl⟩ | ⟨parameters, call, -, -, rfl, -, hnewlines⟩⟩ := verdict_becomes hv
  · exact ⟨h.get? hm, rfl⟩
  · exact ⟨substitute_flat (callArguments_flat _ call) (h.get? hm), hnewlines⟩

/-- What a verdict is about is empty or ends with a parenthesis. -/
theorem verdict_closed (scope : Scope) (word after : List Char) : (verdict scope word after).consumed = 0 ∨
    (after.take (verdict scope word after).consumed).getLast? = some ')' := by
  cases hv : verdict scope word after with
  | stays => exact .inl rfl
  | keeps n =>
    obtain ⟨m, parameters, -, -, hkeeps⟩ := verdict_keeps hv
    obtain ⟨call, rest, rfl, rfl, hclosed, -⟩ := callVerdict_keeps hkeeps
    exact .inr (by rwa [Verdict.consumed, List.take_left' rfl])
  | becomes replacement n newlines =>
    obtain ⟨m, -, -, -, ⟨-, -, rfl, -⟩ | ⟨parameters, call, -, hcall, -, rfl, -⟩⟩ := verdict_becomes hv
    · exact .inl rfl
    · obtain ⟨used, rest, hafter, hlength, hclosed, -⟩ := readCall?_used hcall
      refine .inr ?_
      rw [Verdict.consumed, ← hlength, hafter, List.take_left' rfl]
      exact hclosed

/-! ## Passes -/

section Pass

variable {inner : String → List Char → Expansion}

theorem newlineCount_verdict (hscope : scope.macros.Flat) (hinner : ∀ name r, '\n' ∉ r → '\n' ∉ (inner name r).text)
    (hword : '\n' ∉ word) (name : String) :
    Text.newlineCount ((verdict scope word after).text (fun r => (inner name r).text) word after) =
      Text.newlineCount (after.take (verdict scope word after).consumed) := by
  simp only [Text.newlineCount]
  cases hv : verdict scope word after with
  | stays => simp [Verdict.text, Verdict.consumed, List.count_eq_zero.mpr hword]
  | keeps n => simp [Verdict.text, Verdict.consumed, List.count_eq_zero.mpr hword]
  | becomes replacement n newlines =>
    obtain ⟨hflat, rfl⟩ := verdict_becomes_flat hscope hv
    simp [Verdict.text, Verdict.consumed, List.count_eq_zero.mpr (hinner name _ hflat), Text.newlineCount]

/-- A pass keeps the line breaks of a text. -/
theorem newlineCount_expandWith (hscope : scope.macros.Flat) (hinner : ∀ name r, '\n' ∉ r → '\n' ∉ (inner name r).text) :
    ∀ text : List Char, Text.newlineCount (expandWith inner scope text).text = Text.newlineCount text
  | [] => by simp [expandWith]
  | c :: rest => by
    have hsplit : c :: rest = (c :: rest.take (pieceMore c rest)) ++ rest.drop (pieceMore c rest) := by simp
    cases hc : isWordStart c with
    | true =>
      have hword := word_flat hc rest
      have ih := newlineCount_expandWith hscope hinner ((rest.drop (pieceMore c rest)).drop
        (verdict scope (c :: rest.take (pieceMore c rest)) (rest.drop (pieceMore c rest))).consumed)
      rw [text_expandWith_word inner scope rest hc]
      generalize rest.drop (pieceMore c rest) = after at *
      generalize c :: rest.take (pieceMore c rest) = word at *
      rw [hsplit, Text.newlineCount, List.count_append, ← Text.newlineCount, ← Text.newlineCount, ih,
        newlineCount_verdict hscope hinner hword, Text.newlineCount, Text.newlineCount, Text.newlineCount,
        ← List.count_append, List.take_append_drop, List.count_append, List.count_eq_zero.mpr hword, Nat.zero_add]
    | false =>
      have ih := newlineCount_expandWith hscope hinner (rest.drop (pieceMore c rest))
      rw [text_expandWith_plain inner scope rest hc]
      conv_rhs => rw [hsplit]
      simp only [Text.newlineCount, List.count_append] at ih ⊢
      rw [ih]
termination_by text => text.length
decreasing_by all_goals (simp only [List.length_drop, List.length_cons]; omega)

/-- A pass keeps the end of the last line. -/
theorem getLast?_expandWith (scope : Scope) : ∀ {text : List Char}, text.getLast? = some '\n' →
    (expandWith inner scope text).text.getLast? = some '\n'
  | [], h => by cases h
  | c :: rest, h => by
    have hsplit : c :: rest = (c :: rest.take (pieceMore c rest)) ++ rest.drop (pieceMore c rest) := by simp
    cases hc : isWordStart c with
    | true =>
      have hword := word_flat hc rest
      have hclosed := verdict_closed scope (c :: rest.take (pieceMore c rest)) (rest.drop (pieceMore c rest))
      have ih : ((rest.drop (pieceMore c rest)).drop (verdict scope (c :: rest.take (pieceMore c rest))
          (rest.drop (pieceMore c rest))).consumed).getLast? = some '\n' → _ := getLast?_expandWith scope
      rw [hsplit] at h
      rw [text_expandWith_word inner scope rest hc]
      generalize rest.drop (pieceMore c rest) = after at *
      generalize c :: rest.take (pieceMore c rest) = word at *
      -- the line is not ended by the word, nor by the call after it
      have hrest : (after.drop (verdict scope word after).consumed).getLast? = some '\n' := by
        generalize (verdict scope word after).consumed = n at *
        rw [← List.take_append_drop n after, ← List.append_assoc, List.getLast?_append] at h
        cases hlast : (after.drop n).getLast? with
        | some d => simpa [hlast] using h
        | none =>
          rw [hlast, Option.none_or, List.getLast?_append] at h
          rcases hclosed with rfl | hclosed
          · exact absurd (List.mem_of_getLast? (by simpa using h)) hword
          · rw [hclosed] at h
            cases h
      rw [List.getLast?_append, ih hrest]
      rfl
    | false =>
      rw [text_expandWith_plain inner scope rest hc]
      rw [hsplit, List.getLast?_append] at h
      cases hlast : (rest.drop (pieceMore c rest)).getLast? with
      | none =>
        rw [List.getLast?_eq_none_iff.mp hlast] at h ⊢
        simpa [expandWith] using h
      | some d =>
        rw [hlast] at h
        cases h
        rw [List.getLast?_append, getLast?_expandWith scope hlast]
        rfl
termination_by text => text.length
decreasing_by all_goals (simp only [List.length_drop, List.length_cons]; omega)

end Pass

/-! ## Expansions -/

variable {macros : MacroTable}

theorem newlineCount_expandLevels (h : macros.Flat) (maxDepth : Nat) : ∀ (levels : Nat) (active : List String)
    (text : List Char), Text.newlineCount (expandLevels macros maxDepth levels active text).text = Text.newlineCount text
  | 0, _, text => newlineCount_expandWith h (fun _ _ hr => hr) text
  | levels + 1, active, text => by
    refine newlineCount_expandWith h (fun name r hr => ?_) text
    have hcount := newlineCount_expandLevels h maxDepth levels (active ++ [name]) r
    rw [Text.newlineCount, Text.newlineCount, List.count_eq_zero.mpr hr] at hcount
    exact List.count_eq_zero.mp hcount

/-- **An expansion keeps the line breaks of its text.** -/
theorem newlineCount_expand (h : macros.Flat) (maxDepth : Nat) (text : String) :
    Text.newlineCount (expand macros maxDepth text).1.toList = Text.newlineCount text.toList := by
  simp only [expand, String.toList_ofList]
  exact newlineCount_expandLevels h maxDepth maxDepth [] text.toList

/-- The expansion of a text whose last line is ended ends its last line. -/
theorem getLast?_expand (macros : MacroTable) (maxDepth : Nat) {text : String} (h : text.toList.getLast? = some '\n') :
    (expand macros maxDepth text).1.toList.getLast? = some '\n' := by
  simp only [expand, String.toList_ofList]
  cases maxDepth with
  | zero => exact getLast?_expandWith _ h
  | succ levels => exact getLast?_expandWith _ h

end Macro

end ShaderFront
