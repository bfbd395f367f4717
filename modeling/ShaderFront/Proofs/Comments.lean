import Mathlib
import ShaderFront.Proofs.Atoms
import ShaderFront.Proofs.Settling

/-!
# Comments and expansion

What becomes of a text can be told from its ink (`Macro.expandInk`) if the expansion is tidy (`Macro.Tidy`): no comment comes between
the name of a macro and its arguments or is taken for one, and nothing that is pasted runs together with its surroundings. So comments
do not influence tidy expansions (`Macro.expand_blanked`). They do influence others (`Macro.expand_commented`).
-/

namespace ShaderFront.Macro

variable {macros : MacroTable} {scope : Scope} {c : Char} {rest s word after : List Char}

/-! ## Expansion of ink -/

/-- Whether an atom is a blank. -/
def isBlankAtom (a : List Char) : Bool := a.all Text.isBlank

/-- Reads the arguments of a call off the ink after a name. -/
def callInk? (after : List (List Char)) : Option InkCall :=
  match after.dropWhile isBlankAtom with
  | ['('] :: rest => readInk 0 [] rest
  | _ => none

/-- The arguments of a call for a macro with some number of parameters. No parameters take one empty argument. -/
def argumentInk (parameterCount : Nat) (arguments : List (List (List Char))) : List (List (List Char)) :=
  let arguments := arguments.map fun a => a.filter fun atom => !isBlankAtom atom
  if parameterCount = 0 && arguments = [[]] then [] else arguments

/-- Replaces the parameters of a macro in its body by arguments. -/
def substituteInk (parameters : List String) (arguments : List (List (List Char))) (body : List (List Char)) : List (List Char) :=
  body.flatMap fun a =>
    if isWord a then ((parameters.findIdx? (·.toList = a)).bind fun i => arguments[i]?).getD [a] else [a]

/-- The macro that a word stands for, unless its expansion is under way or too deep. -/
def macroFor? (scope : Scope) (word : List Char) : Option Macro :=
  if String.ofList word ∈ scope.active ∨ scope.maxDepth ≤ scope.active.length then none
  else scope.macros.get? (String.ofList word)

/-- Replaces a word. Also gives the number of atoms after the word that belong to the call. -/
def replaceInk (inner : String → List (List Char) → List (List Char)) (scope : Scope) (word : List Char)
    (after : List (List Char)) : List (List Char) × Nat :=
  match macroFor? scope word with
  | none => ([word], 0)
  | some m =>
    match m.parameters with
    | none => (inner (String.ofList word) (ink m.body.toList), 0)
    | some parameters =>
      match callInk? after with
      | none => ([word], 0)
      | some call =>
        let arguments := argumentInk parameters.length call.arguments
        let consumed := after.length - call.rest.length
        if arguments.length ≠ parameters.length then (word :: after.take consumed, consumed)
        else (inner (String.ofList word) (substituteInk parameters arguments (ink m.body.toList)), consumed)

/-- Expands the ink of a text. `inner` expands the replacement of a macro. -/
def expandInkWith (inner : String → List (List Char) → List (List Char)) (scope : Scope) : List (List Char) → List (List Char)
  | [] => []
  | a :: rest =>
    if isWord a then
      let r := replaceInk inner scope a rest
      r.1 ++ expandInkWith inner scope (rest.drop r.2)
    else a :: expandInkWith inner scope rest
termination_by as => as.length
decreasing_by all_goals (simp only [List.length_cons, List.length_drop]; omega)

/-- Expands the ink of a text with `levels` more levels of macros to go. -/
def expandInkLevels (macros : MacroTable) (maxDepth : Nat) : Nat → List String → List (List Char) → List (List Char)
  | 0, active, atoms => expandInkWith (fun _ replacement => replacement) ⟨macros, maxDepth, active⟩ atoms
  | levels + 1, active, atoms =>
    expandInkWith (fun name replacement => expandInkLevels macros maxDepth levels (active ++ [name]) replacement)
      ⟨macros, maxDepth, active⟩ atoms

/-- Expands the macros in the ink of a text. -/
def expandInk (macros : MacroTable) (maxDepth : Nat) (atoms : List (List Char)) : List (List Char) :=
  expandInkLevels macros maxDepth maxDepth [] atoms

/-! ## What a result is put together from -/

/-- The atoms that stand for a word and the characters after it. -/
def Verdict.atoms (inner : List Char → List (List Char)) (word after : List Char) : Verdict → List (List Char)
  | .stays => [word]
  | .keeps n => word :: Macro.atoms (after.take n)
  | .becomes replacement _ newlines => inner replacement ++ List.replicate newlines ['\n']

/-- The atoms that the result of one pass is put together from. `inner` gives those of the replacement of a macro. -/
def atomsWith (inner : String → List Char → List (List Char)) (scope : Scope) : List Char → List (List Char)
  | [] => []
  | c :: rest =>
    let front := c :: rest.take (atomMore c rest)
    let after := rest.drop (atomMore c rest)
    if isWordStart c then
      let v := verdict scope front after
      v.atoms (inner (String.ofList front)) front after ++ atomsWith inner scope (after.drop v.consumed)
    else front :: atomsWith inner scope after
termination_by text => text.length
decreasing_by all_goals (simp only [List.length_cons, List.length_drop]; omega)

/-- The atoms that an expanded text is put together from, with `levels` more levels of macros to go. -/
def atomsLevels (macros : MacroTable) (maxDepth : Nat) : Nat → List String → List Char → List (List Char)
  | 0, active, text => atomsWith (fun _ replacement => atoms replacement) ⟨macros, maxDepth, active⟩ text
  | levels + 1, active, text =>
    atomsWith (fun name replacement => atomsLevels macros maxDepth levels (active ++ [name]) replacement)
      ⟨macros, maxDepth, active⟩ text

/-- The atoms that the result of an expansion is put together from. -/
def expandAtoms (macros : MacroTable) (maxDepth : Nat) (text : List Char) : List (List Char) :=
  atomsLevels macros maxDepth maxDepth [] text

/-! ## Tidy expansions -/

/-- The call at the front of a text, after blanks. -/
def frontCall? (after : List Char) : Option Call := readCall? (after.drop (runLength Text.isBlank after))

/-- Whether the arguments of a macro, if there are any, follow its name with no comment between. -/
def isAdjacent (after : List Char) : Bool :=
  ((ink after).dropWhile isBlankAtom).head? ≠ some ['('] || (after.drop (runLength Text.isBlank after)).head? = some '('

/-- Whether the call of a macro can be told from its ink: no comment is taken for an argument, and the arguments do not run together with
the body around them. -/
def isTidyCall (parameters : List String) (body : List Char) (call : Call) : Bool :=
  let arguments := callArguments parameters.length call
  let inks := argumentInk parameters.length (call.arguments.map ink)
  arguments.length = inks.length &&
    (arguments.length ≠ parameters.length ||
      ink (substitute parameters arguments body) = substituteInk parameters inks (ink body))

/-- Whether a word and the call after it are tidy. -/
def isTidyWord (scope : Scope) (word after : List Char) : Bool :=
  match macroFor? scope word with
  | none => true
  | some m =>
    match m.parameters with
    | none => true
    | some parameters => isAdjacent after && (frontCall? after).all (isTidyCall parameters m.body.toList)

/-- Whether what becomes of a word is expanded tidily. -/
def Verdict.isTidy (inner : List Char → Bool) : Verdict → Bool
  | .becomes replacement _ _ => inner replacement
  | _ => true

/-- Whether one pass is tidy. `inner` says whether the replacement of a macro is expanded tidily. -/
def isTidyWith (inner : String → List Char → Bool) (scope : Scope) : List Char → Bool
  | [] => true
  | c :: rest =>
    let front := c :: rest.take (atomMore c rest)
    let after := rest.drop (atomMore c rest)
    if isWordStart c then
      let v := verdict scope front after
      isTidyWord scope front after && v.isTidy (inner (String.ofList front)) && isTidyWith inner scope (after.drop v.consumed)
    else isTidyWith inner scope after
termination_by text => text.length
decreasing_by all_goals (simp only [List.length_cons, List.length_drop]; omega)

/-- Whether all passes are tidy, with `levels` more levels of macros to go. -/
def isTidyLevels (macros : MacroTable) (maxDepth : Nat) : Nat → List String → List Char → Bool
  | 0, active, text => isTidyWith (fun _ _ => true) ⟨macros, maxDepth, active⟩ text
  | levels + 1, active, text =>
    isTidyWith (fun name replacement => isTidyLevels macros maxDepth levels (active ++ [name]) replacement)
      ⟨macros, maxDepth, active⟩ text

/-- The expansion of a text is tidy: so are all passes, and the atoms that the result is put together from do not run together. -/
structure Tidy (macros : MacroTable) (maxDepth : Nat) (text : List Char) : Prop where
  passes : isTidyLevels macros maxDepth maxDepth [] text = true
  result : (Shader.tokens (String.ofList (expandAtoms macros maxDepth text).flatten)).map Token.written =
    ((expandAtoms macros maxDepth text).filter isInk).flatMap fun a => (Shader.tokens (String.ofList a)).map Token.written

theorem tokens_ofList (text : List Char) : Shader.tokens (String.ofList text) = Shader.classify false (scan Shader.cut 0 text) := by
  rw [Shader.tokens, String.toList_ofList]

/-- Decided on characters: to evaluate the characters of a text from its bytes takes time that is quadratic in its length. -/
instance (macros : MacroTable) (maxDepth : Nat) (text : List Char) : Decidable (Tidy macros maxDepth text) :=
  decidable_of_iff (isTidyLevels macros maxDepth maxDepth [] text = true ∧
      (Shader.classify false (scan Shader.cut 0 (expandAtoms macros maxDepth text).flatten)).map Token.written =
        ((expandAtoms macros maxDepth text).filter isInk).flatMap fun a =>
          (Shader.classify false (scan Shader.cut 0 a)).map Token.written)
    (by simp only [← tokens_ofList]; exact ⟨fun h => ⟨h.1, h.2⟩, fun h => ⟨h.passes, h.result⟩⟩)

/-! ## Words and calls -/

theorem verdict_eq (scope : Scope) (word after : List Char) : verdict scope word after =
    match macroFor? scope word with
    | none => .stays
    | some m =>
      match m.parameters with
      | none => .becomes m.body.toList 0 0
      | some parameters => callVerdict m parameters after := by
  rw [verdict, macroFor?]
  by_cases h : String.ofList word ∈ scope.active ∨ scope.maxDepth ≤ scope.active.length
  · rw [if_pos h]
    cases scope.macros.get? (String.ofList word) with
    | none => rfl
    | some m => simp only [if_pos h]
  · rw [if_neg h]
    cases scope.macros.get? (String.ofList word) with
    | none => rfl
    | some m => exact if_neg h

theorem ink_blanks {g : List Char} (hg : ∀ b ∈ g, Text.isBlank b = true) (s : List Char) :
    ink (g ++ s) = ink g ++ ink s ∧ ∀ a ∈ ink g, isBlankAtom a = true := by
  induction g with
  | nil => simp
  | cons b g ih =>
    obtain ⟨hb, hg⟩ := List.forall_mem_cons.mp hg
    obtain ⟨hink, hblank⟩ := ih hg
    rw [List.cons_append, ink_cons, ink_cons, atomMore_of_isBlank hb, atomMore_of_isBlank hb]
    simp only [List.take_zero, List.drop_zero, hink, List.append_assoc]
    refine ⟨rfl, List.forall_mem_append.mpr ⟨?_, hblank⟩⟩
    by_cases hwhite : isInk [b] = true
    · simp [hwhite, isBlankAtom, hb]
    · simp [hwhite]

/-- **A call after a name is read alike off the text and off its ink**, if no comment comes between. -/
theorem frontCall?_ink (h : isAdjacent after = true) : frontCall? after = none ∧ callInk? (ink after) = none ∨
    ∃ call used rest, after = used ++ rest ∧ frontCall? after = some call ∧
      runLength Text.isBlank after + call.length = used.length ∧ ink after = ink used ++ ink rest ∧
      callInk? (ink after) = some ⟨call.arguments.map ink, ink rest⟩ := by
  by_cases hopen : (after.drop (runLength Text.isBlank after)).head? = some '('
  · obtain ⟨s, hdrop⟩ := List.head?_eq_some_iff.mp hopen
    obtain ⟨hblank, hle⟩ := Numeral.take_runLength Text.isBlank after
    have hsplit : after = after.take (runLength Text.isBlank after) ++ '(' :: s := by rw [← hdrop, List.take_append_drop]
    have hfront : frontCall? after = readArguments 0 [] 1 s := by rw [frontCall?, hdrop]; rfl
    generalize hg : after.take (runLength Text.isBlank after) = g at hblank hsplit
    have hlength : g.length = runLength Text.isBlank after := by rw [← hg, List.length_take, min_eq_left hle]
    rw [hfront, ← hlength]
    have hink : ∀ s, ink (g ++ '(' :: s) = ink g ++ ['('] :: ink s := by
      intro s
      rw [(ink_blanks hblank _).1, ink_separator rfl]
    have hcall : callInk? (ink after) = readInk 0 [] (ink s) := by
      have hdropped : (ink after).dropWhile isBlankAtom = ['('] :: ink s := by
        rw [hsplit, hink, List.dropWhile_append_of_pos (ink_blanks hblank []).2]
        rfl
      rw [callInk?, hdropped]
      rfl
    rw [hcall]
    obtain ⟨hnone, hnone'⟩ | ⟨first, others, used, rest, hreads⟩ := readArguments_ink s 0
    · exact .inl ⟨hnone _ _, hnone' _⟩
    · refine .inr ⟨_, g ++ '(' :: used, rest, ?_, hreads.text _ _, ?_, ?_, hreads.inked _⟩
      · rw [hsplit, hreads.split]
        simp
      · simp only [List.length_append, List.length_cons]
        omega
      · rw [hsplit, hink, hink, hreads.seam]
        simp
  · have hnone : ((ink after).dropWhile isBlankAtom).head? ≠ some ['('] := by
      rw [isAdjacent, decide_eq_false hopen, Bool.or_false] at h
      exact of_decide_eq_true h
    refine .inl ⟨readCall?_eq_none fun rest hdrop => hopen (by rw [hdrop]; rfl), ?_⟩
    unfold callInk?
    split
    · rename_i heq
      rw [heq] at hnone
      exact absurd rfl hnone
    · rfl

/-- **A word is replaced alike in a text and in its ink**, if it is tidy. -/
theorem replaceInk_ink {inner : List Char → List (List Char)} {inner' : String → List (List Char) → List (List Char)}
    (htidy : isTidyWord scope word after = true) (hword : isInk word = true)
    (hinner : ∀ r n newlines, verdict scope word after = .becomes r n newlines →
      (inner r).filter isInk = inner' (String.ofList word) (ink r)) :
    (replaceInk inner' scope word (ink after)).1 = ((verdict scope word after).atoms inner word after).filter isInk ∧
      (ink after).drop (replaceInk inner' scope word (ink after)).2 = ink (after.drop (verdict scope word after).consumed) := by
  rw [verdict_eq] at hinner ⊢
  rw [isTidyWord] at htidy
  rw [replaceInk]
  cases hm : macroFor? scope word with
  | none => simp [Verdict.atoms, Verdict.consumed, hword]
  | some m =>
    rw [hm] at hinner htidy
    dsimp only at hinner htidy ⊢
    cases hparameters : m.parameters with
    | none =>
      rw [hparameters] at hinner
      simp [Verdict.atoms, Verdict.consumed, hinner _ _ _ rfl]
    | some parameters =>
      rw [hparameters] at hinner htidy
      dsimp only at hinner htidy ⊢
      rw [Bool.and_eq_true] at htidy
      obtain ⟨hnone, hnone'⟩ | ⟨call, used, rest, rfl, hcall, hlength, hseam, hcall'⟩ := frontCall?_ink htidy.1
      · have hstays : callVerdict m parameters after = .stays := by
          rw [callVerdict]
          rw [frontCall?] at hnone
          simp only [hnone]
        rw [hstays, hnone']
        simp [Verdict.atoms, Verdict.consumed, hword]
      · rw [hcall, Option.all_some, isTidyCall] at htidy
        obtain ⟨hlengths, hpasted⟩ := (Bool.and_eq_true _ _).mp htidy.2
        have hverdict : callVerdict m parameters (used ++ rest) =
            if (callArguments parameters.length call).length ≠ parameters.length then .keeps used.length
            else .becomes (substitute parameters (callArguments parameters.length call) m.body.toList) used.length
              (Text.newlineCount used) := by
          rw [callVerdict]
          rw [frontCall?] at hcall
          simp only [hcall, hlength, List.take_left]
        rw [hverdict] at hinner ⊢
        rw [hcall', hseam]
        simp only [List.length_append, Nat.add_sub_cancel, List.take_left, ← of_decide_eq_true hlengths]
        by_cases hcount : (callArguments parameters.length call).length ≠ parameters.length
        · rw [if_pos hcount, if_pos hcount]
          simp [Verdict.atoms, Verdict.consumed, hword, ink]
        · rw [if_neg hcount] at hinner
          rw [if_neg hcount, if_neg hcount]
          have hink : ink (substitute parameters (callArguments parameters.length call) m.body.toList) =
              substituteInk parameters (argumentInk parameters.length (call.arguments.map ink)) (ink m.body.toList) := by
            simpa [hcount] using hpasted
          simp [Verdict.atoms, Verdict.consumed, hinner _ _ _ rfl, hink, isInk, Shader.isGap]

/-- **One pass**, if it is tidy, does to the ink of a text what it does to the text. -/
theorem filter_atomsWith {inner : String → List Char → List (List Char)} {isTidy : String → List Char → Bool}
    {inner' : String → List (List Char) → List (List Char)} (htidy : isTidyWith isTidy scope s = true)
    (hinner : ∀ name r, isTidy name r = true → (inner name r).filter isInk = inner' name (ink r)) :
    (atomsWith inner scope s).filter isInk = expandInkWith inner' scope (ink s) := by
  fun_induction atomsWith inner scope s with
  | case1 => simp [expandInkWith]
  | case2 c rest front after hc v ih =>
    rw [isTidyWith, if_pos hc] at htidy
    simp only [Bool.and_eq_true] at htidy
    obtain ⟨⟨hfirst, hinside⟩, hlater⟩ := htidy
    have hfront : isInk front = true := by
      have hgap : Shader.isGap c = false := by
        by_contra hgap
        have hplain := isWordChar_of_isBlank (isBlank_of_isGap (by simpa using hgap))
        rw [isWordChar_of_isWordStart hc] at hplain
        cases hplain
      simp [front, isInk, hgap, commentLength?_of_ne (ne_slash_of_isWordStart hc)]
    have hword : isWord front = true := by simpa [front, isWord] using hc
    have hinner' : ∀ r n newlines, v = .becomes r n newlines →
        (inner (String.ofList front) r).filter isInk = inner' (String.ofList front) (ink r) := by
      intro r n newlines hv
      have hinside : v.isTidy (isTidy (String.ofList front)) = true := hinside
      rw [hv] at hinside
      exact hinner _ r hinside
    obtain ⟨hreplaced, hdropped⟩ := replaceInk_ink hfirst hfront hinner'
    rw [List.filter_append, ih hlater, ink_cons, if_pos hfront, List.singleton_append, expandInkWith, if_pos hword]
    simp only [hreplaced, hdropped]
    rfl
  | case3 c rest front after hc ih =>
    rw [isTidyWith, if_neg hc] at htidy
    rw [List.filter_cons, ih htidy, ink_cons]
    by_cases hfront : isInk front = true
    · have hword : ¬isWord front = true := by simpa [front, isWord] using hc
      rw [if_pos hfront, if_pos hfront, List.singleton_append, expandInkWith, if_neg hword]
    · rw [if_neg hfront, if_neg hfront, List.nil_append]

/-- **Tidy passes** expand the ink of a text. -/
theorem filter_atomsLevels (macros : MacroTable) (maxDepth : Nat) : ∀ (levels : Nat) (active : List String) (text : List Char),
    isTidyLevels macros maxDepth levels active text = true →
      (atomsLevels macros maxDepth levels active text).filter isInk = expandInkLevels macros maxDepth levels active (ink text)
  | 0, _, _, h => filter_atomsWith h fun _ _ _ => rfl
  | levels + 1, active, _, h => filter_atomsWith h fun name r => filter_atomsLevels macros maxDepth levels (active ++ [name]) r

/-! ## The text of a result -/

theorem atomMore_word (hc : isWordStart c = true) (rest : List Char) : atomMore c rest = pieceMore c rest := by
  rw [pieceMore_of_isWordStart hc, atomMore, commentLength?_of_ne (ne_slash_of_isWordStart hc)]
  simp [isNumber_of_isWordStart hc, hc]

/-- A pass keeps the rest of a mark. -/
theorem text_expandWith_run (inner : String → List Char → Expansion) (scope : Scope) {p : List Char}
    (hp : ∀ d ∈ p, isWordChar d = false ∧ d ≠ '.' ∧ d ≠ '/') (s : List Char) :
    (expandWith inner scope (p ++ s)).text = p ++ (expandWith inner scope s).text := by
  induction p with
  | nil => rfl
  | cons d p ih =>
    obtain ⟨⟨hword, hdot, hslash⟩, hp⟩ := List.forall_mem_cons.mp hp
    have hstart := isWordStart_eq_false hword
    have hmore : pieceMore d (p ++ s) = 0 := by
      rw [pieceMore, commentLength?_of_ne hslash]
      simp [not_isNumber_of_not_isWordChar hword hdot, hstart]
    rw [List.cons_append, text_expandWith_plain inner scope _ hstart, hmore]
    simp [ih hp]

/-- A pass keeps an atom that is no word. -/
theorem text_expandWith_atom (inner : String → List Char → Expansion) (scope : Scope) (hc : isWordStart c = false) (rest : List Char) :
    (expandWith inner scope (c :: rest)).text =
      c :: rest.take (atomMore c rest) ++ (expandWith inner scope (rest.drop (atomMore c rest))).text := by
  have hplain := text_expandWith_plain inner scope rest hc
  rw [pieceMore] at hplain
  rw [atomMore]
  cases hcomment : commentLength? (c :: rest) with
  | some n =>
    rw [hcomment] at hplain
    exact hplain
  | none =>
    rw [hcomment] at hplain
    dsimp only at hplain ⊢
    by_cases hnumber : isNumber c rest = true
    · rw [if_pos hnumber] at hplain ⊢
      exact hplain
    · rw [if_neg hnumber, hc] at hplain ⊢
      simp only [Bool.false_eq_true, if_false, List.take_zero, List.drop_zero] at hplain ⊢
      split
      · rename_i found
        obtain ⟨literal, hmem, hfront, rfl⟩ := longestLiteral_eq_some found
        cases literal with
        | nil => exact hplain
        | cons e more =>
          rw [List.isPrefixOf_cons_cons, Bool.and_eq_true, beq_iff_eq, List.isPrefixOf_iff_prefix] at hfront
          obtain ⟨rfl, tail, rfl⟩ := hfront
          have hrun := text_expandWith_run inner scope (p := more) (fun d hd => by
            obtain ⟨hword, hdot, hslash, -⟩ := of_mem_tail hmem hd
            exact ⟨hword, hdot, hslash⟩) tail
          rw [List.length_cons, Nat.add_sub_cancel, List.take_left, List.drop_left, hplain, hrun]
          rfl
      · exact hplain

theorem flatten_verdict {inner : List Char → List (List Char)} {innerText : List Char → List Char}
    (h : ∀ r, (inner r).flatten = innerText r) (word after : List Char) (v : Verdict) :
    (v.atoms inner word after).flatten = v.text innerText word after := by
  cases v with
  | stays => simp [Verdict.atoms, Verdict.text]
  | keeps n => simp [Verdict.atoms, Verdict.text, flatten_atoms]
  | becomes r n newlines =>
    have hnewlines : (List.replicate newlines ['\n']).flatten = List.replicate newlines '\n' := by
      induction newlines with
      | zero => rfl
      | succ newlines ih => rw [List.replicate_succ, List.flatten_cons, ih, List.replicate_succ, List.singleton_append]
    rw [Verdict.atoms, Verdict.text, List.flatten_append, h, hnewlines]

theorem flatten_atomsWith {inner : String → List Char → List (List Char)} {innerText : String → List Char → Expansion}
    (h : ∀ name r, (inner name r).flatten = (innerText name r).text) (scope : Scope) (text : List Char) :
    (atomsWith inner scope text).flatten = (expandWith innerText scope text).text := by
  fun_induction atomsWith inner scope text with
  | case1 => simp [expandWith]
  | case2 c rest front after hc v ih =>
    have hmore := atomMore_word hc rest
    rw [text_expandWith_word innerText scope rest hc, List.flatten_append, ih, flatten_verdict (h _), ← hmore]
  | case3 c rest front after hc ih =>
    rw [text_expandWith_atom innerText scope (by simpa using hc) rest, List.flatten_cons, ih]

/-- **A result is put together from its atoms.** -/
theorem flatten_atomsLevels (macros : MacroTable) (maxDepth : Nat) : ∀ (levels : Nat) (active : List String) (text : List Char),
    (atomsLevels macros maxDepth levels active text).flatten = (expandLevels macros maxDepth levels active text).text
  | 0, _, text => flatten_atomsWith (fun _ r => flatten_atoms r) _ text
  | levels + 1, active, text => flatten_atomsWith (fun name r => flatten_atomsLevels macros maxDepth levels (active ++ [name]) r) _ text

/-! ## Comments -/

/-- **The tokens of a tidy expansion can be told from the ink of the text.** -/
theorem written_expand {text : String} {maxDepth : Nat} (h : Tidy macros maxDepth text.toList) :
    (Shader.tokens (expand macros maxDepth text).1).map Token.written =
      (expandInk macros maxDepth (ink text.toList)).flatMap fun a => (Shader.tokens (String.ofList a)).map Token.written := by
  have hresult := h.result
  rw [expandAtoms, filter_atomsLevels macros maxDepth maxDepth [] text.toList h.passes, flatten_atomsLevels] at hresult
  exact hresult

/-- **Comments do not influence tidy expansions.** With blanks for its comments, a text is expanded to the same tokens. -/
theorem expand_blanked (macros : MacroTable) (maxDepth : Nat) (text : String) (h : Tidy macros maxDepth text.toList)
    (h' : Tidy macros maxDepth (blanked text.toList)) :
    (Shader.tokens (expand macros maxDepth text).1).map Token.written =
      (Shader.tokens (expand macros maxDepth (String.ofList (blanked text.toList))).1).map Token.written := by
  rw [written_expand h, written_expand (by rwa [String.toList_ofList]), String.toList_ofList, ink_blanked]

/-- Macros with and without parameters. -/
def scaled : MacroTable :=
  tableOf [{ name := "N", body := "4" }, { name := "ADD", parameters := some ["a", "b"], body := "a + b" },
    { name := "MAX", parameters := some ["a", "b"], body := "max((a), (b))" }]

/-- Comments before and after arguments, over two lines, with commas, parentheses and names of macros in them, and at the end of a line. -/
def scaledText : String := "x = MAX(/* one, */ 1.0 /* N) */, ADD(y /*\n*/ , N)) // MAX(2\n  + N; /* open"

/-- The expansion of a text gives the same tokens as that of the text with blanks for its comments. -/
theorem expand_blanked_scaled :
    Tidy scaled 16 scaledText.toList ∧ Tidy scaled 16 (blanked scaledText.toList) ∧
      (expand scaled 16 scaledText).1 = "x = max((/* one, */ 1.0 /* N) */), (y /* */ + 4))\n // MAX(2\n  + 4; /* open" ∧
      (expand scaled 16 (String.ofList (blanked scaledText.toList))).1 = "x = max((1.0), (y + 4))  \n  + 4;  " ∧
      (Shader.tokens (expand scaled 16 scaledText).1).map Token.written =
        (Shader.tokens (expand scaled 16 (String.ofList (blanked scaledText.toList))).1).map Token.written := by
  have htext : scaledText.toList = _ := String.toList_ofList
  have h : Tidy scaled 16 scaledText.toList := by rw [htext]; decide +kernel
  have h' : Tidy scaled 16 (blanked scaledText.toList) := by rw [htext]; decide +kernel
  refine ⟨h, h', ?_, ?_, expand_blanked scaled 16 scaledText h h'⟩
  · rw [expand, htext]
    decide +kernel
  · rw [expand, String.toList_ofList, htext]
    decide +kernel

/-- Macros whose replacements can run together with what stands beside them. -/
def unparted : MacroTable :=
  tableOf [{ name := "F", parameters := some ["x"], body := "(x)" }, { name := "NEG", parameters := some ["x"], body := "-x" },
    { name := "ZERO", parameters := some [], body := "0" }, { name := "DIV", body := "/" }]

/-- **Comments can influence an expansion.** The line comment in an argument takes in what is pasted after it. No call is read where a
comment comes before the parenthesis, and a comment counts as an argument. And a comment keeps apart what would run together, or runs
together itself with a slash before it. -/
theorem expand_commented : (∀ m ∈ unparted.toList, blanked m.body.toList = m.body.toList) ∧
    ∀ text ∈ ["F(1 // one\n)", "F/* one */(1)", "ZERO(/* none */)", "NEG(/* minus */-1)", "1 DIV/* by */ 2"],
      (Shader.tokens (expand unparted 16 text).1).map Token.written ≠
        (Shader.tokens (expand unparted 16 (String.ofList (blanked text.toList))).1).map Token.written := by
  decide +kernel

end ShaderFront.Macro
