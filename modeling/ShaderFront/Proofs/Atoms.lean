import Mathlib
import ShaderFront.Proofs.Endings
import ShaderFront.Proofs.Opaque

/-!
# Texts without white space and comments

A text is made of atoms: numbers, words and marks, with white space and comments in between. What matters of it is its ink
(`Macro.ink`), the atoms other than white space and comments. With blanks for its comments a text has the same ink (`Macro.ink_blanked`).
A call can be read off the ink (`Macro.readAtoms`), with the same arguments as off the text (`Macro.readArguments_ink`).
-/

namespace ShaderFront

namespace Macro

variable {c d : Char} {rest s t p k : List Char}

/-! ## Atoms -/

/-- The length of the atom at the front of a text after its first character: the rest of a comment, a number, a word or a mark. -/
def atomMore (c : Char) (rest : List Char) : Nat :=
  match commentLength? (c :: rest) with
  | some n => n - 1
  | none =>
    if isNumber c rest then numberMore c rest
    else if isWordStart c then runLength isWordChar rest
    else
      match longestLiteral Shader.marks (c :: rest) with
      | some (_, n) => n - 1
      | none => 0

/-- The atoms of a text. A white space character is an atom, and so is a comment. -/
def atoms : List Char → List (List Char)
  | [] => []
  | c :: rest => (c :: rest.take (atomMore c rest)) :: atoms (rest.drop (atomMore c rest))
termination_by s => s.length
decreasing_by simp only [List.length_drop, List.length_cons]; omega

/-- Whether an atom is neither white space nor a comment. -/
def isInk : List Char → Bool
  | [] => false
  | c :: rest => !Shader.isGap c && (commentLength? (c :: rest)).isNone

/-- The atoms of a text other than white space and comments. -/
def ink (s : List Char) : List (List Char) := (atoms s).filter isInk

theorem flatten_atoms (s : List Char) : (atoms s).flatten = s := by
  fun_induction atoms s with
  | case1 => rfl
  | case2 c rest ih => rw [List.flatten_cons, ih, List.cons_append, List.take_append_drop]

/-! ## Where atoms end -/

/-- Whether no atom other than a comment goes on with a character. -/
def isBreak (c : Char) : Bool := Shader.isGap c || c = '/' || c = '(' || c = ')' || c = ','

/-- A text at whose front no atom goes on. -/
def Breaks (s : List Char) : Prop := ∀ c ∈ s.head?, isBreak c = true

theorem isBreak_cases (h : isBreak c = true) : c ∈ [' ', '\t', '\r', '\n', '\x0c', '\x0b', '/', '(', ')', ','] := by
  simpa [isBreak, Shader.isGap, or_assoc] using h

theorem Breaks.severed (h : Breaks s) : Severed s := by
  intro c hc
  have hmem := isBreak_cases (h c hc)
  exact List.forall_iff_forall_mem.mp (by decide : List.Forall (fun c : Char => isWordChar c = false ∧ c ∉ ['.', '+', '-']) _) c hmem

/-- The marks of more than one character are made of these. -/
def isOperatorChar (c : Char) : Bool := c ∈ ['<', '>', '=', '!', '&', '|', '^', '+', '-', '*', '/', '%']

theorem all_front_marks : (Shader.marks.all fun entry => entry.1.length ≤ 1 || entry.1.head?.any isOperatorChar) = true := by
  decide

theorem all_tail_marks : (Shader.marks.all fun entry => entry.1.tail.all fun c => isOperatorChar c && c ≠ '/') = true := by
  decide

theorem of_mem_tail {entry : List Char × Shader.TokenKind} (hentry : entry ∈ Shader.marks) (hd : d ∈ entry.1.tail) :
    isWordChar d = false ∧ d ≠ '.' ∧ d ≠ '/' ∧ isBreak d = false := by
  have htail := List.all_eq_true.mp (List.all_eq_true.mp all_tail_marks _ hentry) d hd
  simp only [isOperatorChar, Bool.and_eq_true, decide_eq_true_eq] at htail
  refine List.forall_iff_forall_mem.mp (by decide : List.Forall (fun d : Char => d ≠ '/' → isWordChar d = false ∧ d ≠ '.' ∧ d ≠ '/' ∧
    isBreak d = false) _) d htail.1 htail.2

/-- **The atom at the front of a text** ends where white space, a comment or a parenthesis begins. -/
theorem atomMore_append (hs : Breaks s) (hcomment : commentLength? (c :: (p ++ s)) = none) : atomMore c (p ++ s) = atomMore c p := by
  have hcomment' : commentLength? (c :: p) = none := by
    cases p with
    | nil => simp [commentLength?]
    | cons d p => simpa using commentLength?_eq_none_append (List.cons_ne_nil d p) hcomment []
  have hnumber : isNumber c (p ++ s) = isNumber c p := by
    cases p with
    | nil =>
      cases s with
      | nil => rfl
      | cons d s =>
        simp [isNumber, isDigit_eq_false (hs.severed d rfl).1]
    | cons d p => rfl
  have hmarks : longestLiteral Shader.marks (c :: (p ++ s)) = longestLiteral Shader.marks (c :: p) := by
    refine Directive.longestLiteral_congr fun entry hentry => isPrefixOf_append_stop (fun d hd hmem => ?_) c p
    have hnone := (of_mem_tail hentry hmem).2.2.2
    rw [hs d hd] at hnone
    cases hnone
  rw [atomMore, atomMore, hcomment, hcomment', hnumber, numberMore_append hs.severed,
    runLength_append_stop p fun d hd => (hs.severed d hd).1, hmarks]

theorem not_isNumber_of_not_isWordChar (hc : isWordChar c = false) (hdot : c ≠ '.') (s : List Char) : isNumber c s = false := by
  simp [isNumber, isDigit_eq_false hc, hdot]

/-- Most characters are marks by themselves. -/
theorem atomMore_single (hc : isWordChar c = false) (hdot : c ≠ '.') (hoperator : isOperatorChar c = false) (s : List Char) :
    atomMore c s = 0 := by
  have hslash : c ≠ '/' := by
    rintro rfl
    cases hoperator
  rw [atomMore, commentLength?_of_ne hslash]
  simp only [not_isNumber_of_not_isWordChar hc hdot, isWordStart_eq_false hc, Bool.false_eq_true, if_false]
  split
  · rename_i found
    obtain ⟨literal, hmem, hfront, rfl⟩ := longestLiteral_eq_some found
    have hfronts := List.all_eq_true.mp all_front_marks _ hmem
    cases literal with
    | nil => rfl
    | cons e more =>
      rw [List.isPrefixOf_cons_cons, Bool.and_eq_true, beq_iff_eq] at hfront
      rw [hfront.1] at hfronts
      simpa [hoperator] using hfronts
  · rfl

theorem atomMore_of_isBlank (hc : Text.isBlank c = true) (s : List Char) : atomMore c s = 0 := by
  have hne : ∀ {d : Char}, Text.isBlank d = false → c ≠ d := by
    rintro d hd rfl
    rw [hc] at hd
    cases hd
  refine atomMore_single (isWordChar_of_isBlank hc) (hne (by decide)) ?_ s
  refine decide_eq_false fun hmem => ?_
  have hnone := List.all_eq_true.mp (by decide :
    (['<', '>', '=', '!', '&', '|', '^', '+', '-', '*', '/', '%'].all fun d => !Text.isBlank d) = true) c hmem
  rw [hc] at hnone
  cases hnone

theorem isBlank_of_isGap (hc : Shader.isGap c = true) : Text.isBlank c = true := by
  simp only [Shader.isGap, Bool.or_eq_true, decide_eq_true_eq] at hc
  rcases hc with ((((rfl | rfl) | rfl) | rfl) | rfl) | rfl <;> decide

/-- What parts the arguments of a call. -/
def isCallSeparator (c : Char) : Bool := c ∈ ['(', ')', ',']

theorem atomMore_separator (hc : isCallSeparator c = true) (s : List Char) : atomMore c s = 0 := by
  simp only [isCallSeparator, List.mem_cons, List.not_mem_nil, or_false, decide_eq_true_eq] at hc
  refine atomMore_single ?_ ?_ ?_ s <;> rcases hc with rfl | rfl | rfl <;> decide

/-- A separator is an atom. -/
theorem eq_nil_of_separator (hc : isCallSeparator c = true) (hmore : atomMore c (p ++ s) = p.length) : p = [] := by
  rw [atomMore_separator hc] at hmore
  exact List.length_eq_zero_iff.mp hmore.symm

theorem isBreak_of_isCallSeparator (hc : isCallSeparator c = true) : isBreak c = true := by
  simp only [isCallSeparator, List.mem_cons, List.not_mem_nil, or_false, decide_eq_true_eq] at hc
  rcases hc with rfl | rfl | rfl <;> decide

/-- Behind its first character, an atom other than a comment has no break. -/
theorem not_isBreak_of_mem (hcomment : commentLength? (c :: rest) = none) (hd : d ∈ rest.take (atomMore c rest)) : isBreak d = false := by
  by_contra hbreak
  have hbreaks : Breaks [d] := by
    rintro _ ⟨⟩
    simpa using hbreak
  have hplain := hbreaks.severed d rfl
  rw [atomMore, hcomment] at hd
  dsimp only at hd
  split at hd
  · exact Directive.ne_of_mem_number hd hplain rfl
  · split at hd
    · rw [of_mem_take_runLength hd] at hplain
      cases hplain.1
    · split at hd
      · rename_i found
        obtain ⟨literal, hmem, hfront, rfl⟩ := longestLiteral_eq_some found
        cases literal with
        | nil => cases hd
        | cons e more =>
          rw [List.isPrefixOf_cons_cons, Bool.and_eq_true, beq_iff_eq, List.isPrefixOf_iff_prefix] at hfront
          obtain ⟨-, tail, rfl⟩ := hfront
          rw [List.length_cons, Nat.add_sub_cancel, List.take_left] at hd
          exact hbreak (of_mem_tail hmem hd).2.2.2
      · cases hd

theorem two_le_commentLength {n : Nat} (h : commentLength? s = some n) : 2 ≤ n := by
  unfold commentLength? at h
  split at h
  · obtain rfl := Option.some.inj h
    omega
  · obtain rfl := Option.some.inj h
    omega
  · cases h

theorem commentLength?_le {n : Nat} (h : commentLength? s = some n) : n ≤ s.length := by
  unfold commentLength? at h
  split at h
  · rename_i rest
    obtain rfl := Option.some.inj h
    have := (Numeral.take_runLength (· ≠ '\n') rest).2
    simpa using this
  · rename_i rest
    obtain rfl := Option.some.inj h
    obtain ⟨-, hlength⟩ | ⟨front, back, rfl, -, hlength⟩ := Directive.closeLength_cases rest
    · simp [hlength]
    · simp [hlength]
  · cases h

theorem atomMore_le (hcomment : commentLength? (c :: rest) = none) : atomMore c rest ≤ rest.length := by
  rw [atomMore, hcomment]
  dsimp only
  split
  · exact numberTail_le _ _ _
  · split
    · exact (Numeral.take_runLength _ _).2
    · split
      · rename_i found
        obtain ⟨literal, -, hfront, rfl⟩ := longestLiteral_eq_some found
        have hle := (List.isPrefixOf_iff_prefix.mp hfront).length_le
        rw [List.length_cons] at hle
        omega
      · exact Nat.zero_le _

/-- **Induction on the atoms of a text.** -/
@[elab_as_elim]
theorem atomInduction {motive : List Char → Prop} (nil : motive [])
    (comment : ∀ k s, commentLength? (k ++ s) = some k.length → motive s → motive (k ++ s))
    (gap : ∀ c s, Shader.isGap c = true → motive s → motive (c :: s))
    (atom : ∀ c p s, commentLength? (c :: (p ++ s)) = none → Shader.isGap c = false → atomMore c (p ++ s) = p.length →
      motive s → motive (c :: (p ++ s))) (s : List Char) : motive s := by
  induction hsize : s.length using Nat.strongRecOn generalizing s with
  | ind size ih =>
  subst hsize
  cases s with
  | nil => exact nil
  | cons c rest =>
    have hback : ∀ n, motive (rest.drop n) := by
      intro n
      refine ih _ ?_ _ rfl
      rw [List.length_drop, List.length_cons]
      omega
    cases h : commentLength? (c :: rest) with
    | some n =>
      obtain ⟨n, rfl⟩ : ∃ m, n = m + 1 := ⟨n - 1, by have := two_le_commentLength h; omega⟩
      have hle := commentLength?_le h
      rw [List.length_cons] at hle
      have hsplit : c :: rest = c :: rest.take n ++ rest.drop n := by rw [List.cons_append, List.take_append_drop]
      rw [hsplit] at h ⊢
      refine comment _ _ ?_ (hback n)
      rw [h, List.length_cons, List.length_take, min_eq_left (by omega)]
    | none =>
      by_cases hgap : Shader.isGap c = true
      · exact gap c rest hgap (hback 0)
      · have hle := atomMore_le h
        have hsplit : rest = rest.take (atomMore c rest) ++ rest.drop (atomMore c rest) := (List.take_append_drop ..).symm
        have hmore : atomMore c rest = (rest.take (atomMore c rest)).length := by rw [List.length_take, min_eq_left hle]
        have hatom := atom c (rest.take (atomMore c rest)) (rest.drop (atomMore c rest))
        rw [← hsplit] at hatom
        exact hatom h (by simpa using hgap) hmore (hback _)

/-! ## Ink -/

@[simp] theorem ink_nil : ink [] = [] := by
  rw [ink, atoms]
  rfl

theorem ink_cons (c : Char) (rest : List Char) : ink (c :: rest) =
    (if isInk (c :: rest.take (atomMore c rest)) then [c :: rest.take (atomMore c rest)] else []) ++
      ink (rest.drop (atomMore c rest)) := by
  rw [ink, atoms, List.filter_cons]
  split <;> rfl

theorem ink_gap (hc : Shader.isGap c = true) (s : List Char) : ink (c :: s) = ink s := by
  rw [ink_cons, atomMore_of_isBlank (isBlank_of_isGap hc)]
  simp [isInk, hc]

/-- The front of a text that begins with no comment begins with none. -/
theorem commentLength?_front (h : commentLength? (c :: (p ++ s)) = none) : commentLength? (c :: p) = none := by
  cases p with
  | nil => simp [commentLength?]
  | cons d p => simpa using commentLength?_eq_none_append (List.cons_ne_nil d p) h []

theorem ink_atom (hcomment : commentLength? (c :: (p ++ s)) = none) (hgap : Shader.isGap c = false)
    (hmore : atomMore c (p ++ s) = p.length) : ink (c :: (p ++ s)) = (c :: p) :: ink s := by
  rw [ink_cons, hmore, List.take_left, List.drop_left]
  simp [isInk, hgap, commentLength?_front hcomment]

theorem ink_separator (hc : isCallSeparator c = true) (s : List Char) : ink (c :: s) = [c] :: ink s := by
  have hc' : c ≠ '/' ∧ Shader.isGap c = false := by
    simp only [isCallSeparator, List.mem_cons, List.not_mem_nil, or_false, decide_eq_true_eq] at hc
    rcases hc with rfl | rfl | rfl <;> decide
  exact ink_atom (p := []) (commentLength?_of_ne hc'.1 s) hc'.2 (atomMore_separator hc s)

theorem ink_comment (h : commentLength? (k ++ s) = some k.length) : ink (k ++ s) = ink s := by
  cases k with
  | nil => rfl
  | cons c k =>
    have hfront : isInk (c :: k) = false := by
      have hlength := two_le_commentLength h
      cases k with
      | nil => simp at hlength
      | cons d k =>
        revert h
        rw [List.cons_append, List.cons_append]
        unfold commentLength?
        split
        · rename_i heq
          obtain ⟨rfl, rfl, -⟩ : c = '/' ∧ d = '/' ∧ _ := by simpa using heq
          intro _
          rfl
        · rename_i heq
          obtain ⟨rfl, rfl, -⟩ : c = '/' ∧ d = '*' ∧ _ := by simpa using heq
          intro _
          rfl
        · exact fun h => by cases h
    rw [List.cons_append] at h ⊢
    have hmore : atomMore c (k ++ s) = k.length := by
      rw [atomMore, h]
      rfl
    rw [ink_cons, hmore, List.take_left, List.drop_left, hfront]
    rfl

/-! ## Blanks for comments -/

/-- A text with a blank for each comment. -/
def blanked : List Char → List Char
  | [] => []
  | c :: rest =>
    match commentLength? (c :: rest) with
    | some n => ' ' :: blanked (rest.drop (n - 1))
    | none => c :: blanked rest
termination_by s => s.length
decreasing_by all_goals (simp only [List.length_cons, List.length_drop]; omega)

theorem blanked_cons (h : commentLength? (c :: rest) = none) : blanked (c :: rest) = c :: blanked rest := by
  rw [blanked, h]

theorem blanked_append (hp : ∀ d ∈ p, isBreak d = false) (s : List Char) : blanked (p ++ s) = p ++ blanked s := by
  induction p with
  | nil => rfl
  | cons d p ih =>
    obtain ⟨hd, hp⟩ := List.forall_mem_cons.mp hp
    have hslash : d ≠ '/' := by
      rintro rfl
      cases hd
    rw [List.cons_append, blanked_cons (commentLength?_of_ne hslash _), ih hp, List.cons_append]

/-- A text and the same with blanks for comments are alike up to a break. -/
theorem exists_blanked_front (s : List Char) : ∃ p x y, s = p ++ x ∧ blanked s = p ++ y ∧ Breaks x ∧ Breaks y := by
  fun_induction blanked s with
  | case1 => exact ⟨[], [], [], rfl, rfl, by simp [Breaks], by simp [Breaks]⟩
  | case2 c rest n h ih =>
    obtain rfl := eq_slash_of_commentLength? h
    refine ⟨[], _, _, rfl, rfl, ?_, ?_⟩ <;> (rintro _ ⟨⟩; rfl)
  | case3 c rest h ih =>
    obtain ⟨p, x, y, rfl, hy, hx, hy'⟩ := ih
    exact ⟨c :: p, x, y, rfl, by rw [hy, List.cons_append], hx, hy'⟩

theorem commentLength?_blanked (h : commentLength? (c :: rest) = none) : commentLength? (c :: blanked rest) = none := by
  refine commentLength?_cons_eq_none.mpr fun hc e he => ?_
  cases rest with
  | nil => simp [blanked] at he
  | cons d rest =>
    have hd := commentLength?_cons_eq_none.mp h hc d rfl
    rw [blanked_cons (commentLength?_of_ne hd.1 rest)] at he
    cases he
    exact hd

theorem atomMore_blanked (h : commentLength? (c :: rest) = none) : atomMore c (blanked rest) = atomMore c rest := by
  have h' := commentLength?_blanked h
  obtain ⟨p, x, y, rfl, hy, hx, hy'⟩ := exists_blanked_front rest
  rw [hy] at h' ⊢
  rw [atomMore_append hx h, atomMore_append hy' h']

theorem blanked_comment (h : commentLength? (k ++ s) = some k.length) : blanked (k ++ s) = ' ' :: blanked s := by
  cases k with
  | nil => exact absurd (two_le_commentLength h) (by simp)
  | cons c k =>
    rw [List.cons_append] at h ⊢
    rw [blanked, h]
    simp only [List.length_cons, Nat.add_sub_cancel, List.drop_left]

/-- **Comments leave no ink.** -/
theorem ink_blanked (s : List Char) : ink (blanked s) = ink s := by
  induction s using atomInduction with
  | nil => rw [blanked]
  | comment k s hcomment ih => rw [blanked_comment hcomment, ink_comment hcomment, ink_gap (by decide), ih]
  | gap c s hgap ih =>
    have hslash : c ≠ '/' := by
      rintro rfl
      cases hgap
    rw [blanked_cons (commentLength?_of_ne hslash s), ink_gap hgap, ink_gap hgap, ih]
  | atom c p s hcomment hgap hmore ih =>
    have hp : ∀ d ∈ p, isBreak d = false := by
      intro d hd
      refine not_isBreak_of_mem hcomment ?_
      rwa [hmore, List.take_left]
    have hcomment' := commentLength?_blanked hcomment
    have hmore' := (atomMore_blanked hcomment).trans hmore
    rw [blanked_append hp] at hcomment' hmore'
    rw [blanked_cons hcomment, blanked_append hp, ink_atom hcomment hgap hmore, ink_atom hcomment' hgap hmore', ih]

/-! ## Calls -/

/-- The arguments of a call in their ink, and the ink that follows it. -/
structure InkCall where
  arguments : List (List (List Char))
  rest : List (List Char)

/-- Reads the rest of a call off the ink of a text. `depth` counts the open parentheses, and `current` holds the argument under way,
last atom first. -/
def readInk (depth : Nat) (current : List (List Char)) : List (List Char) → Option InkCall
  | [] => none
  | a :: rest =>
    if a = ['('] then readInk (depth + 1) (a :: current) rest
    else if a = [')'] then
      if depth = 0 then some ⟨[current.reverse], rest⟩ else readInk (depth - 1) (a :: current) rest
    else if a = [','] && depth = 0 then
      (readInk depth [] rest).map fun call => { call with arguments := current.reverse :: call.arguments }
    else readInk depth (a :: current) rest

/-- A call is read off a text, from inside of its first argument on, and off the ink of the text. -/
structure Reads (depth : Nat) (s first : List Char) (others : List (List Char)) (used rest : List Char) : Prop where
  split : s = used ++ rest
  separated : ∃ d more, isCallSeparator d = true ∧ used = first ++ d :: more
  seam : ink s = ink used ++ ink rest
  text : ∀ current length, readArguments depth current length s = some ⟨(current.reverse ++ first) :: others, length + used.length⟩
  inked : ∀ current, readInk depth current (ink s) = some ⟨(current.reverse ++ ink first) :: others.map ink, ink rest⟩

/-- No call is read off a text or off its ink. -/
def ReadsNone (depth : Nat) (s : List Char) : Prop :=
  (∀ current length, readArguments depth current length s = none) ∧ ∀ current, readInk depth current (ink s) = none

/-- The front `q` of a call leaves its own ink `a` before that of the arguments, which may end early. -/
def Joins (q : List Char) (a : List (List Char)) (s : List Char) : Prop :=
  ∀ x d z y, isCallSeparator d = true → s = x ++ d :: z → (∀ e ∈ y.head?, e = d) → ink (q ++ (x ++ y)) = a ++ ink (x ++ y)

/-- What a call is read off goes on with the argument. -/
structure Continues (depth depth' : Nat) (q : List Char) (a : List (List Char)) (s : List Char) : Prop where
  joins : Joins q a s
  text : ∀ current length, readArguments depth current length (q ++ s) =
    readArguments depth' (q.reverse ++ current) (length + q.length) s
  inked : ∀ current, readInk depth current (ink (q ++ s)) = readInk depth' (a.reverse ++ current) (ink s)

variable {depth depth' : Nat} {q first used : List Char} {others a : List (List Char)}

theorem Reads.after (h : Reads depth' s first others used rest) (hq : Continues depth depth' q a s) :
    Reads depth (q ++ s) (q ++ first) others (q ++ used) rest := by
  obtain ⟨d, more, hd, rfl⟩ := h.separated
  have hsplit : s = first ++ d :: (more ++ rest) := by rw [h.split]; simp
  have hfirst : ink (q ++ first) = a ++ ink first := by simpa using hq.joins first d _ [] hd hsplit (by simp)
  have hused : ink (q ++ (first ++ d :: more)) = a ++ ink (first ++ d :: more) := hq.joins first d _ _ hd hsplit (by simp)
  have hwhole : ink (q ++ s) = a ++ ink s := by
    have := hq.joins first d _ (d :: (more ++ rest)) hd hsplit (by simp)
    rwa [← hsplit] at this
  refine ⟨by rw [hsplit]; simp, ⟨d, more, hd, by rw [List.append_assoc]⟩, ?_, fun current length => ?_, fun current => ?_⟩
  · rw [hwhole, hused, h.seam, List.append_assoc]
  · have hlength : (q ++ (first ++ d :: more)).length = q.length + (first ++ d :: more).length := List.length_append
    rw [hq.text, h.text, List.reverse_append, List.reverse_reverse, List.append_assoc, hlength, Nat.add_assoc]
  · rw [hq.inked, h.inked, hfirst, List.reverse_append, List.reverse_reverse, List.append_assoc]

theorem Continues.reads (hq : Continues depth depth' q a s)
    (h : ReadsNone depth' s ∨ ∃ first others used rest, Reads depth' s first others used rest) :
    ReadsNone depth (q ++ s) ∨ ∃ first others used rest, Reads depth (q ++ s) first others used rest := by
  rcases h with ⟨hnone, hnone'⟩ | ⟨first, others, used, rest, h⟩
  · exact .inl ⟨fun current length => by rw [hq.text, hnone], fun current => by rw [hq.inked, hnone']⟩
  · exact .inr ⟨_, _, _, _, h.after hq⟩

theorem commentLength?_line (hbody : '\n' ∉ p) (hs : ∀ c ∈ s.head?, c = '\n') :
    commentLength? ('/' :: '/' :: (p ++ s)) = some (p.length + 2) := by
  rw [commentLength?, runLength_run (fun c hc => by simpa using fun h : c = '\n' => hbody (h ▸ hc)) (fun c hc => by simp [hs c hc])]

/-- A comment before the end of a text is the same comment before another text, if that keeps its line break. -/
theorem commentLength?_congr (h : commentLength? (k ++ s) = some k.length) (hs : s ≠ [])
    (ht : s.head? = some '\n' → ∀ e ∈ t.head?, e = '\n') : commentLength? (k ++ t) = some k.length := by
  have hlength := two_le_commentLength h
  obtain ⟨c, d, body, rfl⟩ : ∃ c d body, k = c :: d :: body := by
    match k, hlength with
    | c :: d :: body, _ => exact ⟨c, d, body, rfl⟩
  rw [List.cons_append, List.cons_append] at h ⊢
  unfold commentLength? at h
  split at h
  · rename_i more heq
    obtain ⟨rfl, rfl, rfl⟩ : c = '/' ∧ d = '/' ∧ body ++ s = more := by simpa using heq
    have hrun : runLength (· ≠ '\n') (body ++ s) = body.length := by simpa using h
    have hbody : '\n' ∉ body := by
      intro hmem
      have hmem : '\n' ∈ (body ++ s).take (runLength (· ≠ '\n') (body ++ s)) := by rwa [hrun, List.take_left]
      cases of_mem_take_runLength hmem
    have hline : ∀ e ∈ s.head?, e = '\n' := by
      intro e he
      have hdrop := Directive.head?_drop_runLength (p := (· ≠ '\n')) (body ++ s)
      rw [hrun, List.drop_left] at hdrop
      simpa using hdrop e he
    obtain ⟨e, s, rfl⟩ := List.exists_cons_of_ne_nil hs
    obtain rfl := hline e rfl
    exact commentLength?_line hbody (ht rfl)
  · rename_i more heq
    obtain ⟨rfl, rfl, rfl⟩ : c = '/' ∧ d = '*' ∧ body ++ s = more := by simpa using heq
    have hclosed : closeLength (body ++ s) = body.length := by simpa using h
    obtain ⟨-, hopen⟩ | ⟨front, back, hsplit, hfront, hend⟩ := Directive.closeLength_cases (body ++ s)
    · rw [hclosed, List.length_append] at hopen
      exact absurd (List.length_eq_zero_iff.mp (by omega)) hs
    · have hsplit' : body ++ s = (front ++ ['*', '/']) ++ back := by rw [hsplit]; simp
      obtain ⟨rfl, -⟩ := List.append_inj hsplit' (by simpa [hclosed] using hend)
      rw [commentLength?, List.append_assoc]
      have hclose := Directive.closeLength_front hfront t
      simpa using hclose
  · cases h

theorem readArguments_comment (hk : commentLength? (k ++ s) = some k.length) (depth : Nat) (current : List Char)
    (length : Nat) : readArguments depth current length (k ++ s) = readArguments depth (k.reverse ++ current) (length + k.length) s := by
  cases k with
  | nil => rfl
  | cons c k =>
    rw [List.cons_append, readArguments, ← List.cons_append, hk]
    simp only [List.length_cons, Nat.add_sub_cancel, List.take_left, List.drop_left, Nat.add_assoc]

theorem continues_comment (hk : commentLength? (k ++ s) = some k.length) (depth : Nat) : Continues depth depth k [] s := by
  refine ⟨?_, readArguments_comment hk depth, fun current => by rw [ink_comment hk]; rfl⟩
  rintro x d z y hd rfl hy
  refine ink_comment (commentLength?_congr hk (by simp) fun hline e he => ?_)
  cases x with
  | nil =>
    obtain rfl : d = '\n' := by simpa using hline
    exact hy e he
  | cons b x =>
    rw [List.cons_append, List.head?_cons] at hline he
    rw [← Option.some.inj hline, Option.mem_some_iff.mp he]

theorem continues_gap (hc : Shader.isGap c = true) (s : List Char) (depth : Nat) : Continues depth depth [c] [] s := by
  have hne : ∀ d, Text.isBlank d = false → c ≠ d := by
    rintro d hd rfl
    rw [isBlank_of_isGap hc] at hd
    cases hd
  refine ⟨fun x d z y _ _ _ => ink_gap hc _, fun current length => ?_, fun current => ?_⟩
  · rw [List.singleton_append, readArguments, commentLength?_of_ne (hne '/' (by decide))]
    simp [hne '(' (by decide), hne ')' (by decide), hne ',' (by decide)]
  · rw [List.singleton_append, ink_gap hc]
    rfl

theorem joins_atom (hcomment : commentLength? (c :: (p ++ s)) = none) (hgap : Shader.isGap c = false)
    (hmore : atomMore c (p ++ s) = p.length) : Joins (c :: p) [c :: p] s := by
  rintro x d z y hd rfl hy
  rw [← List.append_assoc] at hcomment hmore
  have hcomment' : commentLength? (c :: ((p ++ x) ++ y)) = none := by
    by_cases hne : p ++ x = []
    · rw [hne, List.nil_append] at hcomment ⊢
      cases y with
      | nil => simp [commentLength?]
      | cons e y =>
        obtain rfl := hy e rfl
        exact @commentLength?_eq_none_append c [e] z (by simp) hcomment y
    · exact commentLength?_eq_none_append hne hcomment y
  have hbreaks : Breaks y := fun e he => isBreak_of_isCallSeparator (hy e he ▸ hd)
  have hbreaks' : Breaks (d :: z) := by
    rintro _ ⟨⟩
    exact isBreak_of_isCallSeparator hd
  rw [atomMore_append hbreaks' hcomment] at hmore
  have hmore' := atomMore_append hbreaks hcomment'
  rw [hmore, List.append_assoc] at hmore'
  rw [List.append_assoc] at hcomment'
  exact ink_atom hcomment' hgap hmore'

theorem readArguments_run (hp : ∀ d ∈ p, isBreak d = false) (s : List Char) (depth : Nat) (current : List Char)
    (length : Nat) : readArguments depth current length (p ++ s) = readArguments depth (p.reverse ++ current) (length + p.length) s := by
  induction p generalizing current length with
  | nil => rfl
  | cons d p ih =>
    obtain ⟨hd, hp⟩ := List.forall_mem_cons.mp hp
    have hne : ∀ e, isBreak e = true → d ≠ e := by
      rintro e he rfl
      rw [he] at hd
      cases hd
    rw [List.cons_append, readArguments, commentLength?_of_ne (hne '/' rfl)]
    simp [hne '(' rfl, hne ')' rfl, hne ',' rfl, ih hp, Nat.add_comm, Nat.add_left_comm]

/-- An atom goes on with the argument if it does not end it. -/
theorem continues_atom (hcomment : commentLength? (c :: (p ++ s)) = none) (hgap : Shader.isGap c = false)
    (hmore : atomMore c (p ++ s) = p.length)
    (hdepth : c = '(' ∧ depth' = depth + 1 ∨ c = ')' ∧ depth = depth' + 1 ∨
      c ≠ '(' ∧ c ≠ ')' ∧ (c = ',' → depth ≠ 0) ∧ depth = depth') : Continues depth depth' (c :: p) [c :: p] s := by
  have hp : ∀ d ∈ p, isBreak d = false := by
    intro d hd
    refine not_isBreak_of_mem hcomment ?_
    rwa [hmore, List.take_left]
  have hrun : ∀ current length, readArguments depth' (c :: current) (length + 1) (p ++ s) =
      readArguments depth' ((c :: p).reverse ++ current) (length + (c :: p).length) s := by
    intro current length
    rw [readArguments_run hp]
    simp [Nat.add_assoc, Nat.add_comm 1]
  refine ⟨joins_atom hcomment hgap hmore, fun current length => ?_, fun current => ?_⟩
  · rw [← hrun, List.cons_append, readArguments, hcomment]
    obtain ⟨rfl, rfl⟩ | ⟨rfl, rfl⟩ | ⟨hopen, hclose, hcomma, rfl⟩ := hdepth
    · simp
    · simp
    · simpa [hopen, hclose] using fun h h' => absurd h' (hcomma h)
  · rw [List.cons_append, ink_atom hcomment hgap hmore, readInk]
    obtain ⟨rfl, rfl⟩ | ⟨rfl, rfl⟩ | ⟨hopen, hclose, hcomma, rfl⟩ := hdepth
    · obtain rfl := eq_nil_of_separator rfl hmore
      simp
    · obtain rfl := eq_nil_of_separator rfl hmore
      simp
    · simpa [hopen, hclose] using fun h _ h' => absurd h' (hcomma h)

/-- A parenthesis ends a call. -/
theorem reads_close (s : List Char) : Reads 0 (')' :: s) [] [] [')'] s := by
  have hink : ∀ s, ink (')' :: s) = [')'] :: ink s := ink_separator rfl
  refine ⟨rfl, ⟨')', [], rfl, rfl⟩, ?_, fun current length => ?_, fun current => ?_⟩
  · rw [hink, hink, ink_nil]
    rfl
  · rw [readArguments, commentLength?_of_ne (by decide)]
    simp
  · rw [hink, readInk]
    simp

/-- A comma ends an argument. -/
theorem Reads.comma (h : Reads 0 s first others used rest) : Reads 0 (',' :: s) [] (first :: others) (',' :: used) rest := by
  have hink : ∀ s, ink (',' :: s) = [','] :: ink s := ink_separator rfl
  refine ⟨by rw [h.split, List.cons_append], ⟨',', used, rfl, rfl⟩, ?_, fun current length => ?_, fun current => ?_⟩
  · rw [hink, hink, h.seam, List.cons_append]
  · rw [readArguments, commentLength?_of_ne (by decide)]
    simp [h.text, Nat.add_assoc, Nat.add_comm 1]
  · rw [hink, readInk]
    simp [h.inked]

/-- **A call is read alike off a text and off its ink.** -/
theorem readArguments_ink (s : List Char) (depth : Nat) :
    ReadsNone depth s ∨ ∃ first others used rest, Reads depth s first others used rest := by
  induction s using atomInduction generalizing depth with
  | nil => exact .inl ⟨fun _ _ => by rw [readArguments], fun _ => by rw [ink_nil]; rfl⟩
  | comment k s hcomment ih => exact (continues_comment hcomment depth).reads (ih depth)
  | gap c s hgap ih => exact (continues_gap hgap s depth).reads (ih depth)
  | atom c p s hcomment hgap hmore ih =>
    by_cases hopen : c = '('
    · exact (continues_atom hcomment hgap hmore (.inl ⟨hopen, rfl⟩)).reads (ih (depth + 1))
    by_cases hclose : c = ')'
    · cases depth with
      | zero =>
        subst hclose
        obtain rfl := eq_nil_of_separator rfl hmore
        exact .inr ⟨_, _, _, _, reads_close s⟩
      | succ depth => exact (continues_atom hcomment hgap hmore (.inr (.inl ⟨hclose, rfl⟩))).reads (ih depth)
    by_cases hcomma : c = ',' ∧ depth = 0
    · obtain ⟨rfl, rfl⟩ := hcomma
      obtain rfl := eq_nil_of_separator rfl hmore
      obtain ⟨hnone, hnone'⟩ | ⟨first, others, used, rest, h⟩ := ih 0
      · refine .inl ⟨fun current length => ?_, fun current => ?_⟩
        · rw [List.nil_append, readArguments, commentLength?_of_ne (by decide)]
          simp [hnone]
        · rw [List.nil_append, ink_separator rfl, readInk]
          simp [hnone']
      · exact .inr ⟨_, _, _, _, h.comma⟩
    · exact (continues_atom hcomment hgap hmore (.inr (.inr ⟨hopen, hclose, fun h h' => hcomma ⟨h, h'⟩, rfl⟩))).reads (ih depth)

end Macro

end ShaderFront
