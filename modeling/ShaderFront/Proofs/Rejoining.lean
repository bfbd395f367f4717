import Mathlib
import ShaderFront.Proofs.Endings
import ShaderFront.Proofs.Excerpts

/-!
# Joined tokens read again

The tokens of a directive are joined to the body of a macro with one blank where there was a gap (`Directive.respelled`). The text
that results is divided into the same words (`Directive.divides_respelled`): no token looks past white space or a slash, so it
makes no difference to it what follows there, and a gap that is there before is there afterwards.
-/

namespace ShaderFront.Directive

open Macro (runLength_append_stop)

variable {c : Char} {rest p s x y cs : List Char}

/-! ## Where a token ends -/

/-- Whether a character ends the tokens before it: white space, or a slash that may begin a comment. -/
def isBreak (c : Char) : Bool := isGap c || c = '/'

/-- Where white space or a comment may begin. -/
def Breaks (s : List Char) : Prop := ∀ c ∈ s.head?, isBreak c = true

theorem Breaks.severed (h : Breaks s) : Macro.Severed s := by
  intro c hc
  have hbreak := h c hc
  simp only [isBreak, isGap, Bool.or_eq_true, decide_eq_true_eq] at hbreak
  rcases hbreak with ((((rfl | rfl) | rfl) | rfl) | rfl) | rfl <;> decide

theorem all_tail_marks : (marks.all fun entry => entry.1.tail.all fun c => !isBreak c) = true := by
  decide

theorem isPrefixOf_breaks {entry : List Char × TokenKind} (hentry : entry ∈ marks) (p : List Char) (hs : Breaks s) :
    entry.1.isPrefixOf (c :: (p ++ s)) = entry.1.isPrefixOf (c :: p) := by
  refine isPrefixOf_append_stop (fun d hd hmem => ?_) c p
  have htail := List.all_eq_true.mp (List.all_eq_true.mp all_tail_marks _ hentry) d hmem
  rw [hs d hd] at htail
  cases htail

/-- **Which token is cut off does not depend on what follows white space or a slash.** -/
theorem cut_breaks (hc : isOrdinary c = true) (hs : Breaks s) (hcomment : commentLength? (c :: (p ++ s)) = none)
    (hcomment' : commentLength? (c :: p) = none) : cut c (p ++ s) = cut c p ∧ (cut c p).more ≤ p.length := by
  have hread : Numeral.read? .shader (c :: (p ++ s)) = Numeral.read? .shader (c :: p) := Numeral.read?_append hs.severed (c :: p)
  have hrun : runLength isWordChar (p ++ s) = runLength isWordChar p :=
    runLength_append_stop p fun d hd => (hs.severed d hd).1
  have hle := (Numeral.take_runLength isWordChar p).2
  have hmarks : longestLiteral marks (c :: (p ++ s)) = longestLiteral marks (c :: p) :=
    longestLiteral_congr fun entry hentry => isPrefixOf_breaks hentry p hs
  rw [cut_of_isOrdinary hc hcomment, cut_of_isOrdinary hc hcomment', hread]
  cases hnumeral : Numeral.read? .shader (c :: p) with
  | some n =>
    have hlength := Numeral.length_read?_le hnumeral
    rw [List.length_cons] at hlength
    exact ⟨rfl, by simp only; omega⟩
  | none =>
    simp only [cutPlain, hrun, hmarks, List.take_append_of_le_length hle]
    refine ⟨trivial, ?_⟩
    split
    · exact hle
    · split
      · rename_i hlongest
        obtain ⟨literal, -, hfront, hlength⟩ := longestLiteral_eq_some hlongest
        have hfront := (List.isPrefixOf_iff_prefix.mp hfront).length_le
        rw [List.length_cons] at hfront
        simp only
        omega
      · exact Nat.zero_le _

/-- A token that is no directive, backslash or string begins as a word, and is no comment. -/
theorem isOrdinary_of_cut (hhash : c ≠ '#') (hback : c ≠ '\\') (hquote : c ≠ '"') {kind : TokenKind}
    (hkind : (cut c rest).kind = some kind) : isOrdinary c = true ∧ commentLength? (c :: rest) = none := by
  have hgap : isGap c = false := by
    rw [Bool.eq_false_iff]
    intro hgap
    simp [cut, hgap] at hkind
  refine ⟨by simp [isOrdinary, hgap, hback, hhash, hquote], ?_⟩
  cases hcomment : commentLength? (c :: rest) with
  | none => rfl
  | some length =>
    rw [cut_comment hcomment] at hkind
    cases hkind

theorem continuationLength_eq_zero (h : '\n' ∉ rest) : continuationLength rest = 0 := by
  unfold continuationLength
  split <;> simp_all

/-- A backslash that continues no line is a token of its own. -/
theorem cut_backslash (h : '\n' ∉ rest) : cut '\\' rest = ⟨some .other, 0⟩ := by
  have hmarks : longestLiteral marks ('\\' :: rest) = none := by
    have hnone : ∀ entry ∈ marks, entry.1.head? ≠ some '\\' ∧ entry.1 ≠ [] := by decide
    cases hlongest : longestLiteral marks ('\\' :: rest) with
    | none => rfl
    | some found =>
      obtain ⟨literal, hmem, hfront, -⟩ := longestLiteral_eq_some hlongest
      obtain ⟨hhead, hne⟩ := hnone _ hmem
      obtain ⟨d, more, rfl⟩ := List.exists_cons_of_ne_nil hne
      rw [List.isPrefixOf_iff_prefix, List.cons_prefix_cons] at hfront
      exact absurd (congrArg some hfront.1) hhead
  have hread : Numeral.read? .shader ('\\' :: rest) = none := numeral_eq_none (by decide) (by decide) rest
  have hcomment : commentLength? ('\\' :: rest) = none := rfl
  simp only [cut, continuationLength_eq_zero h, hcomment, hread, cutPlain, hmarks]
  rfl

/-- A string ends at its quote, whatever follows it, or with the text. -/
theorem cut_quote (hrest : '\n' ∉ rest) : cut '"' rest = ⟨some .other, rest.length⟩ ∨
    ∃ inner back, rest = inner ++ '"' :: back ∧ ∀ back', cut '"' (inner ++ '"' :: back') = ⟨some .string, inner.length + 1⟩ := by
  have hcut : ∀ text, cut '"' text = cutString text := fun _ => rfl
  have hinner : ∀ {inner : List Char}, '\n' ∉ inner → '"' ∉ inner → ∀ d ∈ inner, (d ≠ '"' && d ≠ '\n') = true := by
    intro inner hflat hquote d hd
    have hne : d ≠ '"' ∧ d ≠ '\n' := ⟨ne_of_mem_of_not_mem hd hquote, ne_of_mem_of_not_mem hd hflat⟩
    simpa using hne
  by_cases hquote : '"' ∈ rest
  · obtain ⟨inner, back, rfl, hfirst⟩ := List.eq_append_cons_of_mem hquote
    have hflat : '\n' ∉ inner := fun h => hrest (List.mem_append_left _ h)
    refine .inr ⟨inner, back, rfl, fun back' => ?_⟩
    have hrun : runLength (fun d => d ≠ '"' && d ≠ '\n') (inner ++ '"' :: back') = inner.length :=
      Macro.runLength_run (hinner hflat hfirst) (by rintro _ ⟨⟩; decide)
    rw [hcut, cutString]
    simp only [hrun, List.drop_left]
  · have hrun : runLength (fun d => d ≠ '"' && d ≠ '\n') (rest ++ []) = rest.length :=
      Macro.runLength_run (hinner hrest hquote) (by simp)
    rw [List.append_nil] at hrun
    left
    rw [hcut, cutString]
    simp only [hrun, List.drop_length]

/-! ## Where the texts part -/

/-- A text goes on as another one does, or with a blank, from a place where a token ends. -/
structure Parts (x y : List Char) : Prop where
  breaks : Breaks x
  head : ∀ d ∈ y.head?, d = ' ' ∨ d ∈ x.head?
  nil : x = [] → y = []

theorem Parts.breaks' (h : Parts x y) : Breaks y := by
  intro d hd
  rcases h.head d hd with rfl | hd
  · rfl
  · exact h.breaks d hd

theorem commentLength?_parts (h : Parts x y) (hcomment : commentLength? (c :: (p ++ x)) = none) :
    commentLength? (c :: p) = none ∧ commentLength? (c :: (p ++ y)) = none := by
  cases p with
  | nil =>
    refine ⟨commentLength?_cons_eq_none.mpr (by simp), commentLength?_cons_eq_none.mpr fun hc d hd => ?_⟩
    rcases h.head d hd with rfl | hd
    · decide
    · exact commentLength?_cons_eq_none.mp hcomment hc d hd
  | cons d p =>
    have hfront : commentLength? (c :: d :: p) = none := by
      simpa using Macro.commentLength?_eq_none_append (List.cons_ne_nil d p) hcomment []
    exact ⟨hfront, Macro.commentLength?_eq_none_append (List.cons_ne_nil d p) hcomment y⟩

/-- **A token that ends before two texts part is cut off from both.** -/
theorem cut_parts (h : Parts x y) (hhash : c ≠ '#') (hx : '\n' ∉ p ++ x) (hy : '\n' ∉ p ++ y) {kind : TokenKind}
    (hkind : (cut c (p ++ x)).kind = some kind) (hmore : (cut c (p ++ x)).more ≤ p.length) :
    cut c (p ++ y) = cut c (p ++ x) := by
  by_cases hback : c = '\\'
  · subst hback
    rw [cut_backslash hx, cut_backslash hy]
  by_cases hquote : c = '"'
  · subst hquote
    rcases cut_quote hx with hcut | ⟨inner, back, hinner, hcut⟩
    · rw [hcut, List.length_append] at hmore
      have hnil : x = [] := List.length_eq_zero_iff.mp (by simp only at hmore; omega)
      rw [h.nil hnil, hnil]
    · have hlength := congrArg Cut.more (hinner ▸ hcut back)
      simp only at hlength
      have hprefix : inner ++ ['"'] <+: p := by
        have hall : inner ++ ['"'] <+: p ++ x := ⟨back, by rw [hinner, List.append_assoc]; rfl⟩
        refine List.prefix_of_prefix_length_le hall (List.prefix_append p x) ?_
        rw [List.length_append, List.length_singleton]
        omega
      obtain ⟨more, rfl⟩ := hprefix
      have hall := fun z : List Char => hcut (more ++ z)
      simp only [List.append_assoc, List.cons_append, List.nil_append] at hall ⊢
      rw [hall, hall]
  obtain ⟨hordinary, hcomment⟩ := isOrdinary_of_cut hhash hback hquote hkind
  obtain ⟨hfront, hcomment'⟩ := commentLength?_parts h hcomment
  rw [(cut_breaks hordinary h.breaks hcomment hfront).1, (cut_breaks hordinary h.breaks' hcomment' hfront).1]

/-- A token reaches no further than the text. -/
theorem more_le {kind : TokenKind} (hhash : c ≠ '#') (hflat : '\n' ∉ rest) (hkind : (cut c rest).kind = some kind) :
    (cut c rest).more ≤ rest.length := by
  by_cases hback : c = '\\'
  · subst hback
    rw [cut_backslash hflat]
    exact Nat.zero_le _
  by_cases hquote : c = '"'
  · subst hquote
    rcases cut_quote hflat with hcut | ⟨inner, back, rfl, hcut⟩
    · rw [hcut]
    · rw [hcut, List.length_append, List.length_cons]
      simp only
      omega
  obtain ⟨hordinary, hcomment⟩ := isOrdinary_of_cut hhash hback hquote hkind
  simpa using (cut_breaks (s := []) hordinary (by simp [Breaks]) (by simpa using hcomment) hcomment).2

/-! ## Joined again -/

/-- The tokens of a text with one blank where there was a gap; `gap` says whether there is one in front. -/
def respelled (gap : Bool) : List Char → List Char
  | [] => []
  | c :: rest =>
    match (cut c rest).kind with
    | none => respelled true (rest.drop (cut c rest).more)
    | some _ => (if gap then [' '] else []) ++ c :: rest.take (cut c rest).more ++ respelled false (rest.drop (cut c rest).more)
termination_by cs => cs.length
decreasing_by all_goals simp only [List.length_cons, List.length_drop]; omega

theorem respelled_skipped (h : (cut c rest).kind = none) (gap : Bool) :
    respelled gap (c :: rest) = respelled true (rest.drop (cut c rest).more) := by
  rw [respelled, h]

theorem respelled_word {kind : TokenKind} (h : (cut c rest).kind = some kind) (gap : Bool) : respelled gap (c :: rest) =
    (if gap then [' '] else []) ++ (c :: rest.take (cut c rest).more ++ respelled false (rest.drop (cut c rest).more)) := by
  rw [respelled, h, List.append_assoc]

theorem flat_respelled {gap : Bool} (hflat : '\n' ∉ cs) : '\n' ∉ respelled gap cs := by
  fun_induction respelled gap cs with
  | case1 => exact hflat
  | case2 gap c rest hkind ih => exact ih fun h => hflat (List.mem_cons_of_mem c (List.mem_of_mem_drop h))
  | case3 gap c rest kind hkind ih =>
    obtain ⟨hc, hrest⟩ := not_or.mp (List.mem_cons.not.mp hflat)
    have hback := ih fun h => hrest (List.mem_of_mem_drop h)
    have htake : '\n' ∉ rest.take (cut c rest).more := fun h => hrest (List.mem_of_mem_take h)
    split <;> simp [hc, htake, hback]

/-- After a gap, what is left begins with a blank, if anything is left. -/
theorem head?_respelled {gap : Bool} (hgap : gap = true) (cs : List Char) : ∀ d ∈ (respelled gap cs).head?, d = ' ' := by
  fun_induction respelled gap cs with
  | case1 => simp
  | case2 _ _ _ _ ih => exact ih rfl
  | case3 => simp [hgap, eq_comm]

/-- What is skipped begins with a character that ends tokens. -/
theorem isBreak_of_skipped (hflat : '\n' ∉ rest) (h : (cut c rest).kind = none) : isBreak c = true := by
  rcases cut_skipped h with ⟨hgap, -⟩ | ⟨-, hcontinued, -⟩ | ⟨length, hcomment, -⟩
  · simp [isBreak, hgap]
  · exact absurd (continuationLength_eq_zero hflat) hcontinued
  · exact (Bool.or_eq_true _ _).mpr (.inr (decide_eq_true (eq_slash_of_commentLength? hcomment)))

/-- A text and its tokens joined again have a front in common, up to the first gap. -/
theorem exists_parts (hflat : '\n' ∉ cs) {gap : Bool} (hgap : gap = false) :
    ∃ front x y, cs = front ++ x ∧ respelled gap cs = front ++ y ∧ Parts x y := by
  fun_induction respelled gap cs with
  | case1 => exact ⟨[], [], [], rfl, rfl, by simp [Breaks], by simp, fun _ => rfl⟩
  | case2 gap c rest hkind ih =>
    refine ⟨[], c :: rest, _, rfl, rfl, ?_, fun d hd => .inl (head?_respelled rfl _ d hd), nofun⟩
    rintro _ ⟨⟩
    exact isBreak_of_skipped (fun h => hflat (List.mem_cons_of_mem c h)) hkind
  | case3 gap c rest kind hkind ih =>
    obtain ⟨front, x, y, hfront, hback, hparts⟩ := ih (fun h => hflat (List.mem_cons_of_mem c (List.mem_of_mem_drop h))) rfl
    refine ⟨c :: rest.take (cut c rest).more ++ front, x, y, ?_, by simp [hgap, hback], hparts⟩
    rw [List.append_assoc, ← hfront, List.cons_append, List.take_append_drop]

/-- **A token is cut off what is joined as it was cut off the text.** -/
theorem cutsOff_respelled (hhash : c ≠ '#') (hflat : '\n' ∉ rest) {kind : TokenKind} (hkind : (cut c rest).kind = some kind) :
    CutsOff (some kind) (c :: rest.take (cut c rest).more) (respelled false (rest.drop (cut c rest).more)) := by
  have hback : '\n' ∉ rest.drop (cut c rest).more := fun h => hflat (List.mem_of_mem_drop h)
  have hle := more_le hhash hflat hkind
  obtain ⟨front, x, y, hfront, hjoined, hparts⟩ := exists_parts hback rfl
  have hall : rest = (rest.take (cut c rest).more ++ front) ++ x := by
    rw [List.append_assoc, ← hfront, List.take_append_drop]
  have hy : '\n' ∉ (rest.take (cut c rest).more ++ front) ++ y := by
    rw [List.append_assoc, ← hjoined]
    exact List.not_mem_append (fun h => hflat (List.mem_of_mem_take h)) (flat_respelled hback)
  have hcut := cut_parts hparts hhash (hall ▸ hflat) hy (by rw [← hall]; exact hkind)
    (by rw [← hall, List.length_append, List.length_take]; omega)
  refine ⟨c, _, rfl, ?_⟩
  rw [hjoined, ← List.append_assoc, hcut, ← hall, List.length_take, min_eq_left hle, ← hkind]

/-- A blank is a gap in front of a token. -/
theorem cutsOff_blank {kind : TokenKind} (h : (cut c rest).kind = some kind) : CutsOff none [' '] (c :: p) := by
  refine cutsOff_gap ?_
  rintro _ ⟨⟩
  rw [Bool.eq_false_iff]
  intro hgap
  simp [cut, hgap] at h

/-- **Tokens that are joined are divided into the same words.** -/
theorem divides_respelled {gap : Bool} (hflat : '\n' ∉ cs) (hhash : '#' ∉ respelled gap cs) :
    ∀ pos, ShaderFront.Divides cut (respelled gap cs) (wordsFrom pos cs) := by
  fun_induction respelled gap cs with
  | case1 =>
    intro pos
    rw [wordsFrom, scan]
    exact .nil
  | case2 gap c rest hkind ih =>
    intro pos
    obtain ⟨next, hwords⟩ := wordsFrom_skipped hkind pos
    rw [hwords]
    exact ih (fun h => hflat (List.mem_cons_of_mem c (List.mem_of_mem_drop h))) hhash next
  | case3 gap c rest kind hkind ih =>
    intro pos
    obtain ⟨next, hwords⟩ := wordsFrom_word hkind pos
    have hrest : '\n' ∉ rest := fun h => hflat (List.mem_cons_of_mem c h)
    simp only [List.mem_append, List.mem_cons, not_or] at hhash
    obtain ⟨⟨-, hne, -⟩, hhash⟩ := hhash
    let word : Written := (kind, String.ofList (c :: rest.take (cut c rest).more))
    have hword : word.2.toList = c :: rest.take (cut c rest).more := String.toList_ofList
    have hcuts : CutsOff (some word.1) word.2.toList (respelled false (rest.drop (cut c rest).more)) := by
      rw [hword]
      exact cutsOff_respelled (fun h => hne h.symm) hrest hkind
    have hdivides := ShaderFront.Divides.word hcuts (ih (fun h => hrest (List.mem_of_mem_drop h)) hhash next)
    rw [hword] at hdivides
    rw [hwords, List.append_assoc]
    split
    · exact .gap (cutsOff_blank hkind) hdivides
    · exact hdivides

theorem respelled_of_gap {piece : List Char} (h : CutsOff none piece rest) (gap : Bool) :
    respelled gap (piece ++ rest) = respelled true rest := by
  obtain ⟨c, more, rfl, hcut⟩ := h
  rw [List.cons_append, respelled_skipped (by rw [hcut]), hcut, List.drop_left]

theorem respelled_of_word {kind : TokenKind} {piece : List Char} (h : CutsOff (some kind) piece rest) (gap : Bool) :
    respelled gap (piece ++ rest) = (if gap then [' '] else []) ++ (piece ++ respelled false rest) := by
  obtain ⟨c, more, rfl, hcut⟩ := h
  rw [List.cons_append, respelled_word (congrArg Cut.kind hcut), hcut, List.drop_left, List.take_left]

/-- **What was joined is joined again to itself.** -/
theorem respelled_respelled {gap : Bool} (hflat : '\n' ∉ cs) (hhash : '#' ∉ respelled gap cs) :
    ∀ gap', respelled gap' (respelled gap cs) = respelled (gap' || gap) cs := by
  fun_induction respelled gap cs with
  | case1 => exact fun _ => by rw [respelled, respelled]
  | case2 gap c rest hkind ih =>
    intro gap'
    rw [ih (fun h => hflat (List.mem_cons_of_mem c (List.mem_of_mem_drop h))) hhash gap', Bool.or_true, respelled_skipped hkind]
  | case3 gap c rest kind hkind ih =>
    intro gap'
    have hrest : '\n' ∉ rest := fun h => hflat (List.mem_cons_of_mem c h)
    simp only [List.mem_append, List.mem_cons, not_or] at hhash
    obtain ⟨⟨-, hne, -⟩, hhash⟩ := hhash
    have hcuts := cutsOff_respelled (fun h => hne h.symm) hrest hkind
    have hback := ih (fun h => hrest (List.mem_of_mem_drop h)) hhash false
    have hblank : CutsOff none [' '] (c :: rest.take (cut c rest).more ++ respelled false (rest.drop (cut c rest).more)) :=
      cutsOff_blank hkind
    rw [Bool.false_or] at hback
    rw [respelled_word hkind, List.append_assoc]
    cases gap with
    | true => rw [if_pos rfl, Bool.or_true, respelled_of_gap hblank, respelled_of_word hcuts, hback, if_pos rfl]
    | false => rw [if_neg Bool.false_ne_true, List.nil_append, Bool.or_false, respelled_of_word hcuts, hback]

/-! ## Tokens -/

/-- The tokens of a text are joined to the text with one blank where there was a gap. -/
theorem toList_joinTokensFrom (pos : Nat) (cs : List Char) : ∀ (last : Nat) (context : Context), last ≤ pos →
    (joinTokensFrom last (classify context ((scan cut pos cs).filterMap Piece.lexeme?))).toList = respelled (last < pos) cs := by
  fun_induction scan cut pos cs with
  | case1 =>
    intro last context _
    rw [respelled]
    rfl
  | case2 pos c rest next chars stop ih =>
    intro last context hle
    have hpos : 0 < byteLength chars := by
      have := Char.utf8Size_pos c
      simp only [chars, byteLength_cons]
      omega
    cases hkind : next.kind with
    | none =>
      rw [List.filterMap_cons_none (by simp [Piece.lexeme?]), ih last context (by omega), respelled_skipped hkind,
        decide_eq_true (by omega : last < stop)]
    | some kind =>
      rw [List.filterMap_cons_some (b := ⟨kind, String.ofList chars, ⟨pos, stop⟩⟩) (by simp [Piece.lexeme?]), classify,
        joinTokensFrom, String.toList_append, String.toList_append, ih stop _ le_rfl, respelled_word hkind]
      simp only [String.toList_ofList, lt_irrefl, decide_false, decide_eq_true_eq, List.append_assoc, chars, next]
      split <;> rfl

/-- The lexemes of a text that begins at a byte offset. -/
def lexemesFrom (pos : Nat) (cs : List Char) : List (Lexeme TokenKind) := (scan cut pos cs).filterMap Piece.lexeme?

theorem lexemesFrom_gap {piece : List Char} (h : CutsOff none piece rest) (pos : Nat) :
    lexemesFrom pos (piece ++ rest) = lexemesFrom (pos + byteLength piece) rest := by
  rw [lexemesFrom, h.scan_eq, List.filterMap_cons_none rfl, lexemesFrom]

theorem lexemesFrom_word {kind : TokenKind} {piece : List Char} (h : CutsOff (some kind) piece rest) (pos : Nat) :
    lexemesFrom pos (piece ++ rest) =
      ⟨kind, String.ofList piece, ⟨pos, pos + byteLength piece⟩⟩ :: lexemesFrom (pos + byteLength piece) rest := by
  rw [lexemesFrom, h.scan_eq, List.filterMap_cons_some (f := Piece.lexeme?) rfl, lexemesFrom]

/-- A text begins with a token. -/
def Begins (cs : List Char) : Prop := ∃ c rest kind, cs = c :: rest ∧ (cut c rest).kind = some kind

theorem lexemesFrom_cons {kind : TokenKind} (h : (cut c rest).kind = some kind) (pos : Nat) : ∃ text stop,
    lexemesFrom pos (c :: rest) = ⟨kind, text, ⟨pos, stop⟩⟩ :: lexemesFrom stop (rest.drop (cut c rest).more) := by
  refine ⟨String.ofList (c :: rest.take (cut c rest).more), pos + byteLength (c :: rest.take (cut c rest).more), ?_⟩
  rw [lexemesFrom, scan]
  exact List.filterMap_cons_some (f := Piece.lexeme?) (by simp only [Piece.lexeme?, h]; rfl)

/-- The first token of a text that begins with one stands at its front. -/
theorem Begins.start (h : Begins cs) (pos : Nat) (context : Context) :
    ∀ t ∈ (classify context (lexemesFrom pos cs)).head?, t.span.start = pos := by
  obtain ⟨c, rest, kind, rfl, hkind⟩ := h
  obtain ⟨text, stop, hlexemes⟩ := lexemesFrom_cons hkind pos
  rw [hlexemes, classify]
  rintro _ ⟨⟩
  rfl

theorem Begins.toList_joinTokens (h : Begins cs) (pos : Nat) (context : Context) :
    (joinTokens (classify context (lexemesFrom pos cs))).toList = respelled false cs := by
  have hjoined := toList_joinTokensFrom pos cs pos context le_rfl
  rw [decide_eq_false (lt_irrefl pos), ← lexemesFrom] at hjoined
  rw [← hjoined]
  have hstart := h.start pos context
  cases hts : classify context (lexemesFrom pos cs) with
  | nil => rfl
  | cons t ts =>
    rw [hts] at hstart
    rw [joinTokensFrom, joinTokens, hstart t rfl, if_neg (lt_irrefl pos), String.empty_append]

/-- What was joined begins with a token. -/
theorem Begins.respelled (h : Begins cs) (hflat : '\n' ∉ cs) (hhash : '#' ∉ respelled false cs) :
    Begins (Directive.respelled false cs) := by
  obtain ⟨c, rest, kind, rfl, hkind⟩ := h
  rw [respelled_word hkind, if_neg Bool.false_ne_true, List.nil_append] at hhash ⊢
  have hne : c ≠ '#' := by
    rintro rfl
    exact hhash List.mem_cons_self
  obtain ⟨_, _, heq, hcut⟩ := cutsOff_respelled hne (fun h => hflat (List.mem_cons_of_mem c h)) hkind
  obtain ⟨rfl, rfl⟩ := List.cons.inj heq
  exact ⟨c, _, kind, rfl, congrArg Cut.kind hcut⟩

/-- No parenthesis at the front of a text gives parameters, unless it touches a name before it. -/
theorem Begins.not_macroParen (h : Begins cs) {pos : Nat} {context : Context}
    (hcontext : context.last = some .identifier → context.lastEnd ≠ pos) :
    ∀ t ∈ (classify context (lexemesFrom pos cs)).head?, t.symbol ≠ TokenKind.macroParen.id := by
  obtain ⟨c, rest, kind, rfl, hkind⟩ := h
  obtain ⟨text, stop, hlexemes⟩ := lexemesFrom_cons hkind pos
  rw [hlexemes, classify]
  rintro _ ⟨⟩
  refine id_injective.ne ?_
  split
  · rename_i hopens
    simp only [Bool.and_eq_true, decide_eq_true_eq] at hopens
    exact absurd hopens.2.symm (hcontext hopens.1.1.2)
  · rintro rfl
    cases isWritten_of_cut hkind

/-- The last tokens of a text are the tokens of its last part, read after the tokens before. -/
theorem exists_suffix (pos : Nat) (cs : List Char) : ∀ (context : Context) (front back : List Token), back ≠ [] →
    classify context (lexemesFrom pos cs) = front ++ back → ∃ start tail after, tail <:+ cs ∧ Begins tail ∧
      classify after (lexemesFrom start tail) = back ∧ (front = [] → after = context) ∧
        ∀ t ∈ front.getLast?, ∃ kind, after.last = some kind ∧ t.symbol = kind.id := by
  unfold lexemesFrom
  fun_induction scan cut pos cs with
  | case1 =>
    intro context front back hne h
    exact absurd (List.append_eq_nil_iff.mp h.symm).2 hne
  | case2 pos c rest next chars stop ih =>
    intro context front back hne h
    have hsuffix : rest.drop next.more <:+ c :: rest := (List.drop_suffix _ _).trans (List.suffix_cons c rest)
    cases hkind : next.kind with
    | none =>
      rw [List.filterMap_cons_none (by simp [Piece.lexeme?, hkind])] at h
      obtain ⟨start, tail, after, htail, hbegins, hback, hafter, hlast⟩ := ih context front back hne h
      exact ⟨start, tail, after, htail.trans hsuffix, hbegins, hback, hafter, hlast⟩
    | some kind =>
      cases front with
      | nil =>
        refine ⟨pos, c :: rest, context, List.suffix_rfl, ⟨c, rest, kind, rfl, hkind⟩, ?_, fun _ => rfl, by simp⟩
        rw [← List.nil_append back, ← h, scan]
      | cons first front =>
        have hlexemes := List.filterMap_cons_some (f := Piece.lexeme?) (a := (⟨next.kind, chars, ⟨pos, stop⟩⟩ : Piece TokenKind))
          (l := scan cut stop (rest.drop next.more)) (b := ⟨kind, String.ofList chars, ⟨pos, stop⟩⟩) (by simp [Piece.lexeme?, hkind])
        rw [hlexemes, classify, List.cons_append] at h
        obtain ⟨rfl, hrest⟩ := List.cons.inj h
        obtain ⟨start, tail, after, htail, hbegins, hback, hafter, hlast⟩ := ih _ front back hne hrest
        refine ⟨start, tail, after, htail.trans hsuffix, hbegins, hback, fun hnil => absurd hnil (List.cons_ne_nil _ _), fun t ht => ?_⟩
        cases front with
        | nil =>
          cases ht
          exact ⟨_, congrArg Context.last (hafter rfl), rfl⟩
        | cons second front => exact hlast t (by simpa using ht)

/-- A `#define` begins with its hash. -/
theorem eq_hash_of_cut (h : (cut c rest).kind = some .define) : c = '#' := by
  have hmarks : .define ∉ marks.map Prod.snd := by decide
  generalize hnext : cut c rest = next at h
  cases cutting hnext with
  | gap | continued | comment | other => cases h
  | hash hc => exact hc
  | string => rcases string_or_other h with hkind | hkind <;> cases hkind
  | numeral | word =>
    dsimp only at h
    split at h <;> cases h
  | mark _ hlongest =>
    cases h
    exact absurd (mem_marks_of_longestLiteral hlongest) hmarks

/-- The text of a `#define` holds a hash. -/
theorem hash_mem_of_define {pos : Nat} : ∀ word ∈ wordsFrom pos cs, word.1 = .define → '#' ∈ word.2.toList := by
  intro word hword hkind
  obtain ⟨l, hl, rfl⟩ := List.mem_map.mp hword
  obtain ⟨c, rest, hcut, htext⟩ := mem_lexemes hl
  rw [show l.kind = .define from hkind] at hcut
  rw [eq_hash_of_cut hcut] at htext
  rw [show l.text = _ from htext, String.toList_ofList]
  exact List.mem_cons_self

theorem mem_of_divides {words : List Written} (h : ShaderFront.Divides cut cs words) :
    ∀ word ∈ words, ∀ c ∈ word.2.toList, c ∈ cs := by
  induction h with
  | nil => simp
  | gap _ _ ih => exact fun word hword c hc => List.mem_append_right _ (ih word hword c hc)
  | word _ _ ih =>
    refine List.forall_mem_cons.mpr ⟨fun c hc => List.mem_append_left _ hc, fun word hword c hc => ?_⟩
    exact List.mem_append_right _ (ih word hword c hc)

/-- Where no `#define` is open and no parenthesis of a definition comes first, every token has its own kind. -/
theorem classify_own_of_head {lexemes : List (Lexeme TokenKind)} {context : Context} (hlast : context.last ≠ some .define)
    (hkinds : ∀ l ∈ lexemes, l.kind ≠ .define) (hparen : ∀ t ∈ (classify context lexemes).head?, t.symbol ≠ TokenKind.macroParen.id) :
    classify context lexemes = lexemes.map fun l => (Lexeme.own l).2 := by
  cases lexemes with
  | nil => rfl
  | cons l lexemes =>
    obtain ⟨hkind, hkinds⟩ := List.forall_mem_cons.mp hkinds
    rw [classify] at hparen ⊢
    have hown := hparen _ rfl
    split at hown
    · exact absurd rfl hown
    · rename_i hopens
      rw [if_neg hopens, classify_own lexemes _ (by simpa using hkind) hlast hkinds]
      rfl

/-- **The body of a directive is recorded with its words**: its tokens, joined, are divided into their kinds and texts. -/
theorem Begins.divides_joinTokens (h : Begins cs) {pos : Nat} {context : Context} {ts : List Token}
    (hts : classify context (lexemesFrom pos cs) = ts) (hflat : '\n' ∉ cs) (hlast : context.last ≠ some .define)
    (hparen : ∀ t ∈ ts.head?, t.symbol ≠ TokenKind.macroParen.id) (hhash : '#' ∉ (joinTokens ts).toList) :
    ∃ words, ShaderFront.Divides cut (joinTokens ts).toList words ∧ (∀ word ∈ words, word.1 ≠ .define) ∧
      ts.map Token.written = words.map fun word => (word.1.id, word.2) := by
  subst hts
  rw [h.toList_joinTokens] at hhash ⊢
  have hdivides := divides_respelled hflat hhash pos
  have hkinds : ∀ word ∈ wordsFrom pos cs, word.1 ≠ .define := fun word hword hkind =>
    hhash (mem_of_divides hdivides word hword _ (hash_mem_of_define word hword hkind))
  refine ⟨wordsFrom pos cs, hdivides, hkinds, ?_⟩
  have hown := @classify_own_of_head (lexemesFrom pos cs) _ hlast (fun l hl => hkinds _ (List.mem_map_of_mem hl)) hparen
  rw [hown, wordsFrom, ← lexemesFrom, List.map_map, List.map_map]
  rfl

end ShaderFront.Directive
