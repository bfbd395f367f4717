import Mathlib
import ShaderFront.Proofs.Division
import ShaderFront.Proofs.Numerals
import ShaderFront.Proofs.Precedence

/-!
# The words of a text

The words of expressions are names, numbers that are not negative, `defined` and marks (`IsWord`). A word is cut off the front of
a text as a whole if what follows it does not run into it: a blank, a parenthesis or a comma ends every word (`Stops`), and after
a mark all those characters are harmless that no longer mark goes on with (`Calm`). A text that is divided into words this way
has their tokens (`carries_of_divides`).
-/

namespace ShaderFront.Directive

/-! ## Words -/

/-- Whether a text is an identifier. -/
def isIdentifier : List Char → Bool
  | [] => false
  | c :: rest => isWordStart c && rest.all isWordChar

/-- Whether a text can be the name of a macro in an expression. -/
def isName (name : String) : Bool := isIdentifier name.toList && name ≠ "defined"

/-- The words of expressions. -/
inductive IsWord : Written → Prop
  | mark {word : Written} : (word.2.toList, word.1) ∈ marks → IsWord word
  | name {name : String} : isName name = true → IsWord (writtenName name)
  | defined : IsWord definedWord
  | int {value : Int64} : 0 ≤ value → IsWord (.intConstant, Integer.text value)

/-- A text that begins like this ends every word before it. -/
def Stops (rest : List Char) : Prop := ∀ c ∈ rest.head?, c ∈ [' ', '(', ')', ',']

/-- A text that begins like this makes no mark before it longer. -/
def Calm (rest : List Char) : Prop := ∀ c ∈ rest.head?, c ∉ ['|', '&', '=', '<', '>', '/', '*']

theorem Stops.cases {rest : List Char} (h : Stops rest) {c : Char} (hc : c ∈ rest.head?) :
    c = ' ' ∨ c = '(' ∨ c = ')' ∨ c = ',' := by
  simpa using h c hc

theorem Stops.calm {rest : List Char} (h : Stops rest) : Calm rest := by
  intro c hc
  rcases h.cases hc with rfl | rfl | rfl | rfl <;> decide

theorem Stops.beginsPlain {rest : List Char} (h : Stops rest) : Macro.BeginsPlain rest := by
  intro c hc
  rcases h.cases hc with rfl | rfl | rfl | rfl <;> decide

/-! ## Cutting off a word -/

/-- A piece of a kind is cut off the front of a text. -/
abbrev CutsOff := ShaderFront.CutsOff cut

/-- Whether a character begins a word of its own, not a gap, a directive or a string. -/
def isOrdinary (c : Char) : Bool := !isGap c && c ≠ '\\' && c ≠ '#' && c ≠ '"'

theorem commentLength?_eq_none {c : Char} {rest : List Char} (h : c = '/' → Calm rest) : commentLength? (c :: rest) = none := by
  refine commentLength?_cons_eq_none.mpr fun hc d hd => ?_
  constructor <;>
    · rintro rfl
      exact absurd (h hc _ hd) (by decide)

theorem numeral_eq_none {style : NumeralStyle} {c : Char} (hdigit : c.isDigit = false) (hpoint : c ≠ '.') (rest : List Char) :
    Numeral.read? style (c :: rest) = none := by
  have hwhole : runLength Char.isDigit (c :: rest) = 0 := by simp [runLength, hdigit]
  rw [Numeral.read?]
  simp only [hwhole, if_true, List.drop_zero]
  split
  · rename_i heq
    exact absurd (List.cons.inj heq).1 hpoint
  · rfl

theorem cut_of_isOrdinary {c : Char} (h : isOrdinary c = true) {rest : List Char} (hcomment : commentLength? (c :: rest) = none) :
    cut c rest = match Numeral.read? .shader (c :: rest) with
      | some n => ⟨some (if n.isFloat then .floatConstant else .intConstant), n.length - 1⟩
      | none => cutPlain c rest := by
  simp only [isOrdinary, Bool.and_eq_true, Bool.not_eq_true', decide_eq_true_eq] at h
  obtain ⟨⟨⟨hgap, hback⟩, hhash⟩, hquote⟩ := h
  rw [cut, if_neg (Bool.eq_false_iff.mp hgap), if_neg (by simp [hback]), if_neg hhash, if_neg hquote]
  generalize commentLength? (c :: rest) = length? at hcomment
  subst hcomment
  rfl

/-! ### Names -/

theorem toNat_of_isWordStart {c : Char} (h : isWordStart c = true) :
    65 ≤ c.toNat ∧ c.toNat ≤ 90 ∨ 97 ≤ c.toNat ∧ c.toNat ≤ 122 ∨ c.toNat = 95 := by
  simp only [isWordStart, Char.isAlpha, Char.isUpper, Char.isLower, Bool.or_eq_true, Bool.and_eq_true, decide_eq_true_eq] at h
  rcases h with (⟨h, h'⟩ | ⟨h, h'⟩) | rfl
  · exact .inl ⟨h, h'⟩
  · exact .inr (.inl ⟨h, h'⟩)
  · exact .inr (.inr rfl)

theorem isOrdinary_of_isWordStart {c : Char} (h : isWordStart c = true) :
    isOrdinary c = true ∧ c.isDigit = false ∧ c ≠ '.' ∧ c ≠ '/' := by
  have hrange := toNat_of_isWordStart h
  have hne : ∀ d : Char, d.toNat < 65 ∨ d.toNat = 92 → c ≠ d := by
    rintro d hd rfl
    omega
  refine ⟨?_, ?_, hne '.' (by decide), hne '/' (by decide)⟩
  · simp [isOrdinary, isGap, hne ' ' (by decide), hne '\t' (by decide), hne '\x0c' (by decide), hne '\x0b' (by decide),
      hne '\r' (by decide), hne '\\' (by decide), hne '#' (by decide), hne '"' (by decide)]
  · rw [Char.isDigit, Bool.and_eq_false_iff]
    refine .inr (decide_eq_false fun hle => ?_)
    have : c.toNat ≤ 57 := hle
    omega

theorem cutsOff_identifier {word rest : List Char} (hword : isIdentifier word = true) (hrest : Stops rest) :
    CutsOff (some (if word = "defined".toList then .defined else .identifier)) word rest := by
  cases word with
  | nil => cases hword
  | cons c more =>
    obtain ⟨hstart, hmore⟩ := (Bool.and_eq_true _ _).mp hword
    obtain ⟨hordinary, hdigit, hpoint, hslash⟩ := isOrdinary_of_isWordStart hstart
    have hrun : runLength isWordChar (more ++ rest) = more.length :=
      Macro.runLength_run (List.all_eq_true.mp hmore) hrest.beginsPlain
    refine ⟨c, more, rfl, ?_⟩
    rw [cut_of_isOrdinary hordinary (commentLength?_of_ne hslash _), numeral_eq_none hdigit hpoint]
    simp only [cutPlain, if_pos hstart, hrun, List.take_left]

/-! ### Numbers -/

theorem isOrdinary_of_isDigit {c : Char} (h : c.isDigit = true) : isOrdinary c = true ∧ c ≠ '/' := by
  simp only [Char.isDigit, Bool.and_eq_true, decide_eq_true_eq] at h
  have hrange : 48 ≤ c.toNat ∧ c.toNat ≤ 57 := h
  have hne : ∀ d : Char, d.toNat < 48 ∨ d.toNat = 92 → c ≠ d := by
    rintro d hd rfl
    omega
  refine ⟨?_, hne '/' (by decide)⟩
  simp [isOrdinary, isGap, hne ' ' (by decide), hne '\t' (by decide), hne '\x0c' (by decide), hne '\x0b' (by decide),
    hne '\r' (by decide), hne '\\' (by decide), hne '#' (by decide), hne '"' (by decide)]

theorem Stops.ends {rest : List Char} (h : Stops rest) : Numeral.Ends rest := by
  intro c hc
  rcases h.cases hc with rfl | rfl | rfl | rfl <;> decide

theorem numeral_of_isDigit {digits rest : List Char} (hdigits : ∀ c ∈ digits, c.isDigit = true) (hne : digits ≠ [])
    (hrest : Stops rest) : Numeral.read? .shader (digits ++ rest) = some ⟨false, digits.length⟩ := by
  have hsuffix : NumeralStyle.shader.integerSuffix rest = 0 := by
    cases rest with
    | nil => rfl
    | cons c rest => rcases hrest.cases rfl with rfl | rfl | rfl | rfl <;> rfl
  rw [Numeral.read?_integer hdigits hne hrest.ends, hsuffix]
  rfl

theorem cutsOff_int {value : Int64} (hvalue : 0 ≤ value) {rest : List Char} (hrest : Stops rest) :
    CutsOff (some .intConstant) (Integer.text value).toList rest := by
  rw [Integer.text_of_nonneg hvalue, String.toList_ofList]
  have hdigits : ∀ c ∈ Nat.toDigits 10 value.toInt.toNat, c.isDigit = true := fun c hc =>
    Nat.isDigit_of_mem_toDigits (by omega) (by omega) hc
  have hnumeral := numeral_of_isDigit hdigits Nat.toDigits_ne_nil hrest
  obtain ⟨c, more, hcs⟩ := List.exists_cons_of_ne_nil (Nat.toDigits_ne_nil (b := 10) (n := value.toInt.toNat))
  rw [hcs] at hdigits hnumeral ⊢
  obtain ⟨hordinary, hslash⟩ := isOrdinary_of_isDigit (hdigits c List.mem_cons_self)
  refine ⟨c, more, rfl, ?_⟩
  rw [cut_of_isOrdinary hordinary (commentLength?_of_ne hslash _), ← List.cons_append, hnumeral]
  rfl

/-! ### Marks -/

/-- The literal that is longer than all others a text begins with is the one found. -/
theorem longestLiteral_eq {κ : Type} {literals : List (List Char × κ)} {cs : List Char} {entry : List Char × κ}
    (hentry : entry ∈ literals) (hne : entry.1 ≠ []) (hfits : entry.1 <+: cs)
    (hlongest : ∀ other ∈ literals, other.1 <+: cs → other = entry ∨ other.1.length < entry.1.length) :
    longestLiteral literals cs = some (entry.2, entry.1.length) := by
  -- the best literal so far is this one, or it is shorter and this one is still to come
  suffices hbest : ∀ best : Option (κ × Nat), best = some (entry.2, entry.1.length) ∨
      (best.map (·.2)).getD 0 < entry.1.length ∧ entry ∈ literals → literals.foldl (fun best entry =>
        if entry.1.isPrefixOf cs && (best.map (·.2)).getD 0 < entry.1.length then some (entry.2, entry.1.length) else best) best =
          some (entry.2, entry.1.length) from
    hbest none (.inr ⟨by simpa using List.length_pos_of_ne_nil hne, hentry⟩)
  clear hentry
  induction literals with
  | nil => simp
  | cons other literals ih =>
    obtain ⟨hother, hlongest⟩ := List.forall_mem_cons.mp hlongest
    intro best hbest
    refine ih hlongest _ ?_
    dsimp only
    split
    · rename_i hcond
      obtain ⟨hfront, hlonger⟩ := (Bool.and_eq_true _ _).mp hcond
      have hlonger := of_decide_eq_true hlonger
      rcases hother (List.isPrefixOf_iff_prefix.mp hfront) with rfl | hshorter
      · exact .inl rfl
      · rcases hbest with rfl | ⟨-, hmem⟩
        · simp only [Option.map_some, Option.getD_some] at hlonger
          omega
        · rcases List.mem_cons.mp hmem with rfl | hmem
          · omega
          · exact .inr ⟨hshorter, hmem⟩
    · rename_i hcond
      rcases hbest with hbest | ⟨hshorter, hmem⟩
      · exact .inl hbest
      · rcases List.mem_cons.mp hmem with rfl | hmem
        · exact absurd (by simp [List.isPrefixOf_iff_prefix.mpr hfits, hshorter]) hcond
        · exact .inr ⟨hshorter, hmem⟩

/-- No mark is the front of a longer one, unless it goes on with a character that is not calm. -/
theorem eq_of_marks_isPrefix : ∀ entry ∈ marks, ∀ other ∈ marks, entry.1 <+: other.1 →
    other = entry ∨ (other.1.drop entry.1.length).head?.any (· ∈ ['|', '&', '=', '<', '>', '/', '*']) = true := by
  decide

theorem ordinary_of_mem_marks : ∀ entry ∈ marks, entry.1.head?.any (fun c => isOrdinary c && !c.isDigit && c ≠ '.' &&
    !isWordStart c && (c ≠ '/' || entry.1.length = 1)) = true := by
  decide

theorem longestLiteral_marks {entry : List Char × TokenKind} (hentry : entry ∈ marks) {rest : List Char} (hrest : Calm rest) :
    longestLiteral marks (entry.1 ++ rest) = some (entry.2, entry.1.length) := by
  have hne : entry.1 ≠ [] := by
    intro hnil
    have := ordinary_of_mem_marks entry hentry
    simp [hnil] at this
  refine longestLiteral_eq hentry hne (List.prefix_append _ _) fun other hother hfront => ?_
  by_cases hlength : other.1.length < entry.1.length
  · exact .inr hlength
  · left
    have hlonger : entry.1 <+: other.1 := List.prefix_of_prefix_length_le (List.prefix_append _ rest) hfront (by omega)
    refine (eq_of_marks_isPrefix entry hentry other hother hlonger).resolve_right fun hany => ?_
    -- the mark would go on into the rest
    obtain ⟨more, hmore⟩ := hlonger
    rw [← hmore, List.drop_left] at hany
    rw [← hmore, List.prefix_append_right_inj] at hfront
    obtain ⟨c, hc, hmem⟩ := (Option.any_eq_true _ _).mp hany
    obtain ⟨tail, rfl⟩ := hfront
    exact hrest c (by rw [List.head?_append, hc]; rfl) (of_decide_eq_true hmem)

theorem cutsOff_mark {word : Written} (hword : (word.2.toList, word.1) ∈ marks) {rest : List Char} (hrest : Calm rest) :
    CutsOff (some word.1) word.2.toList rest := by
  have hordinary := ordinary_of_mem_marks _ hword
  have hlongest := longestLiteral_marks hword hrest
  cases hcs : word.2.toList with
  | nil => simp [hcs] at hordinary
  | cons c more =>
    simp only [hcs, List.head?_cons, Option.any_some, Bool.and_eq_true, Bool.not_eq_true', Bool.or_eq_true, decide_eq_true_eq,
      List.length_cons, Nat.add_eq_right, List.length_eq_zero_iff] at hordinary hlongest
    obtain ⟨⟨⟨⟨hordinary, hdigit⟩, hpoint⟩, hstart⟩, hslash⟩ := hordinary
    have hcomment : commentLength? (c :: (more ++ rest)) = none := by
      refine commentLength?_eq_none fun hc => ?_
      rw [hslash.resolve_left (not_not.mpr hc)]
      exact hrest
    refine ⟨c, more, rfl, ?_⟩
    rw [cut_of_isOrdinary hordinary hcomment, numeral_eq_none hdigit hpoint]
    simp only [cutPlain, if_neg (Bool.eq_false_iff.mp hstart), ← List.cons_append, hlongest, Nat.add_sub_cancel]

/-! ### Gaps and words -/

theorem cutsOff_gap {rest : List Char} (hrest : ∀ c ∈ rest.head?, isGap c = false) : CutsOff none [' '] rest := by
  have hrun : runLength isGap ([] ++ rest) = 0 := Macro.runLength_run (List.forall_mem_nil _) hrest
  refine ⟨' ', [], rfl, ?_⟩
  rw [cut, if_pos (by decide), hrun]
  rfl

theorem IsWord.cutsOff {word : Written} (h : IsWord word) {rest : List Char} (hrest : Stops rest) :
    CutsOff (some word.1) word.2.toList rest := by
  cases h with
  | mark hword => exact cutsOff_mark hword hrest.calm
  | @name name hname =>
    obtain ⟨hidentifier, hdefined⟩ := (Bool.and_eq_true _ _).mp hname
    have hdefined : name.toList ≠ "defined".toList := fun heq => of_decide_eq_true hdefined (String.toList_inj.mp heq)
    have hcuts := cutsOff_identifier hidentifier hrest
    rwa [if_neg hdefined] at hcuts
  | defined =>
    have hidentifier : isIdentifier "defined".toList = true := by decide
    exact cutsOff_identifier hidentifier hrest
  | int hvalue => exact cutsOff_int hvalue hrest

theorem IsWord.ne_define {word : Written} (h : IsWord word) : word.1 ≠ .define := by
  have hmarks : ∀ entry ∈ marks, entry.2 ≠ .define := by decide
  cases h with
  | mark hword => exact hmarks _ hword
  | name => exact TokenKind.noConfusion
  | defined => exact TokenKind.noConfusion
  | int => exact TokenKind.noConfusion

/-! ## Dividing a text into words -/

/-- A text is divided into the words of expressions, with or without a blank between them. -/
structure Divides (cs : List Char) (words : List Written) : Prop where
  divides : ShaderFront.Divides cut cs words
  isWord : ∀ word ∈ words, IsWord word

theorem Divides.nil : Divides [] [] := ⟨.nil, List.forall_mem_nil _⟩

theorem Divides.gap {rest : List Char} {words : List Written} (hrest : ∀ c ∈ rest.head?, isGap c = false)
    (h : Divides rest words) : Divides (' ' :: rest) words :=
  ⟨.gap (cutsOff_gap hrest) h.divides, h.isWord⟩

theorem Divides.word {word : Written} {rest : List Char} {words : List Written} (hword : IsWord word)
    (hcuts : CutsOff (some word.1) word.2.toList rest) (h : Divides rest words) :
    Divides (word.2.toList ++ rest) (word :: words) :=
  ⟨.word hcuts h.divides, List.forall_mem_cons.mpr ⟨hword, h.isWord⟩⟩

/-- The token of a lexeme of its own kind. -/
def Lexeme.own (l : Lexeme TokenKind) : TokenKind × Token := (l.kind, ⟨l.kind.id, l.text, l.span⟩)

/-- Without a `#define`, every token has its own kind. -/
theorem classify_own : ∀ (lexemes : List (Lexeme TokenKind)) (context : Context), context.last ≠ some .define →
    context.beforeLast ≠ some .define → (∀ l ∈ lexemes, l.kind ≠ .define) →
    classify context lexemes = lexemes.map fun l => (Lexeme.own l).2
  | [], _, _, _, _ => rfl
  | l :: rest, context, hlast, hbefore, hkinds => by
    obtain ⟨hkind, hrest⟩ := List.forall_mem_cons.mp hkinds
    have hkind : some l.kind ≠ some TokenKind.define := by simpa using hkind
    rw [classify]
    simp only [hbefore, decide_false, Bool.and_false, Bool.false_and, Bool.false_eq_true, if_false]
    rw [classify_own rest ⟨some l.kind, context.last, l.span.stop⟩ hkind hlast hrest]
    rfl

/-- A text has the tokens of the words it is divided into, unless one of them is a `#define`. -/
theorem carries_of_divides {cs : List Char} {words : List Written} (h : ShaderFront.Divides cut cs words)
    (hwords : ∀ word ∈ words, word.1 ≠ .define) (pos : Nat) :
    ∃ front, Carries front words ∧ piecesTokens pos cs = front.map Prod.snd := by
  have hlexemes := h.lexemes pos
  have hkinds : ∀ l ∈ (scan cut pos cs).filterMap Piece.lexeme?, l.kind ≠ .define := by
    intro l hl
    have hmem : (l.kind, l.text) ∈ words := hlexemes ▸ List.mem_map_of_mem hl
    exact hwords _ hmem
  refine ⟨((scan cut pos cs).filterMap Piece.lexeme?).map Lexeme.own, ⟨?_, ?_⟩, ?_⟩
  · intro r hr
    obtain ⟨l, -, rfl⟩ := List.mem_map.mp hr
    rfl
  · rw [List.map_map]
    exact hlexemes
  · rw [piecesTokens, classify_own _ _ (by simp) (by simp) hkinds, List.map_map]
    rfl

theorem Divides.ne_define {cs : List Char} {words : List Written} (h : Divides cs words) : ∀ word ∈ words, word.1 ≠ .define :=
  fun word hword => (h.isWord word hword).ne_define

end ShaderFront.Directive
