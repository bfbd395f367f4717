import Mathlib
import ShaderFront.Proofs.Words

/-!
# Printing expressions

An expression can be printed in full, as `Expression.text` does, with every binary operation in parentheses, or with as few
parentheses as the levels of its operators allow (`Expression.fewest`). Either text is divided into the words it was made of, and
is read as the expression again (`Expression.parse_printed`).
-/

namespace ShaderFront.Directive

/-- A text that is divided into words is read as the expression the words are read as. -/
theorem parseExpression_of_reads {text : String} {words : List Written} {e : Expression}
    (htext : ShaderFront.Divides cut text.toList words) (hwords : ∀ word ∈ words, word.1 ≠ .define)
    (hreads : ∀ {number front}, Carries front words → alphabet.ReadsAs language number .constantExpression front (.expression e)) :
    parseExpression text = .ok e := by
  obtain ⟨front, hfront, htokens⟩ := carries_of_divides htext hwords 0
  have hown : alphabet.IsOwn (TokenKind.expressionStart, ⟨TokenKind.expressionStart.id, "", .emptyAt 0⟩) := rfl
  have hroot : ∀ number, alphabet.Reads language number (fun _ _ _ => True) alphabet.root
      ((.expressionStart, ⟨TokenKind.expressionStart.id, "", .emptyAt 0⟩) :: (front ++ [])) (.expression e) := fun number =>
    reads_rule 2 (by rfl) (by rfl) (.token (.inl hown) (fun _ _ => trivial)
      (.node (hreads hfront) (fun _ _ => trivial) .nil)) (by rfl)
  rw [List.append_nil] at hroot
  have hparse := alphabet_covers.parse_reads tameness (List.forall_mem_cons.mpr ⟨hown, hfront.own⟩) hroot
  rw [List.map_cons, ← htokens] at hparse
  rw [parseExpression]
  exact congrArg expressionOf hparse

/-- **A text that is divided into the words of an expression is read as the expression.** -/
theorem parseExpression_of_divides {text : String} {words : List Written} {e : Expression} (htext : Divides text.toList words)
    (hwords : Expression.Spelled 1 e words) : parseExpression text = .ok e :=
  parseExpression_of_reads htext.divides htext.ne_define fun hfront => reads_tier_pred (by decide) (hwords.reads (by decide) hfront)

/-! ## Printing -/

/-- Words with a blank between each two. -/
def spaced (words : List Written) : String := " ".intercalate (words.map Prod.snd)

/-- Words in parentheses. -/
def enclosed (words : List Written) : List Written := opening :: words ++ [closing]

namespace Expression

mutual

/-- Whether the numbers of an expression are not negative and its names are names. -/
def isPlain : Expression → Bool
  | .int value => 0 ≤ value
  | .defined name => isName name
  | .object name => isName name
  | .call name arguments => isName name && arePlain arguments
  | .unary _ operand => isPlain operand
  | .binary _ left right => isPlain left && isPlain right

@[inherit_doc isPlain] def arePlain : List Expression → Bool
  | [] => true
  | e :: rest => isPlain e && arePlain rest

end

mutual

/-- The words of an expression as an operand of a level, with parentheses only where an operator binds less than the level
asks for: the left operand of an operator may be of its own level, the right one may not. `bare` leaves out those of `defined`. -/
def fewest (bare : Bool) : Nat → Expression → List Written
  | _, .int value => [(.intConstant, Integer.text value)]
  | _, .defined name => definedWord :: if bare then [writtenName name] else enclosed [writtenName name]
  | _, .object name => [writtenName name]
  | _, .call name arguments => writtenName name :: enclosed ([separator].intercalate (fewestAll bare arguments))
  | _, .unary operator operand => operator.written :: fewest bare unaryLevel operand
  | level, .binary operator left right =>
    let words := fewest bare operator.level left ++ operator.written :: fewest bare (operator.level + 1) right
    if operator.level < level then enclosed words else words

/-- The words of the arguments of a macro. -/
def fewestAll (bare : Bool) : List Expression → List (List Written)
  | [] => []
  | e :: rest => fewest bare 1 e :: fewestAll bare rest

end

mutual

/-- The words of an expression with every binary operation in parentheses. -/
def full : Expression → List Written
  | .int value => [(.intConstant, Integer.text value)]
  | .defined name => definedWord :: enclosed [writtenName name]
  | .object name => [writtenName name]
  | .call name arguments => writtenName name :: enclosed ([separator].intercalate (fullAll arguments))
  | .unary operator operand => operator.written :: full operand
  | .binary operator left right => enclosed (full left ++ operator.written :: full right)

@[inherit_doc fewestAll] def fullAll : List Expression → List (List Written)
  | [] => []
  | e :: rest => full e :: fullAll rest

end

/-! ## Printed words spell the expression -/

theorem spelledRest_of_forall₂ {arguments : List Expression} {words : List (List Written)}
    (h : List.Forall₂ (Spelled 1) arguments words) : SpelledRest arguments (words.flatMap (separator :: ·)) := by
  induction h with
  | nil => exact .nil
  | cons hfirst _ ih => exact .cons hfirst ih

/-- A call is spelled with its arguments, whatever their spelling. -/
theorem spelled_call {level : Nat} {name : String} {arguments : List Expression} {words : List (List Written)}
    (h : List.Forall₂ (Spelled 1) arguments words) :
    Spelled level (.call name arguments) (writtenName name :: enclosed ([separator].intercalate words)) := by
  cases h with
  | nil => exact .callNone
  | cons hfirst hrest =>
    rw [intercalate_cons]
    exact .call hfirst (spelledRest_of_forall₂ hrest)

mutual

theorem spelled_fewest (bare : Bool) : ∀ (e : Expression) (level : Nat), e.isPlain = true → level ≤ unaryLevel →
    Spelled level e (fewest bare level e)
  | .int value, level, hplain, _ => by
    rw [fewest]
    exact .int (of_decide_eq_true hplain)
  | .defined name, level, _, _ => by
    rw [fewest]
    cases bare with
    | true => exact .definedBare
    | false => exact .defined
  | .object name, level, _, _ => by
    rw [fewest]
    exact .object
  | .call name arguments, level, hplain, _ => by
    rw [isPlain, Bool.and_eq_true] at hplain
    rw [fewest]
    exact spelled_call (spelled_fewestAll bare arguments hplain.2)
  | .unary operator operand, level, hplain, hlevel => by
    rw [isPlain] at hplain
    rw [fewest]
    exact .unary hlevel (spelled_fewest bare operand unaryLevel hplain le_rfl)
  | .binary operator left right, level, hplain, hlevel => by
    rw [isPlain, Bool.and_eq_true] at hplain
    have hoperator : operator.level + 1 ≤ unaryLevel := by cases operator <;> decide
    have hleft := spelled_fewest bare left operator.level hplain.1 (by omega)
    have hright := spelled_fewest bare right (operator.level + 1) hplain.2 hoperator
    rw [fewest]
    split
    · have hone : 1 ≤ operator.level := by cases operator <;> decide
      exact .parentheses (.binary hone hleft hright)
    · exact .binary (by omega) hleft hright

theorem spelled_fewestAll (bare : Bool) : ∀ arguments : List Expression, arePlain arguments = true →
    List.Forall₂ (Spelled 1) arguments (fewestAll bare arguments)
  | [], _ => by
    rw [fewestAll]
    exact .nil
  | e :: rest, hplain => by
    rw [arePlain, Bool.and_eq_true] at hplain
    rw [fewestAll]
    exact .cons (spelled_fewest bare e 1 hplain.1 (by decide)) (spelled_fewestAll bare rest hplain.2)

end

mutual

theorem spelled_full : ∀ (e : Expression) (level : Nat), e.isPlain = true → level ≤ unaryLevel → Spelled level e (full e)
  | .int value, level, hplain, _ => by
    rw [full]
    exact .int (of_decide_eq_true hplain)
  | .defined name, level, _, _ => by
    rw [full]
    exact .defined
  | .object name, level, _, _ => by
    rw [full]
    exact .object
  | .call name arguments, level, hplain, _ => by
    rw [isPlain, Bool.and_eq_true] at hplain
    rw [full]
    exact spelled_call (spelled_fullAll arguments hplain.2)
  | .unary operator operand, level, hplain, hlevel => by
    rw [isPlain] at hplain
    rw [full]
    exact .unary hlevel (spelled_full operand unaryLevel hplain le_rfl)
  | .binary operator left right, level, hplain, _ => by
    rw [isPlain, Bool.and_eq_true] at hplain
    have hone : 1 ≤ operator.level := by cases operator <;> decide
    have hoperator : operator.level + 1 ≤ unaryLevel := by cases operator <;> decide
    rw [full]
    exact .parentheses (.binary hone (spelled_full left operator.level hplain.1 (by omega))
      (spelled_full right (operator.level + 1) hplain.2 hoperator))

theorem spelled_fullAll : ∀ arguments : List Expression, arePlain arguments = true →
    List.Forall₂ (Spelled 1) arguments (fullAll arguments)
  | [], _ => by
    rw [fullAll]
    exact .nil
  | e :: rest, hplain => by
    rw [arePlain, Bool.and_eq_true] at hplain
    rw [fullAll]
    exact .cons (spelled_full e 1 hplain.1 (by decide)) (spelled_fullAll rest hplain.2)

end

end Expression

/-! ## Blanks between all words -/

theorem unary_mem_marks (operator : UnaryOperator) : (operator.text.toList, operator.kind) ∈ marks := by
  cases operator <;> decide

theorem isWord_unary (operator : UnaryOperator) : IsWord operator.written := .mark (unary_mem_marks operator)

theorem isWord_binary (operator : BinaryOperator) : IsWord operator.written := by
  cases operator <;> exact .mark (by decide)

theorem isWord_opening : IsWord opening := .mark (by decide)

theorem isWord_closing : IsWord closing := .mark (by decide)

theorem isWord_separator : IsWord separator := .mark (by decide)

theorem isWord_enclosed {words : List Written} (h : ∀ word ∈ words, IsWord word) : ∀ word ∈ enclosed words, IsWord word := by
  refine List.forall_mem_cons.mpr ⟨isWord_opening, List.forall_mem_append.mpr ⟨h, ?_⟩⟩
  exact List.forall_mem_singleton.mpr isWord_closing

namespace Expression

mutual

theorem Spelled.isWord : ∀ {level : Nat} {e : Expression} {words : List Written}, Spelled level e words → e.isPlain = true →
    ∀ word ∈ words, IsWord word
  | _, _, _, .int hvalue, _ => List.forall_mem_singleton.mpr (.int hvalue)
  | _, _, _, .object, hplain => List.forall_mem_singleton.mpr (.name hplain)
  | _, _, _, .defined, hplain =>
    List.forall_mem_cons.mpr ⟨.defined, isWord_enclosed (List.forall_mem_singleton.mpr (.name hplain))⟩
  | _, _, _, .definedBare, hplain => List.forall_mem_cons.mpr ⟨.defined, List.forall_mem_singleton.mpr (.name hplain)⟩
  | _, _, _, .callNone, hplain => by
    rw [isPlain, Bool.and_eq_true] at hplain
    exact List.forall_mem_cons.mpr ⟨.name hplain.1, isWord_enclosed (List.forall_mem_nil _)⟩
  | _, _, _, .call hfirst hrest, hplain => by
    rw [isPlain, arePlain, Bool.and_eq_true, Bool.and_eq_true] at hplain
    exact List.forall_mem_cons.mpr ⟨.name hplain.1, isWord_enclosed (List.forall_mem_append.mpr
      ⟨hfirst.isWord hplain.2.1, hrest.isWord hplain.2.2⟩)⟩
  | _, _, _, .unary _ hoperand, hplain => by
    rw [isPlain] at hplain
    exact List.forall_mem_cons.mpr ⟨isWord_unary _, hoperand.isWord hplain⟩
  | _, _, _, .binary _ hleft hright, hplain => by
    rw [isPlain, Bool.and_eq_true] at hplain
    exact List.forall_mem_append.mpr ⟨hleft.isWord hplain.1,
      List.forall_mem_cons.mpr ⟨isWord_binary _, hright.isWord hplain.2⟩⟩
  | _, _, _, .parentheses hinner, hplain => isWord_enclosed (hinner.isWord hplain)

theorem SpelledRest.isWord : ∀ {rest : List Expression} {words : List Written}, SpelledRest rest words →
    arePlain rest = true → ∀ word ∈ words, IsWord word
  | _, _, .nil, _ => List.forall_mem_nil _
  | _, _, .cons hfirst hrest, hplain => by
    rw [arePlain, Bool.and_eq_true] at hplain
    exact List.forall_mem_cons.mpr ⟨isWord_separator, List.forall_mem_append.mpr
      ⟨hfirst.isWord hplain.1, hrest.isWord hplain.2⟩⟩

end

end Expression

/-- What is cut off as a token begins with no gap. -/
theorem CutsOff.isGap_head {kind : TokenKind} {piece rest : List Char} (h : CutsOff (some kind) piece rest) :
    ∀ c ∈ (piece ++ rest).head?, isGap c = false := by
  obtain ⟨c, more, rfl, hcut⟩ := h
  rintro _ ⟨⟩
  rw [Bool.eq_false_iff]
  intro hgap
  rw [cut, if_pos hgap] at hcut
  cases hcut

/-- The words after the first. -/
theorem divides_rest : ∀ {words : List Written}, (∀ word ∈ words, IsWord word) →
    Stops (words.flatMap fun word => ' ' :: word.2.toList) ∧ Divides (words.flatMap fun word => ' ' :: word.2.toList) words
  | [], _ => ⟨by simp [Stops], .nil⟩
  | word :: words, h => by
    obtain ⟨hword, hwords⟩ := List.forall_mem_cons.mp h
    obtain ⟨hstops, hdivides⟩ := divides_rest hwords
    have hcuts := hword.cutsOff hstops
    refine ⟨by simp [Stops], ?_⟩
    rw [List.flatMap_cons, List.cons_append]
    exact .gap hcuts.isGap_head (.word hword hcuts hdivides)

/-- Words with blanks between them are divided into the words. -/
theorem divides_spaced {words : List Written} (h : ∀ word ∈ words, IsWord word) : Divides (spaced words).toList words := by
  cases words with
  | nil => exact .nil
  | cons word words =>
    obtain ⟨hword, hwords⟩ := List.forall_mem_cons.mp h
    obtain ⟨hstops, hdivides⟩ := divides_rest hwords
    have hspaced : (spaced (word :: words)).toList = word.2.toList ++ words.flatMap fun word => ' ' :: word.2.toList := by
      rw [spaced, List.map_cons, toList_intercalate_cons, List.flatMap_map]
      rfl
    rw [hspaced]
    exact .word hword (hword.cutsOff hstops) hdivides

/-! ## The text of an expression -/

theorem Divides.stop {word : Written} {rest : List Char} {words : List Written} (hword : IsWord word) (hrest : Stops rest)
    (h : Divides rest words) : Divides (word.2.toList ++ rest) (word :: words) :=
  .word hword (hword.cutsOff hrest) h

theorem Divides.mark {word : Written} {rest : List Char} {words : List Written} (hword : (word.2.toList, word.1) ∈ marks)
    (hrest : Calm rest) (h : Divides rest words) : Divides (word.2.toList ++ rest) (word :: words) :=
  .word (.mark hword) (cutsOff_mark hword hrest) h

/-- Whether a character begins a word and makes no mark before it longer. -/
def isFront (c : Char) : Bool := !isGap c && c ∉ ['|', '&', '=', '<', '>', '/', '*']

/-- A text begins a word and makes no mark before it longer. -/
def Fronts (text : List Char) : Prop := ∃ c rest, text = c :: rest ∧ isFront c = true

theorem Fronts.append {text : List Char} (h : Fronts text) (rest : List Char) : Fronts (text ++ rest) := by
  obtain ⟨c, more, rfl, hc⟩ := h
  exact ⟨c, more ++ rest, rfl, hc⟩

theorem Fronts.calm {text : List Char} (h : Fronts text) : Calm text := by
  obtain ⟨c, more, rfl, hc⟩ := h
  rintro _ ⟨⟩
  exact of_decide_eq_true ((Bool.and_eq_true _ _).mp hc).2

theorem Fronts.isGap_head {text : List Char} (h : Fronts text) : ∀ c ∈ text.head?, isGap c = false := by
  obtain ⟨c, more, rfl, hc⟩ := h
  rintro _ ⟨⟩
  simpa using ((Bool.and_eq_true _ _).mp hc).1

theorem fronts_name {name : String} (h : isName name = true) : Fronts name.toList := by
  have hidentifier := ((Bool.and_eq_true _ _).mp h).1
  cases hname : name.toList with
  | nil =>
    rw [hname] at hidentifier
    cases hidentifier
  | cons c rest =>
    rw [hname] at hidentifier
    have hstart := ((Bool.and_eq_true _ _).mp hidentifier).1
    have hrange := toNat_of_isWordStart hstart
    have hgap : isGap c = false := by
      have := (isOrdinary_of_isWordStart hstart).1
      simp only [isOrdinary, Bool.and_eq_true, Bool.not_eq_true'] at this
      exact this.1.1.1
    have hne : ∀ d : Char, d.toNat < 65 ∨ d.toNat = 124 → c ≠ d := by
      rintro d hd rfl
      omega
    refine ⟨c, rest, rfl, ?_⟩
    simp [isFront, hgap, hne '|' (by decide), hne '&' (by decide), hne '=' (by decide), hne '<' (by decide), hne '>' (by decide),
      hne '/' (by decide), hne '*' (by decide)]

theorem fronts_int {value : Int64} (h : 0 ≤ value) : Fronts (Integer.text value).toList := by
  rw [Integer.text_of_nonneg h, String.toList_ofList]
  obtain ⟨c, rest, hcs⟩ := List.exists_cons_of_ne_nil (Nat.toDigits_ne_nil (b := 10) (n := value.toInt.toNat))
  have hdigit : c.isDigit = true :=
    Nat.isDigit_of_mem_toDigits (b := 10) (n := value.toInt.toNat) (by omega) (by omega) (by rw [hcs]; exact List.mem_cons_self)
  have hgap : isGap c = false := by
    have := (isOrdinary_of_isDigit hdigit).1
    simp only [isOrdinary, Bool.and_eq_true, Bool.not_eq_true'] at this
    exact this.1.1.1
  simp only [Char.isDigit, Bool.and_eq_true, decide_eq_true_eq] at hdigit
  have hrange : 48 ≤ c.toNat ∧ c.toNat ≤ 57 := hdigit
  have hne : ∀ d : Char, d.toNat < 48 ∨ 57 < d.toNat → c ≠ d := by
    rintro d hd rfl
    omega
  refine ⟨c, rest, hcs, ?_⟩
  simp [isFront, hgap, hne '|' (by decide), hne '&' (by decide), hne '=' (by decide), hne '<' (by decide), hne '>' (by decide),
    hne '/' (by decide), hne '*' (by decide)]

namespace Expression

theorem fronts_text {e : Expression} (h : e.isPlain = true) : Fronts e.text.toList := by
  cases e with
  | int value =>
    rw [text]
    exact fronts_int (of_decide_eq_true h)
  | defined name =>
    rw [text, String.toList_append, String.toList_append]
    exact ⟨'d', _, rfl, by decide⟩
  | object name =>
    rw [text]
    exact fronts_name h
  | call name arguments =>
    rw [isPlain, Bool.and_eq_true] at h
    rw [text, String.toList_append, String.toList_append, String.toList_append]
    exact (((fronts_name h.1).append _).append _).append _
  | unary operator operand =>
    rw [text, String.toList_append]
    refine Fronts.append ?_ _
    cases operator <;> exact ⟨_, [], rfl, by decide⟩
  | binary operator left right =>
    simp only [text, String.toList_append]
    exact ⟨'(', _, rfl, by decide⟩

theorem fronts_texts {e : Expression} {rest : List Expression} (h : arePlain (e :: rest) = true) :
    Fronts (", ".intercalate (texts (e :: rest))).toList := by
  rw [arePlain, Bool.and_eq_true] at h
  cases rest with
  | nil =>
    rw [texts, texts, String.intercalate_singleton]
    exact fronts_text h.1
  | cons next rest =>
    rw [texts, texts, String.toList_intercalate, List.map_cons, List.map_cons, List.intercalate_cons_cons]
    exact ((fronts_text h.1).append _).append _

theorem calm_texts {arguments : List Expression} (h : arePlain arguments = true) {rest : List Char} (hrest : Stops rest) :
    Calm ((", ".intercalate (texts arguments)).toList ++ rest) := by
  cases arguments with
  | nil => exact hrest.calm
  | cons e others => exact ((fronts_texts h).append rest).calm

/-- Words in parentheses. -/
theorem divides_enclosed {inner rest : List Char} {content words : List Written} (hinner : Calm (inner ++ ')' :: rest))
    (hdivides : Divides (inner ++ ')' :: rest) (content ++ closing :: words)) :
    Divides ('(' :: (inner ++ ')' :: rest)) (enclosed content ++ words) := by
  have h : Divides (opening.2.toList ++ (inner ++ ')' :: rest)) (opening :: (content ++ closing :: words)) :=
    .mark (by decide) hinner hdivides
  rw [enclosed, List.cons_append, List.cons_append, List.append_assoc]
  exact h

theorem divides_closing {rest : List Char} {words : List Written} (hstops : Stops rest) (hrest : Divides rest words) :
    Stops (')' :: rest) ∧ Divides (')' :: rest) (closing :: words) :=
  ⟨by simp [Stops], .stop isWord_closing hstops hrest⟩

mutual

/-- The text of an expression is divided into its words, if what follows ends its last word. -/
theorem divides_text : ∀ (e : Expression), e.isPlain = true → ∀ {rest : List Char} {words : List Written}, Stops rest →
    Divides rest words → Divides (e.text.toList ++ rest) (full e ++ words)
  | .int value, hplain, rest, words, hstops, hrest => by
    -- elaborated on its own: the text of a word is not told from the front of a text by unification
    have hint := Divides.stop (.int (of_decide_eq_true hplain)) hstops hrest
    rw [text, full]
    exact hint
  | .defined name, hplain, rest, words, hstops, hrest => by
    obtain ⟨hstops, hrest⟩ := divides_closing hstops hrest
    have hname := Divides.stop (.name hplain) hstops hrest
    have hinner : Divides ('(' :: (name.toList ++ ')' :: rest)) (enclosed [writtenName name] ++ words) :=
      divides_enclosed ((fronts_name hplain).append _).calm hname
    have htext : (text (.defined name)).toList ++ rest = "defined".toList ++ '(' :: (name.toList ++ ')' :: rest) := by
      simp [text]
    rw [htext, full]
    exact .stop .defined (by simp [Stops]) hinner
  | .object name, hplain, rest, words, hstops, hrest => by
    have hname := Divides.stop (.name hplain) hstops hrest
    rw [text, full]
    exact hname
  | .call name arguments, hplain, rest, words, hstops, hrest => by
    rw [isPlain, Bool.and_eq_true] at hplain
    obtain ⟨hstops, hrest⟩ := divides_closing hstops hrest
    have harguments := divides_texts arguments hplain.2 hstops hrest
    have htext : (text (.call name arguments)).toList ++ rest =
        name.toList ++ '(' :: ((", ".intercalate (texts arguments)).toList ++ ')' :: rest) := by
      simp [text]
    rw [htext, full]
    exact .stop (.name hplain.1) (by simp [Stops]) (divides_enclosed (calm_texts hplain.2 hstops) harguments)
  | .unary operator operand, hplain, rest, words, hstops, hrest => by
    rw [isPlain] at hplain
    have hcalm : Calm (operand.text.toList ++ rest) := ((fronts_text hplain).append rest).calm
    have hdivides : Divides (operator.written.2.toList ++ (operand.text.toList ++ rest))
        (operator.written :: (full operand ++ words)) :=
      .mark (unary_mem_marks operator) hcalm (divides_text operand hplain hstops hrest)
    rw [text, full, String.toList_append, List.append_assoc]
    exact hdivides
  | .binary operator left right, hplain, rest, words, hstops, hrest => by
    rw [isPlain, Bool.and_eq_true] at hplain
    obtain ⟨hstops, hrest⟩ := divides_closing hstops hrest
    have hright := divides_text right hplain.2 hstops hrest
    have hoperator : Divides (operator.text.toList ++ ' ' :: (right.text.toList ++ ')' :: rest))
        (operator.written :: (full right ++ closing :: words)) :=
      .stop (isWord_binary operator) (by simp [Stops]) (.gap ((fronts_text hplain.2).append _).isGap_head hright)
    have hgap : ∀ c ∈ (operator.text.toList ++ ' ' :: (right.text.toList ++ ')' :: rest)).head?, isGap c = false := by
      cases operator <;> (rintro _ ⟨⟩; decide)
    have hleft : Divides (left.text.toList ++ ' ' :: (operator.text.toList ++ ' ' :: (right.text.toList ++ ')' :: rest)))
        (full left ++ operator.written :: (full right ++ closing :: words)) :=
      divides_text left hplain.1 (by simp [Stops]) (.gap hgap hoperator)
    have htext : (text (.binary operator left right)).toList ++ rest = '(' :: ((left.text.toList ++ ' ' :: (operator.text.toList ++
        ' ' :: right.text.toList)) ++ ')' :: rest) := by
      simp [text]
    rw [htext, full]
    refine divides_enclosed ?_ ?_
    · exact (((fronts_text hplain.1).append _).append _).calm
    · simpa using hleft

/-- The arguments of a macro, with commas and blanks between them. -/
theorem divides_texts : ∀ (arguments : List Expression), arePlain arguments = true → ∀ {rest : List Char} {words : List Written},
    Stops rest → Divides rest words →
    Divides ((", ".intercalate (texts arguments)).toList ++ rest) ([separator].intercalate (fullAll arguments) ++ words)
  | [], _, rest, words, _, hrest => hrest
  | [e], hplain, rest, words, hstops, hrest => by
    rw [arePlain, Bool.and_eq_true] at hplain
    simp only [texts, fullAll, String.intercalate_singleton, List.intercalate_singleton]
    exact divides_text e hplain.1 hstops hrest
  | e :: next :: others, hplain, rest, words, hstops, hrest => by
    rw [arePlain, Bool.and_eq_true] at hplain
    have hothers := divides_texts (next :: others) hplain.2 hstops hrest
    have hgap := ((fronts_texts hplain.2).append rest).isGap_head
    have hcomma : Divides (',' :: ' ' :: ((", ".intercalate (texts (next :: others))).toList ++ rest))
        (separator :: ([separator].intercalate (fullAll (next :: others)) ++ words)) :=
      .stop isWord_separator (by simp [Stops]) (.gap hgap hothers)
    have htext : (", ".intercalate (texts (e :: next :: others))).toList ++ rest =
        e.text.toList ++ ',' :: ' ' :: ((", ".intercalate (texts (next :: others))).toList ++ rest) := by
      simp [texts, String.toList_intercalate]
    have hwords : [separator].intercalate (fullAll (e :: next :: others)) ++ words =
        full e ++ separator :: ([separator].intercalate (fullAll (next :: others)) ++ words) := by
      simp [fullAll, List.intercalate_cons_cons]
    rw [htext, hwords]
    exact divides_text e hplain.1 (by simp [Stops]) hcomma

end

/-- **Printed expressions are read back.** The text of an expression is read as the expression, and so are its words with
parentheses only where the levels of its operators and their association to the left ask for them. -/
theorem parse_printed {e : Expression} (h : e.isPlain = true) : parseExpression e.text = .ok e ∧
    ∀ bare, parseExpression (spaced (fewest bare 1 e)) = .ok e := by
  refine ⟨?_, fun bare => ?_⟩
  · have htext : Divides (e.text.toList ++ []) (full e ++ []) := divides_text e h (by simp [Stops]) .nil
    rw [List.append_nil, List.append_nil] at htext
    exact parseExpression_of_divides htext (spelled_full e 1 h (by decide))
  · have hspelled := spelled_fewest bare e 1 h (by decide)
    exact parseExpression_of_divides (divides_spaced (hspelled.isWord h)) hspelled

/-- Differences to the left need no parentheses, those to the right do. -/
theorem parse_printed_difference :
    (binary .subtract (binary .subtract (object "a") (defined "b")) (binary .subtract (call "c" [.int 1]) (object "d"))).isPlain
        = true ∧
      parseExpression "((a - defined(b)) - (c(1) - d))" = .ok
        (binary .subtract (binary .subtract (object "a") (defined "b")) (binary .subtract (call "c" [.int 1]) (object "d"))) ∧
      parseExpression "a - defined b - ( c ( 1 ) - d )" = .ok
        (binary .subtract (binary .subtract (object "a") (defined "b")) (binary .subtract (call "c" [.int 1]) (object "d"))) := by
  refine ⟨by decide, ?_, ?_⟩
  · exact (parse_printed (e := binary .subtract (binary .subtract (object "a") (defined "b"))
      (binary .subtract (call "c" [.int 1]) (object "d"))) (by decide)).1
  · exact (parse_printed (e := binary .subtract (binary .subtract (object "a") (defined "b"))
      (binary .subtract (call "c" [.int 1]) (object "d"))) (by decide)).2 true

end Expression

end ShaderFront.Directive
