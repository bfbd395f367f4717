import Mathlib
import ShaderFront.Proofs.Division
import ShaderFront.Proofs.Shortest
import ShaderFront.Proofs.Words
import ShaderFront.Tag.Basic
import ShaderFront.Tag.Token

/-!
# The words of a tag

The words of tags are signs, names, numbers and quoted texts (`Tag.words`). What can be written is said by `Tag.isWritable`. Main
statement: the texts of some tags, with blanks between them, are divided into the words of the tags (`Tag.divides_texts`). A
number or a name ends where a blank, a comma or a bracket follows (`Tag.Stops`), a quoted text at its quote.
-/

namespace ShaderFront

/-- Whether a value can be written: numbers have to be finite, or to have a negative that is a word as well, and a quoted text must
not have its quote. -/
def TagValue.isWritable : TagValue → Bool
  | .bool _ => true
  | .int i => Int64.minValue < i
  | .float x => x.isFinite
  | .string s => '"' ∉ s.toList
  | .char c => '\'' ∉ c.toList

/-- Whether a tag can be written: its name is an identifier, and it has values. -/
def Tag.isWritable (t : Tag) : Bool :=
  Directive.isIdentifier t.name.toList && t.name ≠ "true" && t.name ≠ "false" && !t.values.isEmpty &&
    t.values.all TagValue.isWritable

namespace Tag

/-! ## Words -/

/-- A token as it is written: its kind and its text. -/
abbrev Written := TokenKind × String

/-- The kind of the token of a value. -/
def valueKind : TagValue → TokenKind
  | .bool b => if b then .true_ else .false_
  | .int _ => .intConstant
  | .float _ => .floatConstant
  | .string _ => .string
  | .char _ => .character

/-- A value as it is written. -/
def valueWord (v : TagValue) : Written := (valueKind v, v.text)

/-- The words `@`, `=`, `[`, `]` and `,`. -/
def sign : Written := (.at, "@")
@[inherit_doc sign] def equalSign : Written := (.equal, "=")
@[inherit_doc sign] def opening : Written := (.bracketLeft, "[")
@[inherit_doc sign] def closing : Written := (.bracketRight, "]")
@[inherit_doc sign] def comma : Written := (.comma, ",")

/-- The words of some values, with commas between them. -/
def valueWords (values : List TagValue) : List Written := [comma].intercalate (values.map fun v => [valueWord v])

theorem valueWords_cons (v : TagValue) (rest : List TagValue) :
    valueWords (v :: rest) = valueWord v :: rest.flatMap fun w => [comma, valueWord w] := by
  rw [valueWords, List.map_cons, intercalate_cons, List.flatMap_map]
  rfl

/-- The words of a tag. -/
def words (t : Tag) : List Written :=
  sign :: (.identifier, t.name) :: equalSign ::
    match t.values with
    | [value] => [valueWord value]
    | values => opening :: valueWords values ++ [closing]

/-- The text of a finite number, with a sign for a negative one. -/
theorem toList_text (x : Binary64) :
    x.text.toList = if x.negative then '-' :: Binary64.magnitudeText x.magnitude else Binary64.magnitudeText x.magnitude := by
  rw [Binary64.text, String.toList_ofList]

/-! ## Cutting off a word -/

/-- A text that begins like this ends every word before it. -/
def Stops (rest : List Char) : Prop := ∀ c ∈ rest.head?, c ∈ [' ', ',', ']']

theorem Stops.cases {rest : List Char} (h : Stops rest) {c : Char} (hc : c ∈ rest.head?) : c = ' ' ∨ c = ',' ∨ c = ']' := by
  simpa using h c hc

theorem Stops.beginsPlain {rest : List Char} (h : Stops rest) : Macro.BeginsPlain rest := by
  intro c hc
  rcases h.cases hc with rfl | rfl | rfl <;> decide

theorem Stops.ends {rest : List Char} (h : Stops rest) : Numeral.Ends rest := by
  intro c hc
  rcases h.cases hc with rfl | rfl | rfl <;> decide

theorem Stops.floatSuffix {rest : List Char} (h : Stops rest) : NumeralStyle.tag.floatSuffix rest = 0 := by
  cases rest with
  | nil => rfl
  | cons c rest => rcases h.cases rfl with rfl | rfl | rfl <;> rfl

theorem cutsOff_gap {rest : List Char} (hrest : ∀ c ∈ rest.head?, isGap c = false) : CutsOff cut none [' '] rest := by
  have hrun : runLength isGap ([] ++ rest) = 0 := Macro.runLength_run (List.forall_mem_nil _) hrest
  refine ⟨' ', [], rfl, ?_⟩
  rw [cut, if_pos (by decide), hrun]
  rfl

theorem cutsOff_mark {c : Char} {kind : TokenKind} (h : mark? c = some kind) (rest : List Char) :
    CutsOff cut (some kind) [c] rest := by
  refine ⟨c, [], rfl, ?_⟩
  unfold mark? at h
  split at h <;> cases h <;> rfl

/-- A quoted text without its quote in it. -/
theorem cutQuoted_text {quote : Char} {text : List Char} (h : quote ∉ text) (kind : TokenKind) (rest : List Char) :
    cutQuoted quote kind (text ++ quote :: rest) = ⟨some kind, text.length + 1⟩ := by
  have hrun : runLength (· ≠ quote) (text ++ quote :: rest) = text.length := by
    refine Macro.runLength_run (fun c hc => ?_) (by simp)
    exact decide_eq_true fun heq => h (heq ▸ hc)
  rw [cutQuoted, hrun, if_pos (by simp)]

theorem cutsOff_string {text : List Char} (h : '"' ∉ text) (rest : List Char) :
    CutsOff cut (some .string) ('"' :: (text ++ ['"'])) rest := by
  refine ⟨'"', _, rfl, ?_⟩
  have hcut : cut '"' (text ++ ['"'] ++ rest) = cutQuoted '"' .string (text ++ ['"'] ++ rest) := rfl
  rw [hcut, List.append_assoc, List.singleton_append, cutQuoted_text h, List.length_append]
  rfl

theorem cutsOff_character {text : List Char} (h : '\'' ∉ text) (rest : List Char) :
    CutsOff cut (some .character) ('\'' :: (text ++ ['\''])) rest := by
  refine ⟨'\'', _, rfl, ?_⟩
  have hcut : cut '\'' (text ++ ['\''] ++ rest) = cutQuoted '\'' .character (text ++ ['\''] ++ rest) := rfl
  rw [hcut, List.append_assoc, List.singleton_append, cutQuoted_text h, List.length_append]
  rfl

/-- Whether a character begins a number or a name. -/
def isOrdinary (c : Char) : Bool := !isGap c && c ≠ '"' && c ≠ '\'' && (mark? c).isNone

theorem cut_of_isOrdinary {c : Char} (h : isOrdinary c = true) (rest : List Char) :
    cut c rest = match signedNumeral? c rest with
      | some n => ⟨some (if n.isFloat then .floatConstant else .intConstant), n.length - 1⟩
      | none =>
        if isWordStart c then ⟨some (wordKind (c :: rest.take (runLength isWordChar rest))), runLength isWordChar rest⟩
        else ⟨some .invalid, 0⟩ := by
  simp only [isOrdinary, Bool.and_eq_true, Bool.not_eq_true', decide_eq_true_eq, Option.isNone_iff_eq_none] at h
  obtain ⟨⟨⟨hgap, hquote⟩, hquote'⟩, hmark⟩ := h
  rw [cut, if_neg (Bool.eq_false_iff.mp hgap), if_neg hquote, if_neg hquote']
  generalize Tag.mark? c = mark? at hmark
  subst hmark
  rfl

/-- Digits and letters are ordinary. -/
theorem isOrdinary_of_isWordChar {c : Char} (h : isWordChar c = true) : isOrdinary c = true ∧ c ≠ '+' ∧ c ≠ '-' := by
  have hne : ∀ d : Char, isWordChar d = false → c ≠ d := by
    rintro d hd rfl
    rw [hd] at h
    cases h
  have hmark : mark? c = none := by
    unfold mark?
    split
    · exact absurd rfl (hne '@' (by decide))
    · exact absurd rfl (hne '=' (by decide))
    · exact absurd rfl (hne '[' (by decide))
    · exact absurd rfl (hne ']' (by decide))
    · exact absurd rfl (hne ',' (by decide))
    · rfl
  refine ⟨?_, hne '+' (by decide), hne '-' (by decide)⟩
  simp [isOrdinary, hmark, isGap, hne ' ' (by decide), hne '\t' (by decide), hne '\r' (by decide), hne '\n' (by decide),
    hne '\x0c' (by decide), hne '"' (by decide), hne '\'' (by decide)]

/-- A number is cut off with its sign. -/
theorem cutsOff_number {isFloat : Bool} {cs rest : List Char} (hdigit : ∃ c more, cs = c :: more ∧ c.isDigit = true)
    (hread : Numeral.read? .tag (cs ++ rest) = some ⟨isFloat, cs.length⟩) (negative : Bool) :
    CutsOff cut (some (if isFloat then .floatConstant else .intConstant)) (if negative then '-' :: cs else cs) rest := by
  obtain ⟨c, more, rfl, hc⟩ := hdigit
  cases negative with
  | true =>
    refine ⟨'-', c :: more, rfl, ?_⟩
    have hsigned : signedNumeral? '-' (c :: more ++ rest) = some ⟨isFloat, (c :: more).length + 1⟩ := by
      rw [signedNumeral?, if_pos (by decide), hread]
      rfl
    rw [cut_of_isOrdinary (by decide), hsigned]
    rfl
  | false =>
    refine ⟨c, more, rfl, ?_⟩
    obtain ⟨hordinary, hplus, hminus⟩ := isOrdinary_of_isWordChar (Macro.isWordChar_of_isDigit hc)
    have hsigned : signedNumeral? c (more ++ rest) = some ⟨isFloat, (c :: more).length⟩ := by
      rw [signedNumeral?, if_neg (by simp [hplus, hminus])]
      exact hread
    rw [cut_of_isOrdinary hordinary, hsigned]
    rfl

theorem cutsOff_word {word rest : List Char} (hword : Directive.isIdentifier word = true) (hrest : Stops rest) :
    CutsOff cut (some (wordKind word)) word rest := by
  cases word with
  | nil => cases hword
  | cons c more =>
    obtain ⟨hstart, hmore⟩ := (Bool.and_eq_true _ _).mp hword
    obtain ⟨hordinary, hplus, hminus⟩ := isOrdinary_of_isWordChar (Macro.isWordChar_of_isWordStart hstart)
    obtain ⟨-, hdigit, hpoint, -⟩ := Directive.isOrdinary_of_isWordStart hstart
    have hrun : runLength isWordChar (more ++ rest) = more.length :=
      Macro.runLength_run (List.all_eq_true.mp hmore) hrest.beginsPlain
    have hsigned : signedNumeral? c (more ++ rest) = none := by
      rw [signedNumeral?, if_neg (by simp [hplus, hminus])]
      exact Directive.numeral_eq_none hdigit hpoint _
    refine ⟨c, more, rfl, ?_⟩
    rw [cut_of_isOrdinary hordinary, hsigned]
    simp only [if_pos hstart, hrun, List.take_left]

/-! ### Values -/

theorem cutsOff_int (i : Int64) {rest : List Char} (hrest : Stops rest) :
    CutsOff cut (some .intConstant) (Integer.text i).toList rest := by
  have hdigits : ∀ n, ∃ c more, Nat.toDigits 10 n = c :: more ∧ c.isDigit = true := by
    intro n
    obtain ⟨c, more, hcs⟩ := List.exists_cons_of_ne_nil (Nat.toDigits_ne_nil (b := 10) (n := n))
    exact ⟨c, more, hcs, Integer.isDigit_toDigits n c (hcs ▸ List.mem_cons_self)⟩
  have hread : ∀ n, Numeral.read? .tag (Nat.toDigits 10 n ++ rest) = some ⟨false, (Nat.toDigits 10 n).length⟩ := fun n =>
    Numeral.read?_integer (Integer.isDigit_toDigits n) Nat.toDigits_ne_nil hrest.ends
  rw [Integer.text]
  cases i.toInt with
  | ofNat n =>
    rw [Integer.toString_ofNat]
    exact cutsOff_number (hdigits n) (hread n) false
  | negSucc n =>
    rw [Integer.toString_negSucc]
    exact cutsOff_number (hdigits _) (hread _) true

theorem cutsOff_float {x : Binary64} (h : x.isFinite = true) {rest : List Char} (hrest : Stops rest) :
    CutsOff cut (some .floatConstant) x.text.toList rest := by
  obtain ⟨whole, fraction, exponent, hnumeral, htext, -⟩ := Binary64.isNumeralOf_magnitudeText (of_decide_eq_true h)
  rw [toList_text, htext]
  exact cutsOff_number hnumeral.exists_cons (Numeral.read?_numeral hnumeral hrest.ends hrest.floatSuffix) x.negative

/-- **The text of a value is cut off as its word.** -/
theorem cutsOff_value {v : TagValue} (h : v.isWritable = true) {rest : List Char} (hrest : Stops rest) :
    CutsOff cut (some (valueWord v).1) (valueWord v).2.toList rest := by
  cases v with
  | bool b => cases b <;> exact cutsOff_word (by decide) hrest
  | int i => exact cutsOff_int i hrest
  | float x => exact cutsOff_float h hrest
  | string s =>
    have htext : (valueWord (.string s)).2.toList = '"' :: (s.toList ++ ['"']) := by simp [valueWord, TagValue.text]
    rw [htext]
    exact cutsOff_string (of_decide_eq_true h) rest
  | char c =>
    have htext : (valueWord (.char c)).2.toList = '\'' :: (c.toList ++ ['\'']) := by simp [valueWord, TagValue.text]
    rw [htext]
    exact cutsOff_character (of_decide_eq_true h) rest

/-! ## Dividing the text of a tag -/

/-- What is cut off as a token begins with no gap. -/
theorem isGap_head {kind : TokenKind} {piece rest : List Char} (h : CutsOff cut (some kind) piece rest) :
    ∀ c ∈ (piece ++ rest).head?, isGap c = false := by
  obtain ⟨c, more, rfl, hcut⟩ := h
  rintro _ ⟨⟩
  rw [Bool.eq_false_iff]
  intro hgap
  rw [cut, if_pos hgap] at hcut
  cases hcut

section Divides

variable {rest : List Char} {others : List Written}

theorem divides_gap (hrest : ∀ c ∈ rest.head?, isGap c = false) (h : Divides cut rest others) :
    Divides cut (' ' :: rest) others :=
  .gap (cutsOff_gap hrest) h

theorem divides_mark {word : Written} {c : Char} (htext : word.2.toList = [c]) (hmark : mark? c = some word.1)
    (h : Divides cut rest others) : Divides cut (c :: rest) (word :: others) := by
  have hcuts : CutsOff cut (some word.1) word.2.toList rest := htext ▸ cutsOff_mark hmark rest
  have hword := Divides.word hcuts h
  rwa [htext] at hword

/-- A value after a blank. -/
theorem divides_value {v : TagValue} (hv : v.isWritable = true) (hrest : Stops rest) (h : Divides cut rest others) :
    Divides cut (' ' :: (v.text.toList ++ rest)) (valueWord v :: others) := by
  have hvalue := Divides.word (cutsOff_value hv hrest) h
  exact divides_gap (isGap_head (cutsOff_value hv hrest)) hvalue

/-- The values after the first. -/
theorem divides_moreValues (hrest : Stops rest) (h : Divides cut rest others) : ∀ {values : List TagValue},
    (∀ v ∈ values, v.isWritable = true) → Stops (values.flatMap (fun v => ',' :: ' ' :: v.text.toList) ++ rest) ∧
      Divides cut (values.flatMap (fun v => ',' :: ' ' :: v.text.toList) ++ rest)
        (values.flatMap (fun v => [comma, valueWord v]) ++ others)
  | [], _ => ⟨hrest, h⟩
  | v :: values, hvalues => by
    obtain ⟨hv, hvalues⟩ := List.forall_mem_cons.mp hvalues
    obtain ⟨hstops, hdivides⟩ := divides_moreValues hrest h hvalues
    refine ⟨by simp [Stops], ?_⟩
    rw [List.flatMap_cons, List.flatMap_cons, List.append_assoc, List.append_assoc]
    exact divides_mark (by decide) rfl (divides_value hv hstops hdivides)

/-- Values in brackets. -/
theorem divides_values {v : TagValue} {values : List TagValue} (hvalues : ∀ w ∈ v :: values, w.isWritable = true)
    (h : Divides cut rest others) :
    Divides cut ('[' :: (v.text.toList ++ (values.flatMap (fun w => ',' :: ' ' :: w.text.toList) ++ ']' :: rest)))
      (opening :: (valueWords (v :: values) ++ closing :: others)) := by
  obtain ⟨hv, hvalues⟩ := List.forall_mem_cons.mp hvalues
  have hclosing : Divides cut (']' :: rest) (closing :: others) := divides_mark (by decide) rfl h
  obtain ⟨hstops, hdivides⟩ := divides_moreValues (by simp [Stops]) hclosing hvalues
  have hvalue := Divides.word (cutsOff_value hv hstops) hdivides
  rw [valueWords_cons]
  exact divides_mark (by decide) rfl hvalue

/-- The name of a tag, and the sign before its values. -/
theorem divides_name {t : Tag} (ht : t.isWritable = true) (hrest : ∀ c ∈ rest.head?, isGap c = false) (h : Divides cut rest others) :
    Divides cut ('@' :: (t.name.toList ++ ' ' :: '=' :: ' ' :: rest)) (sign :: (.identifier, t.name) :: equalSign :: others) := by
  simp only [isWritable, Bool.and_eq_true, decide_eq_true_eq, ne_eq] at ht
  obtain ⟨⟨⟨⟨hname, htrue⟩, hfalse⟩, -⟩, -⟩ := ht
  have hkind : wordKind t.name.toList = .identifier := by
    rw [wordKind, if_neg (fun heq => htrue (String.toList_inj.mp heq)), if_neg (fun heq => hfalse (String.toList_inj.mp heq))]
  have hequal : Divides cut (' ' :: '=' :: ' ' :: rest) (equalSign :: others) :=
    divides_gap (by rintro _ ⟨⟩; decide) (divides_mark (by decide) rfl (divides_gap hrest h))
  have hcuts : CutsOff cut (some .identifier) t.name.toList (' ' :: '=' :: ' ' :: rest) :=
    hkind ▸ cutsOff_word hname (by simp [Stops])
  have hword : Divides cut (t.name.toList ++ ' ' :: '=' :: ' ' :: rest) ((.identifier, t.name) :: equalSign :: others) :=
    @Divides.word _ _ (.identifier, t.name) _ _ hcuts hequal
  exact divides_mark (by decide) rfl hword

/-- **The text of a tag is divided into its words.** -/
theorem divides_text {t : Tag} (ht : t.isWritable = true) (hrest : Stops rest) (h : Divides cut rest others) :
    Divides cut (t.text.toList ++ rest) (words t ++ others) := by
  have hvalues : t.values ≠ [] ∧ ∀ v ∈ t.values, v.isWritable = true := by
    simp only [isWritable, Bool.and_eq_true, Bool.not_eq_true', List.isEmpty_eq_false_iff, List.all_eq_true] at ht
    exact ⟨ht.1.2, ht.2⟩
  obtain ⟨name, values⟩ := t
  match values, hvalues with
  | [v], ⟨_, hv⟩ =>
    have hv := hv v List.mem_cons_self
    have hcuts := cutsOff_value hv hrest
    have htext : (text ⟨name, [v]⟩).toList ++ rest = '@' :: (name.toList ++ ' ' :: '=' :: ' ' :: (v.text.toList ++ rest)) := by
      simp [text]
    have hvalue := Divides.word hcuts h
    rw [htext]
    exact divides_name ht (isGap_head hcuts) hvalue
  | v :: w :: values, ⟨_, hvalues⟩ =>
    have htext : (text ⟨name, v :: w :: values⟩).toList ++ rest = '@' :: (name.toList ++ ' ' :: '=' :: ' ' :: '[' ::
        (v.text.toList ++ ((w :: values).flatMap (fun w => ',' :: ' ' :: w.text.toList) ++ ']' :: rest))) := by
      have hseparator : ", ".toList = [',', ' '] := by decide
      have htext : text ⟨name, v :: w :: values⟩ =
        "@" ++ name ++ " = [" ++ ", ".intercalate (v.text :: (w :: values).map TagValue.text) ++ "]" := rfl
      rw [htext, String.toList_append, String.toList_append, toList_intercalate_cons, List.flatMap_map, hseparator]
      simp
    have hwords : words ⟨name, v :: w :: values⟩ ++ others = sign :: (.identifier, name) :: equalSign ::
        opening :: (valueWords (v :: w :: values) ++ closing :: others) := by
      simp [words]
    rw [htext, hwords]
    exact divides_name ht (by rintro _ ⟨⟩; decide) (divides_values hvalues h)

end Divides

theorem toList_text_eq (t : Tag) : ∃ more, t.text.toList = '@' :: more := by
  rw [text]
  split <;> simp

/-- The tags after the first. -/
theorem divides_moreTexts : ∀ {tags : List Tag}, (∀ t ∈ tags, t.isWritable = true) →
    Stops (tags.flatMap fun t => ' ' :: t.text.toList) ∧ Divides cut (tags.flatMap fun t => ' ' :: t.text.toList) (tags.flatMap words)
  | [], _ => ⟨by simp [Stops], .nil⟩
  | t :: tags, htags => by
    obtain ⟨ht, htags⟩ := List.forall_mem_cons.mp htags
    obtain ⟨hstops, hdivides⟩ := divides_moreTexts htags
    refine ⟨by simp [Stops], ?_⟩
    rw [List.flatMap_cons, List.cons_append]
    have hgap : ∀ c ∈ (t.text.toList ++ tags.flatMap fun t => ' ' :: t.text.toList).head?, isGap c = false := by
      obtain ⟨more, hmore⟩ := toList_text_eq t
      rw [hmore]
      rintro _ ⟨⟩
      decide
    exact divides_gap hgap (divides_text ht hstops hdivides)

/-- **The texts of some tags are divided into their words.** -/
theorem divides_texts {tags : List Tag} (h : ∀ t ∈ tags, t.isWritable = true) :
    Divides cut (" ".intercalate (tags.map text)).toList (tags.flatMap words) := by
  cases tags with
  | nil => exact .nil
  | cons t tags =>
    obtain ⟨ht, htags⟩ := List.forall_mem_cons.mp h
    obtain ⟨hstops, hdivides⟩ := divides_moreTexts htags
    rw [List.map_cons, toList_intercalate_cons, List.flatMap_map, List.flatMap_cons]
    exact divides_text ht hstops hdivides

end Tag

end ShaderFront
