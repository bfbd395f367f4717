import Mathlib
import ShaderFront.Proofs.Reading
import ShaderFront.Proofs.Spelling.Tag
import ShaderFront.Proofs.TagWords

/-!
# Printing annotations

The words of a tag are read as the tag (`reads_tag`), and the text of some tags is divided into the words of the tags
(`divides_texts`). Main statement: tags that can be written are read back from their texts (`Tag.parse_text`).
-/

namespace ShaderFront.Tag

open Alphabet (readsBody_token readsBody_node readsBody_last)

/-! ## Reading the words of a tag -/

/-- Tokens are read by the rules of annotations. -/
abbrev ReadsAs := alphabet.ReadsAs language

/-- The elements of a body are read. -/
abbrev ReadsBody := alphabet.ReadsBody language

variable {number : Nonterminal → SymbolId}

theorem reads_rule (id : Nat) {r : Rule Node} {p : Spelling TokenKind Nonterminal} {elements : List (Matched Node)}
    {front : List (TokenKind × Token)} {node : Node} (hr : rules[id]? = some r) (hp : productions[id]? = some p)
    (hbody : ReadsBody number id 0 p.body elements front) (hbuild : r.build elements = .ok node) :
    ReadsAs number p.head front node :=
  .rule hr hp hbody hbuild

/-! ### Values -/

theorem unquote_quoted (quote : Char) (text : String) (token : String)
    (h : token.toList = quote :: (text.toList ++ [quote])) : unquote token = text := by
  rw [unquote, h, List.tail_cons, List.dropLast_concat, String.ofList_toList]

/-- Digits without a sign are read as they are. -/
theorem integerOf_of_isDigit {token : Token} {digits : List Char} {i : Int64} (htext : token.text.toList = digits)
    (hdigits : ∀ c ∈ digits, c.isDigit = true) (hread : Integer.readChars? digits = some i) : integerOf token = .ok i := by
  cases digits with
  | nil => simp [integerOf, htext, hread]
  | cons c more =>
    have hfirst : c ≠ '+' ∧ c ≠ '-' := by
      have hc := hdigits c List.mem_cons_self
      constructor <;> rintro rfl <;> cases hc
    have hsign : (c :: more).dropWhile (· = '+') = c :: more :=
      List.dropWhile_cons_of_neg fun hplus => hfirst.1 (of_decide_eq_true hplus)
    simp [integerOf, htext, hfirst.2, hsign, hread]

/-- A word is read back from its text, if its negative is a word as well. -/
theorem integerOf_text {i : Int64} (h : Int64.minValue < i) {token : Token} (htext : token.text = Integer.text i) :
    integerOf token = .ok i := by
  have hbound : -2 ^ 63 < i.toInt := Int64.lt_iff_toInt_lt.mp h
  have hword := Integer.word?_toInt i
  cases hi : i.toInt with
  | ofNat n =>
    have hchars : token.text.toList = Nat.toDigits 10 n := by rw [htext, Integer.text, hi, Integer.toString_ofNat]
    refine integerOf_of_isDigit hchars (Integer.isDigit_toDigits n) ?_
    rw [Integer.readChars?_toDigits, ← hword, hi]
    rfl
  | negSucc n =>
    have hchars : token.text.toList = '-' :: Nat.toDigits 10 (n + 1) := by
      rw [htext, Integer.text, hi, Integer.toString_negSucc]
    have hvalue : Integer.word? ((n + 1 : Nat) : Int) = some (Int64.ofInt (n + 1 : Nat)) := by
      have hmin : Int64.minValue.toInt = -2 ^ 63 := rfl
      have hmax : Int64.maxValue.toInt = 2 ^ 63 - 1 := rfl
      rw [Integer.word?, if_pos (by omega)]
    have hneg : -Int64.ofInt ((n + 1 : Nat) : Int) = i := by
      rw [← Int64.ofInt_neg, ← Int64.ofInt_toInt (x := i), hi]
      rfl
    rw [integerOf, hchars]
    simp only [Integer.readChars?_toDigits, hvalue, Option.map_some, hneg]

theorem floatOf_text {x : Binary64} (h : x.isFinite = true) {token : Token} (htext : token.text = x.text) :
    floatOf token = .ok x := by
  obtain ⟨whole, fraction, exponent, hnumeral, hmagnitude, -⟩ := Binary64.isNumeralOf_magnitudeText (of_decide_eq_true h)
  have hchars : ∀ c ∈ x.text.toList, c.isDigit = true ∨ c ∈ ['.', 'e', '-'] := by
    intro c hc
    rw [toList_text, hmagnitude] at hc
    split at hc
    · rcases List.mem_cons.mp hc with rfl | hc
      · exact .inr (by decide)
      · exact Decimal.mem_numeral hnumeral hc
    · exact Decimal.mem_numeral hnumeral hc
  have hkeep : (x.text.toList.reverse.dropWhile fun c => c = 'f' || c = 'F').reverse = x.text.toList := by
    refine List.rdropWhile_eq_self_iff.mpr fun hne hsuffix => ?_
    have hlast := hchars _ (List.getLast_mem hne)
    rcases (Bool.or_eq_true _ _).mp hsuffix with hsuffix | hsuffix <;>
      (rw [of_decide_eq_true hsuffix] at hlast; exact absurd hlast (by decide))
  rw [floatOf, htext, hkeep, Decimal.read?_text h]

/-- **The word of a value is read as the value.** -/
theorem reads_value {v : TagValue} (h : v.isWritable = true) {front : List (TokenKind × Token)}
    (hfront : alphabet.Carries front [valueWord v]) : ReadsAs number .singleValue front (.value v) := by
  obtain ⟨token, rfl, htext, hadmits⟩ := hfront.singleton
  have hbody : ∀ {id : Nat} {kind : TokenKind}, kind = valueKind v →
      ReadsBody number id 0 [.token kind] [.token token] [(valueKind v, token)] := by
    rintro id kind rfl
    exact .token hadmits (fun _ _ => trivial) .nil
  cases v with
  | bool b =>
    cases b with
    | true => exact reads_rule 11 (by rfl) (by rfl) (hbody rfl) rfl
    | false => exact reads_rule 12 (by rfl) (by rfl) (hbody rfl) rfl
  | int i =>
    refine reads_rule 13 (by rfl) (by rfl) (hbody rfl) ?_
    exact congrArg (Except.map _) (integerOf_text (of_decide_eq_true h) htext)
  | float x =>
    refine reads_rule 14 (by rfl) (by rfl) (hbody rfl) ?_
    exact congrArg (Except.map _) (floatOf_text h htext)
  | string s =>
    have hunquote : unquote token.text = s := unquote_quoted '"' s token.text (by rw [htext]; simp [valueWord, TagValue.text])
    refine reads_rule 15 (by rfl) (by rfl) (hbody rfl) ?_
    rw [← hunquote]
  | char c =>
    have hunquote : unquote token.text = c := unquote_quoted '\'' c token.text (by rw [htext]; simp [valueWord, TagValue.text])
    refine reads_rule 16 (by rfl) (by rfl) (hbody rfl) ?_
    rw [← hunquote]

/-- The values after some others. -/
theorem reads_moreValues : ∀ {rest : List TagValue}, (∀ v ∈ rest, v.isWritable = true) →
    ∀ {front back : List (TokenKind × Token)} {values : List TagValue}, ReadsAs number .valueList front (.values values) →
      alphabet.Carries back (rest.flatMap fun w => [comma, valueWord w]) →
      ReadsAs number .valueList (front ++ back) (.values (values ++ rest))
  | [], _, front, back, values, hfront, hback => by
    obtain rfl := List.map_eq_nil_iff.mp hback.written
    rwa [List.append_nil, List.append_nil]
  | v :: rest, hvalues, front, back, values, hfront, hback => by
    obtain ⟨hv, hrest⟩ := List.forall_mem_cons.mp hvalues
    rw [List.flatMap_cons] at hback
    obtain ⟨middle, back, rfl, hmiddle, hright⟩ := hback.append
    obtain ⟨token, middle, rfl, -, hcomma, hmiddle⟩ := hmiddle.cons
    have hmore : ReadsAs number .valueList (front ++ (comma.1, token) :: middle) (.values (values ++ [v])) :=
      reads_rule 10 (by rfl) (by rfl) (readsBody_node hfront (.token hcomma (fun _ _ => trivial)
        (readsBody_last (reads_value hv hmiddle)))) rfl
    have hread := reads_moreValues hrest hmore hright
    rwa [List.append_assoc, List.append_assoc] at hread

theorem reads_values {v : TagValue} {rest : List TagValue} (h : ∀ w ∈ v :: rest, w.isWritable = true)
    {front : List (TokenKind × Token)} (hfront : alphabet.Carries front (valueWords (v :: rest))) :
    ReadsAs number .valueList front (.values (v :: rest)) := by
  obtain ⟨hv, hrest⟩ := List.forall_mem_cons.mp h
  rw [valueWords_cons, ← List.singleton_append] at hfront
  obtain ⟨left, right, rfl, hleft, hright⟩ := hfront.append
  exact reads_moreValues hrest (reads_rule 9 (by rfl) (by rfl) (readsBody_last (reads_value hv hleft)) rfl) hright

/-! ### Tags -/

/-- **The words of a tag are read as the tag.** -/
theorem reads_tag {t : Tag} (h : t.isWritable = true) {front : List (TokenKind × Token)}
    (hfront : alphabet.Carries front (words t)) : ReadsAs number .tag front (.tags [t]) := by
  obtain ⟨name, values⟩ := t
  obtain ⟨hne, hvalues⟩ : values ≠ [] ∧ ∀ v ∈ values, v.isWritable = true := by
    simp only [isWritable, Bool.and_eq_true, Bool.not_eq_true', List.isEmpty_eq_false_iff, List.all_eq_true] at h
    exact ⟨h.1.2, h.2⟩
  obtain ⟨at_, _, rfl, -, hat, hfront⟩ := hfront.cons
  obtain ⟨identifier, _, rfl, hname, hidentifier, hfront⟩ := hfront.cons
  obtain ⟨equal, front, rfl, -, hequal, hfront⟩ := hfront.cons
  have hassignment : ReadsAs number .tagAssignment [(.at, at_), (.identifier, identifier), (.equal, equal)] (.names [name]) := by
    have hreads : ReadsAs number .tagName [(.at, at_), (.identifier, identifier)] (.names [identifier.text]) :=
      reads_rule 8 (by rfl) (by rfl) (.token hat (fun _ _ => trivial) (.token hidentifier (fun _ _ => trivial) .nil)) rfl
    rw [hname] at hreads
    exact reads_rule 6 (by rfl) (by rfl) (readsBody_node hreads (.token hequal (fun _ _ => trivial) .nil)) rfl
  obtain ⟨v, rest, rfl⟩ := List.exists_cons_of_ne_nil hne
  cases rest with
  | nil =>
    have hvalue : ReadsAs number .singleValue front (.value v) := reads_value (hvalues v List.mem_cons_self) hfront
    exact reads_rule 5 (by rfl) (by rfl) (readsBody_node hassignment (readsBody_last hvalue)) rfl
  | cons w rest =>
    obtain ⟨left, front, rfl, -, hleft, hfront⟩ := hfront.cons
    obtain ⟨inner, back, rfl, hinner, hback⟩ := hfront.append
    obtain ⟨right, rfl, -, hright⟩ := hback.singleton
    exact reads_rule 4 (by rfl) (by rfl) (readsBody_node hassignment (.token hleft (fun _ _ => trivial)
      (readsBody_node (reads_values hvalues hinner) (.token hright (fun _ _ => trivial) .nil)))) rfl

/-- The tags after some others. -/
theorem reads_moreTags : ∀ {rest : List Tag}, (∀ t ∈ rest, t.isWritable = true) → ∀ {front back : List (TokenKind × Token)}
    {tags : List Tag}, ReadsAs number .tagList front (.tags tags) → alphabet.Carries back (rest.flatMap words) →
      ReadsAs number .tagList (front ++ back) (.tags (tags ++ rest))
  | [], _, front, back, tags, hfront, hback => by
    obtain rfl := List.map_eq_nil_iff.mp hback.written
    rwa [List.append_nil, List.append_nil]
  | t :: rest, htags, front, back, tags, hfront, hback => by
    obtain ⟨ht, hrest⟩ := List.forall_mem_cons.mp htags
    rw [List.flatMap_cons] at hback
    obtain ⟨middle, back, rfl, hmiddle, hright⟩ := hback.append
    have hmore : ReadsAs number .tagList (front ++ middle) (.tags (tags ++ [t])) :=
      reads_rule 2 (by rfl) (by rfl) (readsBody_node hfront (readsBody_last (reads_tag ht hmiddle))) rfl
    have hread := reads_moreTags hrest hmore hright
    rwa [List.append_assoc, List.append_assoc] at hread

theorem reads_tags {t : Tag} {rest : List Tag} (h : ∀ u ∈ t :: rest, u.isWritable = true) {front : List (TokenKind × Token)}
    (hfront : alphabet.Carries front ((t :: rest).flatMap words)) : ReadsAs number .tagList front (.tags (t :: rest)) := by
  obtain ⟨ht, hrest⟩ := List.forall_mem_cons.mp h
  rw [List.flatMap_cons] at hfront
  obtain ⟨left, right, rfl, hleft, hright⟩ := hfront.append
  exact reads_moreTags hrest (reads_rule 1 (by rfl) (by rfl) (readsBody_last (reads_tag ht hleft)) rfl) hright

/-! ## Parsing -/

/-- The tokens of a text that is divided into words carry the words. -/
theorem carries_tokens {text : String} {written : List Written} (h : Divides cut text.toList written) (offset : Nat) :
    ∃ front, alphabet.Carries front written ∧ tokens text offset = front.map Prod.snd := by
  refine ⟨((scan cut offset text.toList).filterMap Piece.lexeme?).map fun l => (l.kind, ⟨l.kind.id, l.text, l.span⟩), ⟨?_, ?_⟩, ?_⟩
  · intro r hr
    obtain ⟨l, -, rfl⟩ := List.mem_map.mp hr
    rfl
  · rw [List.map_map]
    exact h.lexemes offset
  · rw [tokens, List.map_map]
    rfl

/-- **Printed annotations are read back.** The texts of some tags, with blanks between them, are read as the tags, wherever they
stand in a source. -/
theorem parse_text {tags : List Tag} (hne : tags ≠ []) (h : ∀ t ∈ tags, t.isWritable = true) (offset : Nat) :
    parse (" ".intercalate (tags.map text)) offset = .ok tags := by
  obtain ⟨front, hfront, htokens⟩ := carries_tokens (divides_texts h) offset
  have hreads : ∀ number, ReadsAs number .tagList front (.tags tags) := by
    intro number
    obtain ⟨t, rest, rfl⟩ := List.exists_cons_of_ne_nil hne
    exact reads_tags h hfront
  have hparse : language.parse table (front.map Prod.snd) = .ok (.tags tags) :=
    alphabet_covers.parse_reads tameness hfront.own hreads
  rw [parse, htokens]
  exact congrArg tagsOf hparse

/-- Signs, exponents, lists and quotes are read back. -/
theorem parse_text_range :
    (∀ t ∈ [(⟨"range", [.int (-3), .float ⟨true, 4502148214488346440⟩]⟩ : Tag), ⟨"label", [.string "a\n'b'"]⟩],
      t.isWritable = true) ∧
    parse "@range = [-3, -1e-7] @label = \"a\n'b'\"" 7 =
      .ok [⟨"range", [.int (-3), .float ⟨true, 4502148214488346440⟩]⟩, ⟨"label", [.string "a\n'b'"]⟩] := by
  have hwritable : ∀ t ∈ [(⟨"range", [.int (-3), .float ⟨true, 4502148214488346440⟩]⟩ : Tag), ⟨"label", [.string "a\n'b'"]⟩],
      t.isWritable = true := by decide +kernel
  have htext : " ".intercalate ([(⟨"range", [.int (-3), .float ⟨true, 4502148214488346440⟩]⟩ : Tag),
      ⟨"label", [.string "a\n'b'"]⟩].map text) = "@range = [-3, -1e-7] @label = \"a\n'b'\"" := by decide +kernel
  have hparse := parse_text (List.cons_ne_nil _ _) hwritable 7
  rw [htext] at hparse
  exact ⟨hwritable, hparse⟩

end ShaderFront.Tag
