import Mathlib
import ShaderFront.Proofs.Expansion

/-!
# Texts that lack a word

A word occurs in a text if its characters stand there in a row, also as a part of a longer word. Word characters only ever stand
in a row inside one identifier (`Macro.infix_iff_identifiers`), so substitution and the reading of arguments bring no word into a
text that neither the body nor the call had. A macro whose name occurs nowhere leaves every expansion as it is
(`Macro.expandLevels_adding`).
-/

namespace ShaderFront

namespace Macro

/-- A word does not occur in a text. -/
def Lacks (word text : List Char) : Prop := ¬word <:+: text

theorem Lacks.of_isInfix {word text part : List Char} (h : Lacks word text) (hpart : part <:+: text) : Lacks word part :=
  fun hword => h (hword.trans hpart)

theorem lacks_nil {word : List Char} (hne : word ≠ []) : Lacks word [] := fun h => hne (List.infix_nil.mp h)

/-! ## Occurrences in identifiers -/

theorem splitAt_isInfix (p : Char → Bool) (text : List Char) :
    (∀ part ∈ (Text.splitAt p text).head?, part <+: text) ∧ ∀ part ∈ Text.splitAt p text, part <:+: text := by
  induction text with
  | nil => simp [Text.splitAt]
  | cons c text ih =>
    obtain ⟨hfirst, hparts⟩ := ih
    have hrest : ∀ {part : List Char}, part <:+: text → part <:+: c :: text := fun h => h.trans (List.suffix_cons c text).isInfix
    rw [Text.splitAt]
    split
    · refine ⟨by simp, List.forall_mem_cons.mpr ⟨List.nil_infix, fun part hpart => hrest (hparts part hpart)⟩⟩
    · cases hsplit : Text.splitAt p text with
      | nil => simp [List.prefix_iff_eq_take, List.infix_cons_iff]
      | cons first parts =>
        rw [hsplit] at hfirst hparts
        have hfront : c :: first <+: c :: text := List.cons_prefix_cons.mpr ⟨rfl, hfirst first rfl⟩
        obtain ⟨-, hparts⟩ := List.forall_mem_cons.mp hparts
        refine ⟨?_, List.forall_mem_cons.mpr ⟨hfront.isInfix, fun part hpart => hrest (hparts part hpart)⟩⟩
        rintro _ ⟨⟩
        exact hfront

theorem infix_of_mem_identifiers {text identifier : List Char} (h : identifier ∈ identifiers text) : identifier <:+: text :=
  (splitAt_isInfix _ text).2 identifier (List.mem_filter.mp h).1

variable {word : List Char}

/-- Word characters that stand in a row stand in one identifier. -/
theorem infix_iff_identifiers (hne : word ≠ []) (hchars : ∀ c ∈ word, isWordChar c = true) (text : List Char) :
    word <:+: text ↔ ∃ identifier ∈ identifiers text, word <:+: identifier := by
  constructor
  · rintro ⟨left, right, rfl⟩
    -- the identifier goes on to both sides as far as there are word characters
    have hends : EndsPlain (left.rdropWhile isWordChar) := by
      intro c hc
      have hnil : left.rdropWhile isWordChar ≠ [] := by
        intro hnil
        simp [hnil] at hc
      rw [List.getLast?_eq_getLast_of_ne_nil hnil] at hc
      obtain rfl := Option.some.inj hc
      simpa using List.rdropWhile_last_not isWordChar left hnil
    have hbegins : BeginsPlain (right.dropWhile isWordChar) := by
      intro c hc
      have := List.head?_dropWhile_not isWordChar right
      rw [hc] at this
      exact this
    let identifier := left.rtakeWhile isWordChar ++ word ++ right.takeWhile isWordChar
    have hidentifier : identifiers identifier = [identifier] := by
      refine identifiers_word (by simp [identifier, hne]) fun c hc => ?_
      rcases List.mem_append.mp hc with hc | hc
      · exact (List.mem_append.mp hc).elim List.mem_rtakeWhile_imp (hchars c)
      · exact List.mem_takeWhile_imp hc
    have htext : left ++ word ++ right = left.rdropWhile isWordChar ++ (identifier ++ right.dropWhile isWordChar) := by
      have hleft := List.rdropWhile_append_rtakeWhile (p := isWordChar) (l := left)
      have hright := List.takeWhile_append_dropWhile (p := isWordChar) (l := right)
      calc left ++ word ++ right
        _ = left.rdropWhile isWordChar ++ left.rtakeWhile isWordChar ++ word ++
              (right.takeWhile isWordChar ++ right.dropWhile isWordChar) := by rw [hleft, hright]
        _ = left.rdropWhile isWordChar ++ (identifier ++ right.dropWhile isWordChar) := by simp only [identifier, List.append_assoc]
    rw [htext, identifiers_append (.inl hends), identifiers_append (.inr hbegins), hidentifier]
    exact ⟨identifier, by simp, List.infix_append _ _ _⟩
  · rintro ⟨identifier, hidentifier, hword⟩
    exact hword.trans (infix_of_mem_identifiers hidentifier)

section Lacks

variable (hne : word ≠ []) (hchars : ∀ c ∈ word, isWordChar c = true)

include hne hchars

/-- Texts that lack a word still do when they are put together where no identifier goes over the seam. -/
theorem Lacks.append {left right : List Char} (hleft : Lacks word left) (hright : Lacks word right) (h : Broken left right) :
    Lacks word (left ++ right) := by
  intro hword
  obtain ⟨identifier, hidentifier, hword⟩ := (infix_iff_identifiers hne hchars _).mp hword
  rw [identifiers_append h, List.mem_append] at hidentifier
  rcases hidentifier with hidentifier | hidentifier
  · exact hleft (hword.trans (infix_of_mem_identifiers hidentifier))
  · exact hright (hword.trans (infix_of_mem_identifiers hidentifier))

theorem Lacks.cons {c : Char} {text : List Char} (hc : isWordChar c = false) (h : Lacks word text) : Lacks word (c :: text) := by
  intro hword
  obtain ⟨identifier, hidentifier, hword⟩ := (infix_iff_identifiers hne hchars _).mp hword
  rw [identifiers_cons hc] at hidentifier
  exact h (hword.trans (infix_of_mem_identifiers hidentifier))

/-- Arguments bring no word into a body that they lack. -/
theorem Lacks.substitute {parameters : List String} {arguments : List (List Char)} {body : List Char} (hbody : Lacks word body)
    (harguments : ∀ a ∈ arguments, Lacks word a) : Lacks word (substitute parameters arguments body) := by
  intro hword
  obtain ⟨identifier, hidentifier, hword⟩ := (infix_iff_identifiers hne hchars _).mp hword
  rcases mem_identifiers_substitute hidentifier with hidentifier | ⟨a, ha, hidentifier⟩
  · exact hbody (hword.trans (infix_of_mem_identifiers hidentifier))
  · exact harguments a ha (hword.trans (infix_of_mem_identifiers hidentifier))

/-- The arguments of a call lack a word that its text lacks. -/
theorem Lacks.callArguments {parameterCount : Nat} {text : List Char} {call : Call} (htext : Lacks word text)
    (h : readCall? text = some call) : ∀ a ∈ callArguments parameterCount call, Lacks word a := by
  intro a ha hword
  obtain ⟨identifier, hidentifier, hword⟩ := (infix_iff_identifiers hne hchars _).mp hword
  exact htext (hword.trans (infix_of_mem_identifiers (mem_identifiers_callArguments h ha hidentifier)))

end Lacks

/-! ## One macro more -/

end Macro

/-- A table with one macro more, or another one in place of the macro with its name. -/
def MacroTable.adding (t : MacroTable) (m : Macro) : MacroTable := (t.define m).2

theorem MacroTable.get?_adding (t : MacroTable) (m : Macro) {name : String} (h : name ≠ m.name) :
    (t.adding m).get? name = t.get? name := by
  rw [adding, define, get?, OrderedMap.get?_insert, if_neg h.symm, get?]

/-- The macros of other names have bodies that lack a name. -/
def MacroTable.Lacks (t : MacroTable) (name : String) : Prop :=
  ∀ other m, other ≠ name → t.get? other = some m → Macro.Lacks name.toList m.body.toList

namespace Macro

theorem drop_infix_cons (c : Char) (rest : List Char) (n : Nat) : rest.drop n <:+: c :: rest :=
  ((List.drop_suffix n rest).trans (List.suffix_cons c rest)).isInfix

/-- An expansion depends on the replacements of the words of its text only. -/
theorem expandWith_congr {inner inner' : String → List Char → Expansion} {scope scope' : Scope} {text : List Char}
    (h : ∀ word after, word ++ after <:+: text → replaceWord inner scope word after = replaceWord inner' scope' word after) :
    expandWith inner scope text = expandWith inner' scope' text := by
  fun_induction expandWith inner scope text with
  | case1 => rw [expandWith]
  | case2 c rest n hcomment ih =>
    rw [expandWith, hcomment]
    dsimp only
    rw [ih fun word after hword => h word after (hword.trans (drop_infix_cons c rest _))]
  | case3 c rest hcomment hnumber more ih =>
    rw [expandWith, hcomment]
    dsimp only
    rw [if_pos hnumber, ih fun word after hword => h word after (hword.trans (drop_infix_cons c rest _))]
  | case4 c rest hcomment hnumber hstart more after r ih =>
    have hreplace : r = replaceWord inner' scope' (c :: rest.take more) after :=
      h _ _ (by rw [List.cons_append, List.take_append_drop])
    rw [expandWith, hcomment]
    dsimp only
    rw [if_neg hnumber, if_pos hstart, ← hreplace,
      ih fun word after' hword => h word after' (hword.trans ?_)]
    rw [List.drop_drop]
    exact drop_infix_cons c rest _
  | case5 c rest hcomment hnumber hstart ih =>
    rw [expandWith, hcomment]
    dsimp only
    rw [if_neg hnumber, if_neg hstart, ih fun word after hword => h word after (hword.trans (drop_infix_cons c rest 0))]

section Frame

variable {m : Macro} (hne : m.name.toList ≠ []) (hchars : ∀ c ∈ m.name.toList, isWordChar c = true) {t : MacroTable}
  (ht : t.Lacks m.name) (maxDepth : Nat)

include hne hchars ht

omit ht in
theorem replaceCall_congr {inner inner' : String → List Char → Expansion} {found : Macro} {parameters : List String}
    {word after : List Char} (hinner : ∀ name text, Lacks m.name.toList text → inner' name text = inner name text)
    (hbody : Lacks m.name.toList found.body.toList) (hafter : Lacks m.name.toList after) :
    replaceCall inner' found parameters word after = replaceCall inner found parameters word after := by
  simp only [replaceCall]
  split
  · rename_i rest hdrop
    have hcall : Lacks m.name.toList ('(' :: rest) := hdrop ▸ hafter.of_isInfix (List.drop_suffix _ _).isInfix
    split
    · rfl
    · rename_i call hread
      have harguments : ∀ a ∈ callArguments parameters.length call, Lacks m.name.toList a := hcall.callArguments hne hchars hread
      rw [hinner _ _ (hbody.substitute hne hchars harguments)]
  · rfl

/-- A word is replaced alike with and without a macro that its text and all bodies lack, if what it is replaced by is expanded
alike. -/
theorem replaceWord_adding {inner inner' : String → List Char → Expansion} (active : List String) {word after : List Char}
    (hinner : ∀ name text, Lacks m.name.toList text → inner' name text = inner name text)
    (htext : Lacks m.name.toList (word ++ after)) :
    replaceWord inner' ⟨t.adding m, maxDepth, active⟩ word after = replaceWord inner ⟨t, maxDepth, active⟩ word after := by
  have hword : String.ofList word ≠ m.name := by
    intro hname
    refine htext ⟨[], after, ?_⟩
    rw [List.nil_append, ← hname, String.toList_ofList]
  rw [replaceWord, replaceWord]
  dsimp only
  rw [t.get?_adding m hword]
  cases hm : t.get? (String.ofList word) with
  | none => rfl
  | some found =>
    have hbody : Lacks m.name.toList found.body.toList := ht _ found hword hm
    dsimp only
    split
    · rfl
    · split
      · rfl
      · cases found.parameters with
        | none => simp only [hinner _ _ hbody]
        | some parameters => exact replaceCall_congr hne hchars hinner hbody (htext.of_isInfix (List.suffix_append word after).isInfix)

/-- **A macro whose name occurs nowhere changes no expansion.** -/
theorem expandLevels_adding : ∀ (levels : Nat) (active : List String) {text : List Char}, Lacks m.name.toList text →
    expandLevels (t.adding m) maxDepth levels active text = expandLevels t maxDepth levels active text
  | 0, active, text, htext => by
    rw [expandLevels, expandLevels]
    exact expandWith_congr fun word after hword => replaceWord_adding hne hchars ht maxDepth active (fun _ _ _ => rfl)
      (htext.of_isInfix hword)
  | levels + 1, active, text, htext => by
    rw [expandLevels, expandLevels]
    exact expandWith_congr fun word after hword => replaceWord_adding hne hchars ht maxDepth active
      (fun name _ h => expandLevels_adding levels (active ++ [name]) h) (htext.of_isInfix hword)

end Frame

end Macro

end ShaderFront
