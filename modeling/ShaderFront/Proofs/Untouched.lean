import Mathlib
import ShaderFront.Proofs.OpenComments
import ShaderFront.Proofs.Particles
import ShaderFront.Proofs.Settling
import ShaderFront.Preprocess.Basic

/-!
# Sources that pass through

A source in which no line begins a directive is one run of text (`Directive.parse_plain`), and a text that names no macro is its own
expansion (`Macro.expand_unnamed`). Main statement: the processing puts such a source out as it is and notes nothing
(`Preprocessor.process_untouched`).
-/

namespace ShaderFront

/-! ## Texts that name no macro -/

namespace Macro

variable {macros : MacroTable}

/-- No word of a text outside comments and numbers is the name of a macro. -/
def Unnamed (macros : MacroTable) (text : List Char) : Prop :=
  ∀ piece ∈ pieces text, isWord piece = true → macros.get? (String.ofList piece) = none

theorem Unnamed.tail {c : Char} {rest : List Char} (h : Unnamed macros (c :: rest)) :
    Unnamed macros (rest.drop (pieceMore c rest)) := by
  intro piece hpiece
  refine h piece ?_
  rw [pieces]
  exact List.mem_cons_of_mem _ hpiece

theorem replaceWord_unnamed (inner : String → List Char → Expansion) {scope : Scope} {word : List Char}
    (h : scope.macros.get? (String.ofList word) = none) (after : List Char) :
    replaceWord inner scope word after = ⟨word, 0, []⟩ := by
  simp [replaceWord, h, keep]

/-- A pass goes over a text that names no macro piece by piece. -/
theorem expandWith_unnamed (inner : String → List Char → Expansion) (scope : Scope) {text : List Char}
    (h : Unnamed scope.macros text) : expandWith inner scope text = ⟨text, []⟩ := by
  fun_induction expandWith inner scope text with
  | case1 => rfl
  | case2 c rest n hcomment ih =>
    have hmore : pieceMore c rest = n - 1 := by rw [pieceMore, hcomment]
    have htail := h.tail
    rw [hmore] at htail
    rw [ih htail, Expansion.after, List.cons_append, List.take_append_drop]
  | case3 c rest hcomment hnumber more ih =>
    have hmore : pieceMore c rest = more := by simp only [pieceMore, hcomment, hnumber, if_true, more]
    have htail := h.tail
    rw [hmore] at htail
    rw [ih htail, Expansion.after, List.cons_append, List.take_append_drop]
  | case4 c rest hcomment hnumber hstart more after r ih =>
    have hmore : pieceMore c rest = more := by rw [pieceMore_of_isWordStart hstart]
    have hword : scope.macros.get? (String.ofList (c :: rest.take more)) = none := by
      refine h _ ?_ hstart
      rw [pieces, hmore]
      exact List.mem_cons_self
    have hr : r = ⟨c :: rest.take more, 0, []⟩ := replaceWord_unnamed inner hword after
    have htail := h.tail
    rw [hmore] at htail
    rw [hr] at ih ⊢
    rw [ih htail, List.drop_zero, Expansion.after, Expansion.noting, List.cons_append, List.take_append_drop]
    rfl
  | case5 c rest hcomment hnumber hstart ih =>
    have hmore : pieceMore c rest = 0 := by simp [pieceMore, hcomment, hnumber, hstart]
    have htail := h.tail
    rw [hmore, List.drop_zero] at htail
    rw [ih htail]
    rfl

/-- **A text that names no macro is its own expansion**, and nothing is noted. -/
theorem expand_unnamed (maxDepth : Nat) {text : String} (h : Unnamed macros text.toList) : expand macros maxDepth text = (text, []) := by
  have hlevels : ∀ levels, expandLevels macros maxDepth levels [] text.toList = ⟨text.toList, []⟩
    | 0 => expandWith_unnamed _ ⟨macros, maxDepth, []⟩ h
    | levels + 1 => expandWith_unnamed _ ⟨macros, maxDepth, []⟩ h
  rw [expand, hlevels, String.ofList_toList]

end Macro

theorem MacroTable.get?_defineAll {name : String} : ∀ {macros : List (String × String)} {t : MacroTable},
    name ∉ macros.map Prod.fst → (t.defineAll macros).get? name = t.get? name
  | [], _, _ => rfl
  | (other, body) :: macros, t, h => by
    rw [List.map_cons, List.mem_cons, not_or] at h
    have hdefine : (t.define { name := other, body }).2.get? name = t.get? name := by
      rw [define, get?, OrderedMap.get?_insert, if_neg (Ne.symm h.1), get?]
    exact (get?_defineAll h.2).trans hdefine

/-! ## Sources without directives -/

namespace Directive

open Text (AreLines IsWhole)

/-- Lines none of which begins a directive are one run of text. -/
theorem lineTokens_plain {lines : List (List Char)} {inside : Bool}
    (h : ∀ front line back, lines = front ++ line :: back → front.foldl endsInComment inside = false → isDirective line = false)
    (offset : Nat) (run : List (List Char)) :
    lineTokens inside offset run lines = textTokens (offset + byteLength lines.flatten) (lines.reverse ++ run) := by
  induction lines generalizing inside offset run with
  | nil => rw [lineTokens]; rfl
  | cons line lines ih =>
    have hline : ¬(!inside && isDirective line) = true := by
      cases hinside : inside with
      | true => simp
      | false => simp [h [] line lines rfl hinside]
    have hrest := @ih (endsInComment inside line) (fun front next back hlines hclosed => h (line :: front) next back
      (by rw [hlines]; rfl) hclosed) (offset + byteLength line) (line :: run)
    rw [lineTokens, if_neg hline, hrest, List.flatten_cons, byteLength_append, Nat.add_assoc, List.reverse_cons, List.append_assoc]
    rfl

/-- The lines of a source that stand outside of block comments begin no directive. -/
def Directiveless (source : String) : Prop := ∀ front line back, Text.lines source.toList = front ++ line :: back →
  commentOpen false front.flatten = false → (line.find? fun c => !Text.isBlank c) ≠ some '#'

theorem tokens_plain {source : String} (h : Directiveless source) :
    tokens source = textTokens (byteLength source.toList) (Text.lines source.toList).reverse := by
  have hlines := @lineTokens_plain (Text.lines source.toList) false (fun front line back hsplit hclosed => ?_) 0 []
  · rwa [Nat.zero_add, Text.flatten_lines, List.append_nil] at hlines
  · have hareLines := Text.areLines_lines source.toList
    rw [hsplit] at hareLines
    have hopen := commentOpen_flatten (hareLines.front (List.cons_ne_nil _ _)) false []
    rw [List.append_nil, hclosed, commentOpen] at hopen
    rw [isDirective_eq, decide_eq_false (h front line back hsplit hopen)]

/-- A source without directives is a run of text; an empty source has none. -/
theorem parse_plain {source : String} (h : Directiveless source) : parse source = .ok (if source = "" then [] else [.text source]) := by
  have htokens := tokens_plain h
  by_cases hempty : source = ""
  · subst hempty
    rw [if_pos rfl]
    exact @parse_of_read _ [] _ (by rw [htokens]; rfl) fun _ => read_nil
  · have hlines : (Text.lines source.toList).reverse.isEmpty = false := by
      rw [List.isEmpty_eq_false_iff, ne_eq, List.reverse_eq_nil_iff]
      intro hnil
      have hflat := Text.flatten_lines source.toList
      rw [hnil, List.flatten_nil] at hflat
      exact hempty (String.toList_inj.mp hflat.symm)
    rw [textTokens, List.reverse_reverse, Text.flatten_lines, hlines] at htokens
    rw [if_neg hempty]
    have hread : ∀ number, Read number .particle
        [(.text, ⟨TokenKind.text.id, source, ⟨byteLength source.toList - byteLength source.toList, byteLength source.toList⟩⟩)]
        (.particle (.text source)) := fun number => read_rule 5 (by rfl) (by rfl) (readAll_token 5 (by decide) (.inl rfl) .nil) rfl
    exact parse_of_read (by rw [htokens]; simp) fun number => read_concat read_nil (hread number)

end Directive

namespace Preprocessor

open Preprocess

/-- **A source without directives that names no macro passes through unchanged**, and nothing is noted: the header is empty, no line
outside of block comments begins a directive, and no word outside of comments and numbers is the name of a macro. -/
theorem process_untouched (p : Preprocessor) (source : String) (hheader : p.header = "") (hplain : Directive.Directiveless source)
    (hwords : ∀ piece ∈ Macro.pieces source.toList, Macro.isWord piece = true →
      MacroTable.predefined.get? (String.ofList piece) = none ∧ String.ofList piece ∉ p.options.predefined.map Prod.fst) :
    (p.process source).1 = .ok source ∧ (p.process source).2.state = .initial p.options p.state.library ∧
      (p.process source).2.state.log = [] := by
  have hunnamed : Macro.Unnamed (State.initial p.options p.state.library).macros source.toList := by
    intro piece hpiece hword
    obtain ⟨hpredefined, hoptions⟩ := hwords piece hpiece hword
    exact (MacroTable.get?_defineAll hoptions).trans hpredefined
  have hvisit : visitAll p.options (includeFile p.options p.options.maxIncludeDepth) (if source = "" then [] else [.text source])
      (.initial p.options p.state.library) = (source, .initial p.options p.state.library) := by
    by_cases hempty : source = ""
    · rw [if_pos hempty, visitAll, hempty]
    · simp only [if_neg hempty, visitAll, visit, Macro.expand_unnamed _ hunnamed]
      simp [State.note]
  have hprocess : p.process source = (.ok source, { p with state := .initial p.options p.state.library }) := by
    have hempty : processHeader p.options p.header (.initial p.options p.state.library) =
        (.ok "", .initial p.options p.state.library) := if_pos (by rw [hheader]; rfl)
    rw [process, hempty, processAfter, processSource, Directive.parse_plain hplain, processParticles, hvisit]
    simp [Except.map]
  rw [hprocess]
  exact ⟨rfl, rfl, rfl⟩

/-- A `#` inside of a comment begins no directive. -/
theorem process_untouched_comment :
    let p : Preprocessor := { options := { predefined := [("e3", "1")] }, state := .initial {} (.inMemory []) }
    let source := "/*\n#if */ f(1e3)\n"
    p.header = "" ∧ Directive.Directiveless source ∧ (∀ piece ∈ Macro.pieces source.toList, Macro.isWord piece = true →
      MacroTable.predefined.get? (String.ofList piece) = none ∧ String.ofList piece ∉ p.options.predefined.map Prod.fst) ∧
      (p.process source).1 = .ok source := by
  intro p source
  have hplain : Directive.Directiveless source := by
    have hlines : Text.lines source.toList = ["/*\n".toList, "#if */ f(1e3)\n".toList] := by decide
    intro front line back hsplit
    rw [hlines] at hsplit
    match front, hsplit with
    | [], h =>
      obtain ⟨rfl, -⟩ := List.cons.inj h
      exact fun _ => by decide
    | [_], h =>
      obtain ⟨rfl, -⟩ := List.cons.inj h
      intro hopen
      have hinside : Directive.commentOpen false ["/*\n".toList].flatten = true := by cbv
      cases hopen.symm.trans hinside
    | _ :: _ :: _, h => simp at h
  have hwords : ∀ piece ∈ Macro.pieces source.toList, Macro.isWord piece = true →
      MacroTable.predefined.get? (String.ofList piece) = none ∧ String.ofList piece ∉ p.options.predefined.map Prod.fst := by
    have hpieces : Macro.pieces source.toList =
        ["/*\n#if */".toList, [' '], ['f'], ['('], "1e3".toList, [')'], ['\n']] := by cbv
    rw [hpieces]
    decide
  exact ⟨rfl, hplain, hwords, (process_untouched p source rfl hplain hwords).1⟩

end Preprocessor

end ShaderFront
