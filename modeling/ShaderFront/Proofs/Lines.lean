import Mathlib
import ShaderFront.Proofs.Layout

/-!
# The lines of a source

Each line of a source is a directive or belongs to a run of text (`Directive.marked`). If no directive goes on with the next
line, the particles of a source are its lines in order (`Directive.parse_tiled`): a directive is one line, and a run of text is
some lines that are no directives. The bodies of its macros hold no line breaks.
-/

namespace ShaderFront

namespace Text

/-- A line with the line break that ends it. -/
def IsWhole (line : List Char) : Prop := ∃ body, line = body ++ ['\n'] ∧ '\n' ∉ body

/-- Only the last line may have no line break. -/
inductive AreLines : List (List Char) → Prop
  | nil : AreLines []
  | last {line : List Char} : line ≠ [] → '\n' ∉ line → AreLines [line]
  | cons {line : List Char} {rest : List (List Char)} : IsWhole line → AreLines rest → AreLines (line :: rest)

theorem areLines_lines (text : List Char) : AreLines (lines text) := by
  induction text with
  | nil => exact .nil
  | cons c text ih =>
    rw [lines]
    split
    · rename_i hc
      exact .cons ⟨[], by rw [hc]; rfl, by simp⟩ ih
    · rename_i hc
      cases hlines : lines text with
      | nil => exact .last (by simp) (by simpa using Ne.symm hc)
      | cons line others =>
        rw [hlines] at ih
        cases ih with
        | last hne hflat => exact .last (by simp) (by simpa [Ne.symm hc] using hflat)
        | cons hline hothers =>
          obtain ⟨body, rfl, hflat⟩ := hline
          exact .cons ⟨c :: body, rfl, by simpa [Ne.symm hc] using hflat⟩ hothers

theorem flatten_lines (text : List Char) : (lines text).flatten = text := by
  induction text with
  | nil => rfl
  | cons c text ih =>
    rw [lines]
    split
    · rw [List.flatten_cons, ih]
      rfl
    · cases hlines : lines text with
      | nil =>
        rw [hlines] at ih
        simpa using ih
      | cons line others =>
        rw [hlines] at ih
        simpa using ih

theorem AreLines.of_mem {all : List (List Char)} (h : AreLines all) {line : List Char} (hline : line ∈ all) :
    IsWhole line ∨ '\n' ∉ line := by
  induction h with
  | nil => cases hline
  | last _ hflat => exact .inr (List.mem_singleton.mp hline ▸ hflat)
  | cons hwhole _ ih =>
    rcases List.mem_cons.mp hline with rfl | hline
    · exact .inl hwhole
    · exact ih hline

/-- Lines that others follow are whole. -/
theorem AreLines.front : ∀ {front back : List (List Char)}, AreLines (front ++ back) → back ≠ [] → ∀ line ∈ front, IsWhole line
  | [], _, _, _ => by simp
  | [line], back, h, hback => by
    cases h with
    | last => exact absurd rfl hback
    | cons hline _ => simpa using hline
  | line :: next :: front, back, h, hback => by
    cases h with
    | cons hline hrest => exact List.forall_mem_cons.mpr ⟨hline, AreLines.front hrest hback⟩

theorem AreLines.suffix {back : List (List Char)} : ∀ {front : List (List Char)}, AreLines (front ++ back) → AreLines back
  | [], h => h
  | line :: front, h => by
    generalize hall : line :: front ++ back = all at h
    cases h with
    | nil => cases hall
    | last =>
      obtain rfl : back = [] := (List.append_eq_nil_iff.mp (List.cons.inj hall).2).2
      exact .nil
    | cons _ hrest => exact AreLines.suffix ((List.cons.inj hall).2 ▸ hrest)

end Text

namespace Directive

open Text (AreLines IsWhole)

/-- The lines of a text, each with whether it is a directive; `inside` says whether a block comment is open. -/
def marked (inside : Bool) : List (List Char) → List (List Char × Bool)
  | [] => []
  | line :: rest =>
    if !inside && isDirective line then (line, true) :: marked false rest
    else (line, false) :: marked (endsInComment inside line) rest

theorem map_fst_marked (inside : Bool) (all : List (List Char)) : (marked inside all).map Prod.fst = all := by
  induction all generalizing inside with
  | nil => rfl
  | cons line rest ih =>
    rw [marked]
    split <;> simp [ih]

/-- Stretches are lines in order: a directive is one line, a run of text some lines that are no directives. -/
inductive Tiled : List Stretch → List (List Char × Bool) → Prop
  | nil : Tiled [] []
  | directive {line : List Char} {stretches : List Stretch} {rest : List (List Char × Bool)} :
      Tiled stretches rest → Tiled (.directive :: stretches) ((line, true) :: rest)
  | text {run : List (List Char)} {text : String} {stretches : List Stretch} {rest : List (List Char × Bool)} :
      run ≠ [] → text.toList = run.flatten → Tiled stretches rest →
      Tiled (.text text :: stretches) (run.map (·, false) ++ rest)

/-! ## Tokens of lines -/

theorem stretches_of_isInner {kind : TokenKind} (hkind : kind.isInner = true) {token : Token} (htoken : token.symbol = kind.id) :
    tokenStretches token = [] := by
  rw [tokenStretches, htoken, if_neg, if_neg]
  · exact id_injective.ne fun heq => by simp [heq, TokenKind.isInner, TokenKind.isWritten] at hkind
  · exact id_injective.ne fun heq => by simp [heq, TokenKind.isInner, TokenKind.isWritten] at hkind

theorem stretches_directiveTokens (offset : Nat) (directive : List Char) :
    (directiveTokens offset directive).flatMap tokenStretches = [.directive] := by
  simp only [directiveTokens, List.flatMap_append, List.flatMap_singleton]
  rw [List.flatMap_eq_nil_iff.mpr fun token htoken => ?_]
  · rfl
  · obtain ⟨kind, hkind, hsymbol⟩ := exists_kind_of_mem_piecesTokens htoken
    exact stretches_of_isInner hkind hsymbol

theorem tiled_textTokens (stop : Nat) (run : List (List Char)) {stretches : List Stretch} {rest : List (List Char × Bool)}
    (h : Tiled stretches rest) :
    Tiled ((textTokens stop run).flatMap tokenStretches ++ stretches) (run.reverse.map (·, false) ++ rest) := by
  cases run with
  | nil => simpa [textTokens] using h
  | cons line run =>
    have hstretches : (textTokens stop (line :: run)).flatMap tokenStretches =
        [.text (String.ofList (line :: run).reverse.flatten)] := by
      simp [textTokens, tokenStretches, id_injective.eq_iff]
    rw [hstretches, List.singleton_append]
    exact .text (by simp) (by simp) h

/-- No directive goes on with the next line. -/
def Apart (all : List (List Char × Bool)) : Prop := all.IsChain fun line _ => line.2 = true → continues line.1 = false

theorem Apart.joinContinued {inside : Bool} {line : List Char} {rest : List (List Char)}
    (h : Apart ((line, true) :: marked inside rest)) : joinContinued line rest = (line, rest) := by
  cases rest with
  | nil => rfl
  | cons next rest =>
    have hline : continues line = false := by
      rw [marked] at h
      split at h <;> exact (List.isChain_cons_cons.mp h).1 rfl
    rw [Directive.joinContinued, hline, if_neg Bool.false_ne_true]

theorem Apart.tail {line : List Char × Bool} {rest : List (List Char × Bool)} (h : Apart (line :: rest)) : Apart rest :=
  List.IsChain.tail h

/-- The tokens of lines tile them, if no directive goes on with the next line. -/
theorem tiled_lineTokens {inside : Bool} {offset : Nat} {run all : List (List Char)} (h : Apart (marked inside all)) :
    Tiled ((lineTokens inside offset run all).flatMap tokenStretches) (run.reverse.map (·, false) ++ marked inside all) := by
  fun_induction lineTokens inside offset run all with
  | case1 inside offset run => simpa [marked] using tiled_textTokens offset run .nil
  | case2 inside offset run line rest hdirective joined ih =>
    rw [marked, if_pos hdirective] at h ⊢
    have hjoined : joined = (line, rest) := h.joinContinued
    rw [hjoined] at ih ⊢
    rw [List.flatMap_append, List.flatMap_append, stretches_directiveTokens, List.append_assoc]
    exact tiled_textTokens offset run (.directive (by simpa using ih h.tail))
  | case3 inside offset run line rest hdirective ih =>
    rw [marked, if_neg hdirective] at h ⊢
    simpa using ih h.tail

/-! ## Line breaks in directives -/

theorem withoutLineBreak_flat {line : List Char} (h : IsWhole line ∨ '\n' ∉ line) : '\n' ∉ withoutLineBreak line := by
  have hback : '\n' ∉ line.reverse.tail ∧ (line.reverse.head? ≠ some '\n' → '\n' ∉ line) := by
    rcases h with ⟨body, rfl, hflat⟩ | hflat
    · simpa using hflat
    · exact ⟨fun h => hflat (by simpa using List.mem_of_mem_tail h), fun _ => hflat⟩
  obtain ⟨htail, hhead⟩ := hback
  unfold withoutLineBreak
  split
  · rename_i rest heq
    rw [heq] at htail
    simp_all
  · rename_i rest _ heq
    rw [heq] at htail
    simpa using htail
  · rename_i rest heq
    rw [heq] at htail
    simpa using htail
  · rename_i hnewline _
    refine hhead fun heq => ?_
    obtain ⟨rest, hrest⟩ := List.head?_eq_some_iff.mp heq
    exact hnewline rest hrest

theorem text_of_mem_piecesTokens {offset : Nat} {cs : List Char} {token : Token} (h : token ∈ piecesTokens offset cs) :
    token.text.toList ⊆ cs := by
  obtain ⟨l, hl, htext, -⟩ := exists_kind_of_mem_classify h
  obtain ⟨p, hp, hlexeme⟩ := List.mem_filterMap.mp hl
  obtain ⟨kind, -, rfl⟩ := Option.map_eq_some_iff.mp hlexeme
  rw [htext, String.toList_ofList, ← flatMap_chars_scan cut offset cs]
  exact fun c hc => List.mem_flatMap.mpr ⟨p, hp, hc⟩

/-- Of a directive and the text before it, only the tokens inside of the directive have to be looked at. -/
theorem flat_of_mem_directive {stop offset : Nat} {run : List (List Char)} {directive : List Char} {token : Token}
    (htoken : token ∈ textTokens stop run ++ directiveTokens offset directive)
    (hinner : token ∈ piecesTokens offset (withoutLineBreak directive) → Flat token) : Flat token := by
  rcases List.mem_append.mp htoken with htoken | htoken
  · exact fun _ htext => absurd (exists_kind_of_mem_textTokens htoken) htext
  · simp only [directiveTokens, List.mem_append, List.mem_singleton] at htoken
    rcases htoken with htoken | rfl
    · exact hinner htoken
    · exact fun hnewline => absurd rfl hnewline

/-- The tokens inside of directives hold no line breaks, if no directive goes on with the next line. -/
theorem flat_lineTokens {inside : Bool} {offset : Nat} {run all : List (List Char)}
    (hapart : Apart (marked inside all))
    (hlines : ∀ line ∈ all, IsWhole line ∨ '\n' ∉ line) {token : Token} (htoken : token ∈ lineTokens inside offset run all) :
    Flat token := by
  fun_induction lineTokens inside offset run all with
  | case1 inside offset run => exact fun _ htext => absurd (exists_kind_of_mem_textTokens htoken) htext
  | case2 inside offset run line rest hdirective joined ih =>
    rw [marked, if_pos hdirective] at hapart
    obtain ⟨hline, hrest⟩ := List.forall_mem_cons.mp hlines
    have hjoined : joined = (line, rest) := hapart.joinContinued
    rw [hjoined] at ih htoken
    rcases List.mem_append.mp htoken with htoken | htoken
    · exact flat_of_mem_directive htoken fun hinner _ _ hmem =>
        withoutLineBreak_flat hline (text_of_mem_piecesTokens hinner hmem)
    · exact ih hapart.tail hrest htoken
  | case3 inside offset run line rest hdirective ih =>
    rw [marked, if_neg hdirective] at hapart
    exact ih hapart.tail (List.forall_mem_cons.mp hlines).2 htoken

/-! ## Particles -/

/-- The lines of a source, each with whether it is a directive. -/
def sourceLines (source : String) : List (List Char × Bool) := marked false (Text.lines source.toList)

/-- **The particles of a source are its lines in order.** -/
theorem parse_tiled {source : String} {particles : List Particle} (h : parse source = .ok particles)
    (hapart : Apart (sourceLines source)) : Tiled (stretchesAll particles) (sourceLines source) ∧
      ∀ body ∈ bodiesAll particles, '\n' ∉ body.toList := by
  have hlines : ∀ line ∈ Text.lines source.toList, IsWhole line ∨ '\n' ∉ line := fun line hline =>
    (Text.areLines_lines source.toList).of_mem hline
  obtain ⟨hstretches, hbodies⟩ := parse_laid h fun token htoken => flat_lineTokens hapart hlines htoken
  refine ⟨?_, hbodies⟩
  rw [← hstretches]
  exact tiled_lineTokens hapart

end Directive

end ShaderFront
