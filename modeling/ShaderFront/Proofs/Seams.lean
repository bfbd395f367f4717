import Mathlib
import ShaderFront.Proofs.Alignment
import ShaderFront.Proofs.OpenComments
import ShaderFront.Proofs.Placement

/-!
# Seams between texts

The tokenizer goes over lines, and all it remembers is what the lines so far end with (`Directive.Ending`): a directive, with the
lines it goes on with, or other lines, after which a block comment may be open. Where a text ends its last line, leaves no comment
open and no directive going on, and a directive stands on one side of the seam, the tokens of the text and of what follows it are
those of both texts, the second ones moved (`Directive.tokens_append`).
-/

namespace ShaderFront.Directive

open Text (EndsLine)

/-! ## What lines end with -/

/-- What some lines end with. -/
inductive Ending where
  /-- No directive; whether a block comment is open. -/
  | text (inside : Bool)
  /-- A directive, with the lines it goes on with. -/
  | directive (chars : List Char)

namespace Ending

/-- Whether a block comment is open. -/
def inside : Ending → Bool
  | .text inside => inside
  | .directive _ => false

/-- No block comment is open, and no directive goes on with the next line. -/
def IsFree : Ending → Prop
  | .text inside => inside = false
  | .directive chars => continues chars = false

/-- What some lines end with, given what is before them. -/
def after (ending : Ending) : List (List Char) → Ending
  | [] => ending
  | line :: rest =>
    if !ending.inside && isDirective line then
      after (.directive (joinContinued line rest).1) (joinContinued line rest).2
    else after (.text (endsInComment ending.inside line)) rest
termination_by lines => lines.length
decreasing_by
  · exact Nat.lt_succ_of_le (length_joinContinued_le line rest)
  · simp

theorem IsFree.inside_eq {ending : Ending} (h : ending.IsFree) : ending.inside = false := by
  cases ending with
  | text inside => exact h
  | directive chars => rfl

end Ending

/-- What a source ends with. -/
def endingOf (source : String) : Ending := Ending.after (.text false) (Text.lines source.toList)

/-- The first line of a source is a directive. -/
def beginsWithDirective (source : String) : Bool := (Text.lines source.toList).head?.any isDirective

/-! ## Tokens at a seam -/

/-- A directive that does not go on behind some lines ends where it ends without what follows them. -/
theorem joinContinued_append (chars : List Char) (front back : List (List Char))
    (h : (joinContinued chars front).2 = [] → continues (joinContinued chars front).1 = false) :
    joinContinued chars (front ++ back) = ((joinContinued chars front).1, (joinContinued chars front).2 ++ back) := by
  induction front generalizing chars with
  | nil =>
    have hends : continues chars = false := h rfl
    cases back with
    | nil => rfl
    | cons line back => simp [joinContinued, hends]
  | cons line front ih =>
    rw [joinContinued] at h
    rw [List.cons_append, joinContinued, joinContinued]
    by_cases hgoes : continues chars = true
    · rw [if_pos hgoes] at h
      rw [if_pos hgoes, if_pos hgoes]
      exact ih _ h
    · rw [if_neg hgoes, if_neg hgoes]
      rfl

/-- A directive and the lines after it have the bytes of all lines. -/
theorem byteLength_joinContinued (line : List Char) (rest : List (List Char)) : byteLength (line :: rest).flatten =
    byteLength (joinContinued line rest).1 + byteLength (joinContinued line rest).2.flatten := by
  obtain ⟨more, hrest, hjoined, -⟩ := joinContinued_eq line rest
  rw [hjoined, List.flatten_cons]
  conv_lhs => rw [hrest]
  simp [Nat.add_assoc]

/-- A directive stands on one side of the seam between some lines, with their ending, and others. -/
def Meets (ending : Ending) (back : List (List Char)) : Prop :=
  (∃ chars, ending = .directive chars) ∨ ∀ line ∈ back.head?, isDirective line = true

/-- No directive and no text goes over a seam. -/
theorem lineTokens_append (ending : Ending) (offset : Nat) (run front back : List (List Char))
    (hrun : ∀ chars, ending = .directive chars → run = []) (hfree : (ending.after front).IsFree)
    (hmeets : Meets (ending.after front) back) :
    lineTokens ending.inside offset run (front ++ back) =
      lineTokens ending.inside offset run front ++ lineTokens false (offset + byteLength front.flatten) [] back := by
  fun_induction Ending.after ending front generalizing offset run with
  | case1 ending =>
    have hnil : lineTokens false offset run [] = textTokens offset run := by rw [lineTokens]
    rw [hfree.inside_eq, List.nil_append, List.flatten_nil, byteLength_nil, Nat.add_zero, hnil]
    rcases hmeets with ⟨chars, rfl⟩ | hback
    · rw [hrun chars rfl]
      rfl
    · cases back with
      | nil => simp [lineTokens, textTokens]
      | cons line back =>
        have hline : isDirective line = true := hback line rfl
        rw [lineTokens, lineTokens]
        simp [hline, textTokens]
  | case2 ending line rest hline ih =>
    have hjoined := joinContinued_append line rest back fun hnil => by
      rw [hnil, Ending.after] at hfree
      exact hfree
    have hrest := ih (offset + byteLength (joinContinued line rest).1) [] (fun _ _ => rfl) hfree hmeets
    rw [Ending.inside] at hrest
    rw [List.cons_append, lineTokens, lineTokens, if_pos hline, if_pos hline, hjoined, byteLength_joinContinued, ← Nat.add_assoc]
    simp only [hrest, List.append_assoc]
  | case3 ending line rest hline ih =>
    have hrest := ih (offset + byteLength line) (line :: run) nofun hfree hmeets
    rw [List.cons_append, lineTokens, lineTokens, if_neg hline, if_neg hline, List.flatten_cons, byteLength_append,
      ← Nat.add_assoc]
    exact hrest

/-! ## Tokens from another offset -/

theorem classify_shifted (offset : Nat) : ∀ (lexemes : List (Lexeme TokenKind)) (context context' : Context),
    context'.last = context.last → context'.beforeLast = context.beforeLast →
    (context.last ≠ none → context'.lastEnd = context.lastEnd + offset) →
    classify context' (lexemes.map fun l => { l with span := l.span.shifted offset }) =
      (classify context lexemes).map (·.shifted offset)
  | [], _, _, _, _, _ => rfl
  | l :: lexemes, context, context', hlast, hbefore, hend => by
    have htouches : context.last = some .identifier →
        ((l.span.shifted offset).start = context'.lastEnd ↔ l.span.start = context.lastEnd) := fun hname => by
      rw [hend (by simp [hname])]
      exact Nat.add_right_cancel_iff
    have hopens : (l.kind = .parenLeft && context'.last = some .identifier && context'.beforeLast = some .define &&
        (l.span.shifted offset).start = context'.lastEnd) =
        (l.kind = .parenLeft && context.last = some .identifier && context.beforeLast = some .define &&
          l.span.start = context.lastEnd) := by
      rw [hlast, hbefore]
      by_cases hname : context.last = some .identifier
      · simp only [htouches hname]
      · simp [hname]
    rw [List.map_cons, classify, classify]
    simp only [hopens, List.map_cons]
    rw [hlast]
    exact congrArg _ (classify_shifted offset lexemes ⟨_, context.last, l.span.stop⟩ _ rfl rfl fun _ => rfl)

theorem piecesTokens_shifted (offset pos : Nat) (cs : List Char) :
    piecesTokens (pos + offset) cs = (piecesTokens pos cs).map (·.shifted offset) := by
  rw [piecesTokens, piecesTokens, ← classify_shifted offset _ {} {} rfl rfl (by simp), scan_shifted, List.filterMap_map, List.map_filterMap]
  congr 2
  funext piece
  simp only [Function.comp_apply, Piece.lexeme?, Piece.shifted, Option.map_map]
  rfl

theorem directiveTokens_shifted (offset pos : Nat) (chars : List Char) :
    directiveTokens (pos + offset) chars = (directiveTokens pos chars).map (·.shifted offset) := by
  rw [directiveTokens, directiveTokens, piecesTokens_shifted, List.map_append]
  simp [Token.shifted, Span.shifted, Nat.add_right_comm]

theorem textTokens_shifted (offset : Nat) {stop : Nat} {run : List (List Char)} (hrun : byteLength run.reverse.flatten ≤ stop) :
    textTokens (stop + offset) run = (textTokens stop run).map (·.shifted offset) := by
  rw [textTokens, textTokens]
  split
  · rfl
  · simp only [List.map_cons, List.map_nil, Token.shifted, Span.shifted]
    rw [Nat.sub_add_comm hrun]

/-- The tokens of lines that begin elsewhere. -/
theorem lineTokens_shifted (offset : Nat) (inside : Bool) (pos : Nat) (run all : List (List Char))
    (hrun : byteLength run.reverse.flatten ≤ pos) :
    lineTokens inside (pos + offset) run all = (lineTokens inside pos run all).map (·.shifted offset) := by
  fun_induction lineTokens inside pos run all with
  | case1 inside pos run =>
    rw [lineTokens]
    exact textTokens_shifted offset hrun
  | case2 inside pos run line rest hline joined ih =>
    rw [lineTokens, if_pos hline]
    dsimp only
    rw [List.map_append, List.map_append, ← ih (by simp), textTokens_shifted offset hrun, directiveTokens_shifted,
      Nat.add_right_comm]
  | case3 inside pos run line rest hline ih =>
    rw [lineTokens, if_neg hline, ← ih (by simp; omega), Nat.add_right_comm]

/-! ## Sources -/

/-- **Tokens at a seam.** A text that ends its last line, with no block comment open and no directive going on, is tokenized on its
own, if it ends with a directive or what follows begins with one. -/
theorem tokens_append {front back : String} (hends : EndsLine front.toList) (hfree : (endingOf front).IsFree)
    (hmeets : Meets (endingOf front) (Text.lines back.toList)) :
    tokens (front ++ back) = tokens front ++ (tokens back).map (·.shifted (byteLength front.toList)) := by
  have hseam := lineTokens_append (.text false) 0 [] (Text.lines front.toList) (Text.lines back.toList) nofun hfree hmeets
  rw [Ending.inside] at hseam
  rw [tokens, tokens, tokens, String.toList_append, Text.lines_append hends, hseam, Text.flatten_lines,
    lineTokens_shifted _ _ _ _ _ (by simp)]

end ShaderFront.Directive
