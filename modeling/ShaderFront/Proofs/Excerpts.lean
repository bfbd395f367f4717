import Mathlib
import ShaderFront.Proofs.Lines
import ShaderFront.Proofs.Occurrence
import ShaderFront.Proofs.Wording

/-!
# Tokens as excerpts of a text

The tokens of a source stand in it one after the other, with gaps between them (`Excerpts`); only a newline token may have another
text than the source. Tokens in a row that touch each other quote the source, so joined together they lack every word that the
source lacks (`Excerpts.lacks_joinTokens`), and so do the names, texts and bodies of its syntax tree (`parse_lacks`).
-/

namespace ShaderFront.Directive

open Macro (Lacks BeginsPlain)

/-- Tokens stand one after the other in a text that begins at a byte offset. -/
inductive Excerpts : Nat → List Char → List Token → Prop
  | done {pos : Nat} {cs : List Char} : Excerpts pos cs []
  | skip {pos : Nat} {piece cs : List Char} {tokens : List Token} : piece ≠ [] →
      Excerpts (pos + byteLength piece) cs tokens → Excerpts pos (piece ++ cs) tokens
  | token {pos : Nat} {piece cs : List Char} {token : Token} {tokens : List Token} :
      token.span = ⟨pos, pos + byteLength piece⟩ → token.text.toList = piece →
      Excerpts (pos + byteLength piece) cs tokens → Excerpts pos (piece ++ cs) (token :: tokens)
  | newline {pos : Nat} {piece cs : List Char} {token : Token} {tokens : List Token} :
      token.span = ⟨pos, pos + byteLength piece⟩ → token.text = "\n" →
      Excerpts (pos + byteLength piece) cs tokens → Excerpts pos (piece ++ cs) (token :: tokens)

/-! ## The tokens of a source -/

theorem excerpts_classify (pos : Nat) (cs : List Char) {back : List Char} {more : List Token}
    (h : Excerpts (pos + byteLength cs) back more) : ∀ context,
    Excerpts pos (cs ++ back) (classify context ((scan cut pos cs).filterMap Piece.lexeme?) ++ more) := by
  fun_induction scan cut pos cs with
  | case1 pos => exact fun _ => h
  | case2 pos c rest next chars stop ih =>
    intro context
    have hchars : c :: rest = chars ++ rest.drop next.more := by simp [chars]
    have hback : Excerpts (stop + byteLength (rest.drop next.more)) back more := by
      rw [hchars, byteLength_append, ← Nat.add_assoc] at h
      exact h
    rw [hchars, List.append_assoc]
    cases hkind : next.kind with
    | none => exact .skip (by simp [chars]) (ih hback context)
    | some kind => exact .token rfl (by simp) (ih hback _)

theorem withoutLineBreak_isPrefix (directive : List Char) : withoutLineBreak directive <+: directive := by
  have hreverse : ∀ front {back : List Char}, directive.reverse = front ++ back → back.reverse <+: directive := by
    intro front back h
    rw [← List.reverse_reverse directive, h, List.reverse_append]
    exact List.prefix_append _ _
  unfold withoutLineBreak
  split
  · rename_i rest h
    exact hreverse ['\n', '\r'] h
  · rename_i rest _ h
    exact hreverse ['\n'] h
  · rename_i rest h
    exact hreverse ['\r'] h
  · exact List.prefix_rfl

theorem excerpts_directiveTokens (pos : Nat) (directive : List Char) {back : List Char} {more : List Token}
    (h : Excerpts (pos + byteLength directive) back more) :
    Excerpts pos (directive ++ back) (directiveTokens pos directive ++ more) := by
  obtain ⟨lineBreak, hdirective⟩ := withoutLineBreak_isPrefix directive
  have hstop : pos + byteLength directive = pos + byteLength (withoutLineBreak directive) + byteLength lineBreak := by
    rw [Nat.add_assoc, ← byteLength_append, hdirective]
  have hnewline : Excerpts (pos + byteLength (withoutLineBreak directive)) (lineBreak ++ back)
      (⟨TokenKind.newline.id, "\n", ⟨pos + byteLength (withoutLineBreak directive), pos + byteLength directive⟩⟩ :: more) :=
    .newline (by rw [hstop]) rfl (hstop ▸ h)
  have hall := excerpts_classify pos (withoutLineBreak directive) hnewline {}
  rw [← List.append_assoc, hdirective] at hall
  rw [directiveTokens, List.append_assoc]
  exact hall

theorem excerpts_textTokens {pos stop : Nat} {run : List (List Char)} (hstop : pos + byteLength run.reverse.flatten = stop)
    {back : List Char} {more : List Token} (h : Excerpts stop back more) :
    Excerpts pos (run.reverse.flatten ++ back) (textTokens stop run ++ more) := by
  cases run with
  | nil => simpa [textTokens, ← hstop] using h
  | cons line run =>
    simp only [textTokens, List.isEmpty_cons, Bool.false_eq_true, if_false, List.singleton_append]
    refine .token ?_ (by simp) (hstop ▸ h)
    rw [hstop, ← hstop, Nat.add_sub_cancel]

theorem flatten_joinContinued (directive : List Char) (all : List (List Char)) :
    (joinContinued directive all).1 ++ (joinContinued directive all).2.flatten = directive ++ all.flatten := by
  induction all generalizing directive with
  | nil => simp [joinContinued]
  | cons line rest ih =>
    rw [joinContinued]
    split
    · rw [ih, List.flatten_cons, List.append_assoc]
    · simp

theorem excerpts_lineTokens (inside : Bool) (offset : Nat) (run all : List (List Char)) : ∀ pos,
    pos + byteLength run.reverse.flatten = offset →
    Excerpts pos (run.reverse.flatten ++ all.flatten) (lineTokens inside offset run all) := by
  fun_induction lineTokens inside offset run all with
  | case1 inside offset run =>
    intro pos hoffset
    have htext : Excerpts pos (run.reverse.flatten ++ []) (textTokens offset run ++ []) := excerpts_textTokens hoffset .done
    rwa [List.append_nil (textTokens offset run)] at htext
  | case2 inside offset run line rest hdirective joined ih =>
    intro pos hoffset
    rw [List.flatten_cons, ← flatten_joinContinued line rest, List.append_assoc]
    exact excerpts_textTokens hoffset (excerpts_directiveTokens offset joined.1 (ih _ rfl))
  | case3 inside offset run line rest hdirective ih =>
    intro pos hoffset
    have hline : (line :: run).reverse.flatten = run.reverse.flatten ++ line := by simp
    have hrest := ih pos (by rw [hline, byteLength_append, ← Nat.add_assoc, hoffset])
    rwa [hline, List.append_assoc] at hrest

/-- **The tokens of a source stand in it one after the other.** -/
theorem excerpts_tokens (source : String) : Excerpts 0 source.toList (tokens source) := by
  have h : Excerpts 0 ((Text.lines source.toList).flatten) (tokens source) := excerpts_lineTokens false 0 [] _ 0 rfl
  rwa [Text.flatten_lines] at h

theorem excerpts_expressionTokens (text : String) : Excerpts 0 text.toList (expressionTokens text) := by
  have h : Excerpts 0 (text.toList ++ []) (piecesTokens 0 text.toList ++ []) := excerpts_classify 0 text.toList .done {}
  rw [List.append_nil, List.append_nil] at h
  have hpiece : ([] : List Char) ++ text.toList = text.toList := rfl
  rw [← hpiece]
  exact .token rfl rfl h

/-! ## Joined tokens -/

theorem Excerpts.le_start {pos : Nat} {cs : List Char} {token : Token} {tokens : List Token}
    (h : Excerpts pos cs (token :: tokens)) : pos ≤ token.span.start := by
  generalize hall : token :: tokens = all at h
  induction h with
  | done => cases hall
  | skip _ _ ih => exact Nat.le_trans (Nat.le_add_right _ _) (ih hall)
  | token hspan _ _ _ =>
    cases hall
    rw [hspan]
  | newline hspan _ _ _ =>
    cases hall
    rw [hspan]

theorem byteLength_pos {cs : List Char} (h : cs ≠ []) : 0 < byteLength cs := by
  obtain ⟨c, rest, rfl⟩ := List.exists_cons_of_ne_nil h
  exact Nat.add_pos_left c.utf8Size_pos _

theorem joinTokens_suffix (last : Nat) (row : List Token) : (joinTokens row).toList <:+ (joinTokensFrom last row).toList := by
  cases row with
  | nil => exact List.suffix_rfl
  | cons token row =>
    rw [joinTokensFrom, String.append_assoc, ← joinTokens, String.toList_append]
    exact List.suffix_append _ _

section Lacks

variable {word : List Char} (hne : word ≠ []) (hchars : ∀ c ∈ word, isWordChar c = true)

include hne hchars

/-- Tokens that are joined quote the text up to the first gap. -/
theorem Excerpts.quotes {pos : Nat} {cs : List Char} {tokens : List Token} (h : Excerpts pos cs tokens)
    (hcs : Lacks word cs) : ∀ row, row <+: tokens → ∃ quoted rest, (joinTokensFrom pos row).toList = quoted ++ rest ∧
      quoted <+: cs ∧ BeginsPlain rest ∧ Lacks word rest := by
  have hempty : ∀ pos cs, ∃ quoted rest, (joinTokensFrom pos []).toList = quoted ++ rest ∧ quoted <+: cs ∧ BeginsPlain rest ∧
      Lacks word rest := fun _ cs => ⟨[], [], rfl, List.nil_prefix, by simp [BeginsPlain], Macro.lacks_nil hne⟩
  induction h with
  | @done pos cs =>
    intro row hrow
    obtain rfl := List.prefix_nil.mp hrow
    exact hempty pos cs
  | @skip pos piece cs tokens hpiece htokens ih =>
    intro row hrow
    cases row with
    | nil => exact hempty pos _
    | cons token row =>
      -- the gap is one blank, and what comes after it was joined without it
      have hcs' : Lacks word cs := hcs.of_isInfix (List.suffix_append piece cs).isInfix
      obtain ⟨quoted, rest, hjoined, hquoted, hplain, hrest⟩ := ih hcs' _ hrow
      have hlacks : Lacks word (joinTokens (token :: row)).toList := by
        refine Lacks.of_isInfix ?_ (joinTokens_suffix (pos + byteLength piece) _).isInfix
        rw [hjoined]
        exact (hcs'.of_isInfix hquoted.isInfix).append hne hchars hrest (.inr hplain)
      have hgap : pos < token.span.start := by
        obtain ⟨after, rfl⟩ := hrow
        have := htokens.le_start
        have := byteLength_pos hpiece
        omega
      refine ⟨[], ' ' :: (joinTokens (token :: row)).toList, ?_, List.nil_prefix, by simp [BeginsPlain]; decide, ?_⟩
      · rw [Directive.joinTokensFrom, if_pos hgap, joinTokens, String.append_assoc, String.toList_append]
        rfl
      · exact hlacks.cons hne hchars (by decide)
  | @token pos piece cs token tokens hspan htext htokens ih =>
    intro row hrow
    cases row with
    | nil => exact hempty pos _
    | cons first row =>
      obtain ⟨rfl, htail⟩ := List.cons_prefix_cons.mp hrow
      obtain ⟨quoted, rest, hjoined, hquoted, hplain, hrest⟩ :=
        ih (hcs.of_isInfix (List.suffix_append piece cs).isInfix) row htail
      refine ⟨piece ++ quoted, rest, ?_, (List.prefix_append_right_inj piece).mpr hquoted, hplain, hrest⟩
      rw [Directive.joinTokensFrom, hspan, if_neg (Nat.lt_irrefl pos), String.toList_append, hjoined, String.toList_append, htext]
      simp
  | @newline pos piece cs token tokens hspan htext htokens ih =>
    intro row hrow
    cases row with
    | nil => exact hempty pos _
    | cons first row =>
      obtain ⟨rfl, htail⟩ := List.cons_prefix_cons.mp hrow
      have hcs' : Lacks word cs := hcs.of_isInfix (List.suffix_append piece cs).isInfix
      obtain ⟨quoted, rest, hjoined, hquoted, hplain, hrest⟩ := ih hcs' row htail
      refine ⟨[], '\n' :: (quoted ++ rest), ?_, List.nil_prefix, by simp [BeginsPlain]; decide, ?_⟩
      · rw [Directive.joinTokensFrom, hspan, if_neg (Nat.lt_irrefl pos), String.toList_append, hjoined, String.toList_append, htext]
        rfl
      · exact ((hcs'.of_isInfix hquoted.isInfix).append hne hchars hrest (.inr hplain)).cons hne hchars (by decide)

/-- Tokens in a row, joined together, lack every word that the text lacks. -/
theorem Excerpts.lacks_joinTokens {pos : Nat} {cs : List Char} {tokens : List Token} (h : Excerpts pos cs tokens)
    (hcs : Lacks word cs) {row : List Token} (hrow : row <:+: tokens) : Lacks word (joinTokens row).toList := by
  have hfront : ∀ {pos cs tokens}, Excerpts pos cs tokens → Lacks word cs → row <+: tokens →
      Lacks word (joinTokens row).toList := by
    intro pos cs tokens h hcs hrow
    obtain ⟨quoted, rest, hjoined, hquoted, hplain, hrest⟩ := h.quotes hne hchars hcs row hrow
    refine Lacks.of_isInfix ?_ (joinTokens_suffix pos row).isInfix
    rw [hjoined]
    exact (hcs.of_isInfix hquoted.isInfix).append hne hchars hrest (.inr hplain)
  induction h with
  | @done pos cs =>
    have hdone : Excerpts pos cs [] := .done
    exact hfront hdone hcs (List.infix_nil.mp hrow ▸ List.nil_prefix)
  | skip _ _ ih => exact ih (hcs.of_isInfix (List.suffix_append _ _).isInfix) hrow
  | token hspan htext htokens ih =>
    rcases List.infix_cons_iff.mp hrow with hrow | hrow
    · exact hfront (.token hspan htext htokens) hcs hrow
    · exact ih (hcs.of_isInfix (List.suffix_append _ _).isInfix) hrow
  | newline hspan htext htokens ih =>
    rcases List.infix_cons_iff.mp hrow with hrow | hrow
    · exact hfront (.newline hspan htext htokens) hcs hrow
    · exact ih (hcs.of_isInfix (List.suffix_append _ _).isInfix) hrow

theorem Excerpts.lacks_worded {pos : Nat} {cs : List Char} {tokens : List Token} (h : Excerpts pos cs tokens)
    (hcs : Lacks word cs) {text : String} (htext : Worded tokens text) : Lacks word text.toList := by
  rcases htext with rfl | ⟨row, hrow, rfl⟩
  · exact Macro.lacks_nil hne
  · exact h.lacks_joinTokens hne hchars hcs hrow

/-- **The words of a source lack what the source lacks.** -/
theorem parse_lacks {source : String} (hsource : Lacks word source.toList) {particles : List Particle}
    (h : parse source = .ok particles) : ∀ text ∈ wordsAll particles, Lacks word text.toList := fun text htext =>
  (excerpts_tokens source).lacks_worded hne hchars hsource (parse_worded h text htext)

/-- The names of an expression lack what its text lacks. -/
theorem parseExpression_lacks {text : String} (htext : Lacks word text.toList) {e : Expression} (h : parseExpression text = .ok e) :
    ∀ name ∈ e.names, Lacks word name.toList := fun name hname =>
  (excerpts_expressionTokens text).lacks_worded hne hchars htext (parseExpression_worded h name hname)

end Lacks

end ShaderFront.Directive
