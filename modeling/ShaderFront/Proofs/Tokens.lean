import Mathlib
import ShaderFront.Directive.Token
import ShaderFront.Shader.Token
import ShaderFront.Tag.Token

/-!
# The kinds of the tokens of a text

Every token of a lexer has the number of one of its kinds. What the lexer of directives does at a place is said once
(`Directive.Cutting`): it gives only kinds that can be written inside of a directive (`Directive.isWritten_of_cut`). All other tokens of
a source are runs of text and the ends of directives (`Directive.exists_kind_of_mem_lineTokens`).
-/

namespace ShaderFront

/-! ## Pieces -/

/-- A piece is what the rule cuts off at its place. -/
theorem mem_scan {κ : Type} {rule : Char → List Char → Cut κ} {pos : Nat} {cs : List Char} {p : Piece κ}
    (h : p ∈ scan rule pos cs) : ∃ c rest, p.kind = (rule c rest).kind ∧ p.chars = c :: rest.take (rule c rest).more := by
  fun_induction scan rule pos cs with
  | case1 => cases h
  | case2 pos c rest cut chars stop ih =>
    rcases List.mem_cons.mp h with rfl | h
    · exact ⟨c, rest, rfl, rfl⟩
    · exact ih h

theorem mem_lexemes {κ : Type} {rule : Char → List Char → Cut κ} {pos : Nat} {cs : List Char} {l : Lexeme κ}
    (h : l ∈ (scan rule pos cs).filterMap Piece.lexeme?) :
    ∃ c rest, (rule c rest).kind = some l.kind ∧ l.text = String.ofList (c :: rest.take (rule c rest).more) := by
  obtain ⟨p, hp, hl⟩ := List.mem_filterMap.mp h
  obtain ⟨c, rest, hkind, hchars⟩ := mem_scan hp
  obtain ⟨kind, hp, rfl⟩ := Option.map_eq_some_iff.mp hl
  exact ⟨c, rest, hkind.symm.trans hp, by rw [hchars]⟩

/-- The longest literal is one of the literals, and the text begins with it. -/
theorem longestLiteral_eq_some {κ : Type} {literals : List (List Char × κ)} {cs : List Char} {kind : κ} {length : Nat}
    (h : longestLiteral literals cs = some (kind, length)) :
    ∃ literal, (literal, kind) ∈ literals ∧ literal.isPrefixOf cs = true ∧ length = literal.length := by
  revert kind length
  unfold longestLiteral
  -- the best literal so far is one of the literals
  refine List.foldlRecOn (motive := fun best => ∀ {kind : κ} {length : Nat}, best = some (kind, length) →
    ∃ literal, (literal, kind) ∈ literals ∧ literal.isPrefixOf cs = true ∧ length = literal.length) literals _ (fun h => by cases h) ?_
  intro best hbest entry hentry kind length heq
  dsimp only at heq
  split at heq
  · rename_i hcond
    cases heq
    exact ⟨entry.1, hentry, ((Bool.and_eq_true _ _).mp hcond).1, rfl⟩
  · exact hbest heq

/-! ## Kinds -/

/-- A token without its place: its kind and its text. -/
def Token.written (token : Token) : SymbolId × String := (token.symbol, token.text)

theorem Shader.exists_kind_of_mem_classify {token : Token} : ∀ {pieces : List (Piece TokenKind)} {sameLine : Bool},
    token ∈ classify sameLine pieces → ∃ kind : TokenKind, token.symbol = kind.id
  | [], _, h => by cases h
  | piece :: pieces, sameLine, h => by
    rw [classify] at h
    split at h
    · exact exists_kind_of_mem_classify h
    · rcases List.mem_cons.mp h with rfl | h
      · exact ⟨_, rfl⟩
      · exact exists_kind_of_mem_classify h

theorem Tag.exists_kind_of_mem_tokens {text : String} {offset : Nat} {token : Token} (h : token ∈ tokens text offset) :
    ∃ kind : TokenKind, token.symbol = kind.id := by
  obtain ⟨l, -, rfl⟩ := List.mem_map.mp h
  exact ⟨_, rfl⟩

namespace Directive

/-- Whether a token of a kind can be written inside of a directive. -/
def TokenKind.isWritten : TokenKind → Bool
  | .newline | .text | .macroParen | .expressionStart | .any => false
  | _ => true

variable {c : Char} {rest : List Char} {kind : TokenKind}

/-- The kinds of what is cut off at a `#`. -/
def hashKinds : List TokenKind := .hash :: .if_ :: directiveWords.map Prod.snd

theorem exists_mem_hashKinds (rest : List Char) : ∃ kind ∈ hashKinds, (cutHash rest).kind = some kind := by
  unfold cutHash
  dsimp only
  split
  · rename_i hfound
    obtain ⟨literal, hmem, -⟩ := longestLiteral_eq_some hfound
    exact ⟨_, List.mem_cons_of_mem _ (List.mem_cons_of_mem _ (List.mem_map_of_mem hmem)), rfl⟩
  · split <;> exact ⟨_, by decide, rfl⟩

theorem mem_hashKinds (h : (cutHash rest).kind = some kind) : kind ∈ hashKinds := by
  obtain ⟨found, hmem, hfound⟩ := exists_mem_hashKinds rest
  rwa [← Option.some.inj (hfound.symm.trans h)]

theorem kind_cutString (rest : List Char) : (cutString rest).kind = some .string ∨ (cutString rest).kind = some .other := by
  unfold cutString
  dsimp only
  split
  · exact .inl rfl
  · exact .inr rfl

theorem string_or_other (h : (cutString rest).kind = some kind) : kind = .string ∨ kind = .other :=
  (kind_cutString rest).imp (fun hfound => Option.some.inj (h.symm.trans hfound)) fun hfound => Option.some.inj (h.symm.trans hfound)

theorem mem_marks_of_longestLiteral {cs : List Char} {length : Nat} (h : longestLiteral marks cs = some (kind, length)) :
    kind ∈ marks.map Prod.snd := by
  obtain ⟨literal, hmem, -⟩ := longestLiteral_eq_some h
  exact List.mem_map_of_mem hmem

/-- The ways to cut off a piece of a directive. -/
inductive Cutting (c : Char) (rest : List Char) : Cut TokenKind → Prop
  | gap : isGap c = true → Cutting c rest ⟨none, runLength isGap rest⟩
  | continued : c = '\\' → continuationLength rest ≠ 0 → Cutting c rest ⟨none, continuationLength rest⟩
  | hash : c = '#' → Cutting c rest (cutHash rest)
  | string : c = '"' → Cutting c rest (cutString rest)
  | comment {length : Nat} : isGap c = false → commentLength? (c :: rest) = some length → Cutting c rest ⟨none, length - 1⟩
  | numeral {n : Numeral} : Numeral.read? .shader (c :: rest) = some n →
      Cutting c rest ⟨some (if n.isFloat then .floatConstant else .intConstant), n.length - 1⟩
  | word : isWordStart c = true → Cutting c rest
      ⟨some (if c :: rest.take (runLength isWordChar rest) = "defined".toList then .defined else .identifier), runLength isWordChar rest⟩
  | mark {kind : TokenKind} {length : Nat} : commentLength? (c :: rest) = none → longestLiteral marks (c :: rest) = some (kind, length) →
      Cutting c rest ⟨some kind, length - 1⟩
  | other : Cutting c rest ⟨some .other, 0⟩

/-- **Every piece of a directive is cut off in one of these ways.** -/
theorem cutting {next : Cut TokenKind} (h : cut c rest = next) : Cutting c rest next := by
  subst h
  unfold cut
  split
  · exact .gap ‹_›
  rename_i hgap
  split
  · rename_i hback
    obtain ⟨hc, hlength⟩ := (Bool.and_eq_true _ _).mp hback
    exact .continued (of_decide_eq_true hc) (of_decide_eq_true hlength)
  split
  · exact .hash ‹_›
  split
  · exact .string ‹_›
  split
  · exact .comment (Bool.eq_false_iff.mpr hgap) ‹_›
  rename_i hcomment
  split
  · exact .numeral ‹_›
  unfold cutPlain
  split
  · exact .word ‹_›
  split
  · exact .mark hcomment ‹_›
  · exact .other

/-- The lexer of directives gives kinds that can be written. -/
theorem isWritten_of_cut (h : (cut c rest).kind = some kind) : kind.isWritten = true := by
  have hhash : ∀ kind ∈ hashKinds, kind.isWritten = true := by decide
  have hmarks : ∀ kind ∈ marks.map Prod.snd, kind.isWritten = true := by decide
  generalize hnext : cut c rest = next at h
  cases cutting hnext with
  | gap | continued | comment => cases h
  | hash => exact hhash _ (mem_hashKinds h)
  | string => rcases string_or_other h with rfl | rfl <;> rfl
  | numeral | word =>
    cases h
    split <;> rfl
  | mark _ hlongest =>
    cases h
    exact hmarks _ (mem_marks_of_longestLiteral hlongest)
  | other =>
    cases h
    rfl

/-- A token of a directive has a kind that can be written, or is the parenthesis of a macro's parameters. -/
theorem exists_kind_of_mem_classify {token : Token} : ∀ {lexemes : List (Lexeme TokenKind)} {context : Context},
    token ∈ classify context lexemes → ∃ l ∈ lexemes, token.text = l.text ∧
      ∃ kind : TokenKind, (kind = .macroParen ∧ l.kind = .parenLeft ∨ kind = l.kind) ∧ token.symbol = kind.id
  | [], _, h => by cases h
  | l :: lexemes, context, h => by
    rw [classify] at h
    rcases List.mem_cons.mp h with rfl | h
    · refine ⟨l, List.mem_cons_self, rfl, _, ?_, rfl⟩
      split
      · rename_i hopens
        simp only [Bool.and_eq_true, decide_eq_true_eq] at hopens
        exact .inl ⟨rfl, hopens.1.1.1⟩
      · exact .inr rfl
    · obtain ⟨l', hl', hkind⟩ := exists_kind_of_mem_classify h
      exact ⟨l', List.mem_cons_of_mem l hl', hkind⟩

/-- Whether a token of a kind stands inside of a directive. -/
def TokenKind.isInner (kind : TokenKind) : Bool := kind = .macroParen || kind.isWritten

theorem exists_kind_of_mem_piecesTokens {offset : Nat} {cs : List Char} {token : Token} (h : token ∈ piecesTokens offset cs) :
    ∃ kind : TokenKind, kind.isInner = true ∧ token.symbol = kind.id := by
  obtain ⟨l, hl, -, kind, hkind, hsymbol⟩ := exists_kind_of_mem_classify h
  obtain ⟨c, rest, hcut, -⟩ := mem_lexemes hl
  refine ⟨kind, ?_, hsymbol⟩
  rcases hkind with ⟨rfl, -⟩ | rfl
  · rfl
  · rw [TokenKind.isInner, isWritten_of_cut hcut, Bool.or_true]

theorem exists_kind_of_mem_textTokens {stop : Nat} {run : List (List Char)} {token : Token} (h : token ∈ textTokens stop run) :
    token.symbol = TokenKind.text.id := by
  unfold textTokens at h
  dsimp only at h
  split at h
  · cases h
  · rw [List.mem_singleton.mp h]

theorem exists_kind_of_mem_lineTokens {token : Token} {inside : Bool} {offset : Nat} {run lines : List (List Char)}
    (h : token ∈ lineTokens inside offset run lines) : ∃ kind : TokenKind,
      (kind = .newline ∨ kind = .text ∨ kind.isInner = true) ∧ token.symbol = kind.id := by
  fun_induction lineTokens inside offset run lines with
  | case1 => exact ⟨.text, .inr (.inl rfl), exists_kind_of_mem_textTokens h⟩
  | case2 inside offset run line rest hdirective joined ih =>
    rcases List.mem_append.mp h with h | h
    · rcases List.mem_append.mp h with h | h
      · exact ⟨.text, .inr (.inl rfl), exists_kind_of_mem_textTokens h⟩
      · unfold directiveTokens at h
        dsimp only at h
        rcases List.mem_append.mp h with h | h
        · obtain ⟨kind, hkind, hsymbol⟩ := exists_kind_of_mem_piecesTokens h
          exact ⟨kind, .inr (.inr hkind), hsymbol⟩
        · rw [List.mem_singleton.mp h]
          exact ⟨.newline, .inl rfl, rfl⟩
    · exact ih h
  | case3 _ _ _ _ _ _ ih => exact ih h

end Directive

end ShaderFront
