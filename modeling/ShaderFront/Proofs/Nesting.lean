import Mathlib
import ShaderFront.Shader.Token

/-!
# Nested brackets

Lists of tokens whose brackets are matched. Nesting is checked with a stack (`isNested`); `Balanced` says the same by the shape of
a list, and also that no separator stands outside of brackets, where none may. Main statements: the two agree
(`isNested_iff`, `balanced_false_iff`).
-/

namespace ShaderFront.Shader

/-! ## Kinds -/

@[simp]
theorem TokenKind.ofId?_id (kind : TokenKind) : TokenKind.ofId? kind.id = some kind := by
  cases kind <;> decide

/-- The kind of a token. -/
def kindOf (token : Token) : TokenKind := (TokenKind.ofId? token.symbol).getD .invalid

/-- A token of some kind, as the lexer makes them. -/
def HasKind (token : Token) : Prop := ∃ kind : TokenKind, token.symbol = kind.id

theorem kindOf_eq {token : Token} {kind : TokenKind} (h : token.symbol = kind.id) : kindOf token = kind := by
  rw [kindOf, h, TokenKind.ofId?_id]
  rfl

theorem HasKind.symbol_eq {token : Token} (h : HasKind token) : token.symbol = (kindOf token).id := by
  obtain ⟨kind, hkind⟩ := h
  rw [kindOf_eq hkind, hkind]

/-! ## Nesting -/

/-- The bracket that closes a bracket. -/
def TokenKind.closing? : TokenKind → Option TokenKind
  | .parenLeft => some .parenRight
  | .braceLeft => some .braceRight
  | .bracketLeft => some .bracketRight
  | _ => none

/-- Whether a kind closes a bracket. -/
def TokenKind.isClosing : TokenKind → Bool
  | .parenRight | .braceRight | .bracketRight => true
  | _ => false

/-- Whether the brackets of some tokens are nested and matched, and no token is invalid. The stack has the brackets that are
still to be closed. -/
def isNested : List TokenKind → List Token → Bool
  | stack, [] => stack.isEmpty
  | stack, token :: rest =>
    match (kindOf token).closing? with
    | some close => isNested (close :: stack) rest
    | none =>
      if (kindOf token).isClosing then stack.head? = some (kindOf token) && isNested stack.tail rest
      else kindOf token ≠ .invalid && isNested stack rest

/-- The tokens outside of brackets, the brackets apart. -/
def outside : Nat → List Token → List Token
  | _, [] => []
  | depth, token :: rest =>
    if (kindOf token).closing?.isSome then outside (depth + 1) rest
    else if (kindOf token).isClosing then outside (depth - 1) rest
    else if depth = 0 then token :: outside depth rest
    else outside depth rest

/-- Whether a token is a `,` or a `;`. -/
def isItemSeparator (token : Token) : Bool := kindOf token = .comma || kindOf token = .semicolon

/-- Lists with matched brackets. Separators may stand inside of brackets, and elsewhere only if `inside` says so. -/
inductive Balanced : Bool → List Token → Prop
  | nil {inside : Bool} : Balanced inside []
  | token {inside : Bool} {token : Token} {rest : List Token} :
      (kindOf token).isWild = true ∨ inside = true ∧ isItemSeparator token = true → Balanced inside rest →
      Balanced inside (token :: rest)
  | group {inside : Bool} {opening closing : Token} {inner rest : List Token} :
      (kindOf opening).closing? = some (kindOf closing) → Balanced true inner → Balanced inside rest →
      Balanced inside (opening :: (inner ++ closing :: rest))

theorem Balanced.append {inside : Bool} {front back : List Token} (hfront : Balanced inside front)
    (hback : Balanced inside back) : Balanced inside (front ++ back) := by
  induction hfront with
  | nil => exact hback
  | token htoken _ ih => exact .token htoken (ih hback)
  | group hmatch hinner _ _ ih =>
    rw [List.cons_append, List.append_assoc]
    exact .group hmatch hinner (ih hback)

/-! A bracket is put on the stack or taken from it, and other tokens are passed over. -/

theorem isNested_opening {token : Token} {close : TokenKind} (h : (kindOf token).closing? = some close)
    (stack : List TokenKind) (rest : List Token) : isNested stack (token :: rest) = isNested (close :: stack) rest := by
  rw [isNested, h]

theorem closing?_of_isClosing {kind : TokenKind} (h : kind.isClosing = true) : kind.closing? = none := by
  cases kind <;> first | rfl | cases h

theorem isNested_closing {token : Token} (h : (kindOf token).isClosing = true) (stack : List TokenKind) (rest : List Token) :
    isNested stack (token :: rest) = (decide (stack.head? = some (kindOf token)) && isNested stack.tail rest) := by
  rw [isNested, closing?_of_isClosing h, if_pos h]

theorem isNested_plain {token : Token} (h : (kindOf token).isWild = true ∨ isItemSeparator token = true) (stack : List TokenKind)
    (rest : List Token) : isNested stack (token :: rest) = isNested stack rest := by
  rw [isNested]
  rw [isItemSeparator] at h
  generalize kindOf token = kind at h
  cases kind <;> simp_all [TokenKind.isWild, TokenKind.closing?, TokenKind.isClosing]

/-- Tokens are opening or closing brackets, or plain, or invalid. -/
theorem kind_cases (token : Token) : (∃ close, (kindOf token).closing? = some close) ∨ (kindOf token).isClosing = true ∨
    ((kindOf token).isWild = true ∨ isItemSeparator token = true) ∨ kindOf token = .invalid := by
  rw [isItemSeparator]
  generalize kindOf token = kind
  cases kind <;> simp [TokenKind.isWild, TokenKind.closing?, TokenKind.isClosing]

theorem isClosing_of_closing? {opening closing : TokenKind} (h : opening.closing? = some closing) :
    closing.isClosing = true := by
  cases opening <;> cases h <;> rfl

/-- A balanced list leaves the stack as it is. -/
theorem Balanced.isNested_append {inside : Bool} {tokens : List Token} (h : Balanced inside tokens) (stack : List TokenKind)
    (rest : List Token) : isNested stack (tokens ++ rest) = isNested stack rest := by
  induction h generalizing stack rest with
  | nil => rfl
  | token htoken _ ih => rw [List.cons_append, isNested_plain (htoken.imp id And.right), ih]
  | @group inside opening closing inner back hmatch _ _ ihinner ihback =>
    rw [List.cons_append, List.append_assoc, isNested_opening hmatch, ihinner, List.cons_append,
      isNested_closing (isClosing_of_closing? hmatch), List.tail_cons, ihback]
    simp

theorem isNested_invalid {token : Token} (h : kindOf token = .invalid) (stack : List TokenKind) (rest : List Token) :
    isNested stack (token :: rest) = false := by
  rw [isNested, h]
  rfl

/-- What is nested is balanced; above a stack, it is balanced up to the bracket that closes the top of the stack. -/
theorem balanced_of_isNested (tokens : List Token) : (isNested [] tokens = true → Balanced true tokens) ∧
    ∀ close stack, isNested (close :: stack) tokens = true → ∃ inner closing rest, tokens = inner ++ closing :: rest ∧
      Balanced true inner ∧ kindOf closing = close ∧ isNested stack rest = true := by
  match tokens with
  | [] => exact ⟨fun _ => .nil, fun _ _ h => by cases h⟩
  | token :: rest =>
    obtain ⟨ihempty, ihstack⟩ := balanced_of_isNested rest
    rcases kind_cases token with ⟨close, hopening⟩ | hclosing | hplain | hinvalid
    · simp only [isNested_opening hopening]
      refine ⟨fun h => ?_, fun outer stack h => ?_⟩
      · obtain ⟨inner, closing, back, rfl, hinner, rfl, hback⟩ := ihstack close [] h
        exact .group hopening hinner ((balanced_of_isNested back).1 hback)
      · obtain ⟨inner, closing, back, rfl, hinner, rfl, hback⟩ := ihstack close (outer :: stack) h
        obtain ⟨inner', closing', back', rfl, hinner', rfl, hback'⟩ := (balanced_of_isNested back).2 outer stack hback
        exact ⟨token :: (inner ++ closing :: inner'), closing', back', by simp, .group hopening hinner hinner', rfl, hback'⟩
    · refine ⟨fun h => ?_, fun outer stack h => ?_⟩ <;>
        rw [isNested_closing hclosing, Bool.and_eq_true, decide_eq_true_eq] at h
      · cases h.1
      · exact ⟨[], token, rest, rfl, .nil, (Option.some.inj h.1).symm, h.2⟩
    · simp only [isNested_plain hplain]
      have htoken : (kindOf token).isWild = true ∨ true = true ∧ isItemSeparator token = true := hplain.imp id fun h => ⟨rfl, h⟩
      refine ⟨fun h => .token htoken (ihempty h), fun outer stack h => ?_⟩
      obtain ⟨inner, closing, back, rfl, hinner, hclose, hback⟩ := ihstack outer stack h
      exact ⟨token :: inner, closing, back, rfl, .token htoken hinner, hclose, hback⟩
    · refine ⟨fun h => ?_, fun outer stack h => ?_⟩ <;> rw [isNested_invalid hinvalid] at h <;> cases h
termination_by tokens.length
decreasing_by all_goals (subst_vars; simp; try omega)

/-- **Nested lists are balanced ones.** -/
theorem isNested_iff {tokens : List Token} : isNested [] tokens = true ↔ Balanced true tokens := by
  refine ⟨(balanced_of_isNested tokens).1, fun h => ?_⟩
  have hnested := h.isNested_append [] []
  rwa [List.append_nil] at hnested

/-! ## Separators outside of brackets -/

theorem outside_opening {token : Token} {close : TokenKind} (h : (kindOf token).closing? = some close) (depth : Nat)
    (rest : List Token) : outside depth (token :: rest) = outside (depth + 1) rest := by
  rw [outside, h]
  rfl

theorem outside_closing {token : Token} (h : (kindOf token).isClosing = true) (depth : Nat) (rest : List Token) :
    outside depth (token :: rest) = outside (depth - 1) rest := by
  rw [outside, closing?_of_isClosing h, h]
  rfl

theorem outside_plain {token : Token} (h : (kindOf token).isWild = true ∨ isItemSeparator token = true) (depth : Nat)
    (rest : List Token) : outside depth (token :: rest) = if depth = 0 then token :: outside 0 rest else outside depth rest := by
  rw [outside]
  rw [isItemSeparator] at h
  generalize kindOf token = kind at h
  cases depth <;> cases kind <;> simp_all [TokenKind.isWild, TokenKind.closing?, TokenKind.isClosing]

/-- Inside of brackets nothing is outside. -/
theorem Balanced.outside_append {inside : Bool} {tokens : List Token} (h : Balanced inside tokens) (depth : Nat)
    (rest : List Token) : outside (depth + 1) (tokens ++ rest) = outside (depth + 1) rest := by
  induction h generalizing depth rest with
  | nil => rfl
  | token htoken _ ih =>
    rw [List.cons_append, outside_plain (htoken.imp id And.right), if_neg (Nat.succ_ne_zero depth), ih]
  | @group inside opening closing inner back hmatch _ _ ihinner ihback =>
    rw [List.cons_append, List.append_assoc, outside_opening hmatch, ihinner, List.cons_append,
      outside_closing (isClosing_of_closing? hmatch), Nat.add_sub_cancel, ihback]

theorem Balanced.outside_group {opening closing : Token} {inner : List Token}
    (hmatch : (kindOf opening).closing? = some (kindOf closing)) (hinner : Balanced true inner) (rest : List Token) :
    outside 0 (opening :: (inner ++ closing :: rest)) = outside 0 rest := by
  rw [outside_opening hmatch, hinner.outside_append, outside_closing (isClosing_of_closing? hmatch)]

/-- A list without separators outside of brackets is balanced where none are allowed. -/
theorem Balanced.of_outside {inside : Bool} {tokens : List Token} (h : Balanced inside tokens)
    (hout : ∀ token ∈ outside 0 tokens, isItemSeparator token = false) : Balanced false tokens := by
  induction h with
  | nil => exact .nil
  | token htoken _ ih =>
    rw [outside_plain (htoken.imp id And.right), if_pos rfl] at hout
    obtain ⟨hfirst, hrest⟩ := List.forall_mem_cons.mp hout
    refine .token (htoken.imp id fun hseparator => ?_) (ih hrest)
    rw [hfirst] at hseparator
    cases hseparator.2
  | group hmatch hinner _ _ ih =>
    rw [outside_group hmatch hinner] at hout
    exact .group hmatch hinner (ih hout)

theorem Balanced.inside {inside : Bool} {tokens : List Token} (h : Balanced inside tokens) : Balanced true tokens := by
  induction h with
  | nil => exact .nil
  | token htoken _ ih => exact .token (htoken.imp id fun hseparator => ⟨rfl, hseparator.2⟩) ih
  | group hmatch hinner _ _ ih => exact .group hmatch hinner ih

theorem isItemSeparator_of_isWild {token : Token} (h : (kindOf token).isWild = true) : isItemSeparator token = false := by
  rw [isItemSeparator]
  generalize kindOf token = kind at h
  cases kind <;> first | rfl | cases h

theorem Balanced.not_separator {inside : Bool} {tokens : List Token} (h : Balanced inside tokens) (hinside : inside = false) :
    ∀ token ∈ outside 0 tokens, isItemSeparator token = false := by
  induction h with
  | nil => exact List.forall_mem_nil _
  | token htoken _ ih =>
    rw [outside_plain (htoken.imp id And.right), if_pos rfl]
    refine List.forall_mem_cons.mpr ⟨isItemSeparator_of_isWild (htoken.resolve_right fun hseparator => ?_), ih hinside⟩
    cases hinside.symm.trans hseparator.1
  | group hmatch hinner _ _ ih =>
    rw [outside_group hmatch hinner]
    exact ih hinside

/-- Lists that are balanced without separators outside of brackets. -/
theorem balanced_false_iff {tokens : List Token} : Balanced false tokens ↔
    isNested [] tokens = true ∧ ∀ token ∈ outside 0 tokens, isItemSeparator token = false := by
  rw [isNested_iff]
  exact ⟨fun h => ⟨h.inside, h.not_separator rfl⟩, fun ⟨h, hout⟩ => h.of_outside hout⟩

end ShaderFront.Shader
