import Mathlib
import ShaderFront.Proofs.Precedence
import ShaderFront.Proofs.Wording

/-!
# What is read as an expression

A text that is read as an expression consists of words that say the expression (`parseExpression_phrased`). Where
`Expression.Spelled` has numbers as they are printed, here they stand in any form that is read as their value
(`Expression.Phrased`).
-/

namespace ShaderFront.Directive

namespace Expression

mutual

/-- The words that say an expression as an operand of a level. -/
inductive Phrased : Nat → Expression → List Written → Prop
  | int {level : Nat} {value : Int64} {text : String} : Integer.read? text = some value →
      Phrased level (.int value) [(.intConstant, text)]
  | object {level : Nat} {name : String} : Phrased level (.object name) [writtenName name]
  | defined {level : Nat} {name word left right : String} :
      Phrased level (.defined name) [(.defined, word), (.parenLeft, left), writtenName name, (.parenRight, right)]
  | definedBare {level : Nat} {name word : String} : Phrased level (.defined name) [(.defined, word), writtenName name]
  | callNone {level : Nat} {name left right : String} :
      Phrased level (.call name []) [writtenName name, (.parenLeft, left), (.parenRight, right)]
  | call {level : Nat} {name left right : String} {arguments : List Expression} {words : List Written} :
      PhrasedAll arguments words →
      Phrased level (.call name arguments) (writtenName name :: (.parenLeft, left) :: words ++ [(.parenRight, right)])
  | unary {level : Nat} {operator : UnaryOperator} {operand : Expression} {text : String} {words : List Written} :
      level ≤ unaryLevel → Phrased unaryLevel operand words →
      Phrased level (.unary operator operand) ((operator.kind, text) :: words)
  | binary {level : Nat} {operator : BinaryOperator} {left right : Expression} {text : String} {words others : List Written} :
      level ≤ operator.level → Phrased operator.level left words → Phrased (operator.level + 1) right others →
      Phrased level (.binary operator left right) (words ++ (operator.kind, text) :: others)
  | parentheses {level : Nat} {e : Expression} {left right : String} {words : List Written} : Phrased 0 e words →
      Phrased level e ((.parenLeft, left) :: words ++ [(.parenRight, right)])

/-- The words that say the arguments of a macro, at least one. -/
inductive PhrasedAll : List Expression → List Written → Prop
  | first {e : Expression} {words : List Written} : Phrased 0 e words → PhrasedAll [e] words
  | next {arguments : List Expression} {e : Expression} {text : String} {words others : List Written} :
      PhrasedAll arguments words → Phrased 0 e others → PhrasedAll (arguments ++ [e]) (words ++ (.comma, text) :: others)

end

/-- An operand of a level is an operand of the levels below. -/
theorem Phrased.weaken {level lower : Nat} {e : Expression} {words : List Written} (h : Phrased level e words)
    (hle : lower ≤ level) : Phrased lower e words := by
  cases h with
  | int hread => exact .int hread
  | object => exact .object
  | defined => exact .defined
  | definedBare => exact .definedBare
  | callNone => exact .callNone
  | call harguments => exact .call harguments
  | unary hlevel hoperand => exact .unary (hle.trans hlevel) hoperand
  | binary hlevel hleft hright => exact .binary (hle.trans hlevel) hleft hright
  | parentheses hinner => exact .parentheses hinner

end Expression

/-! ## Rules -/

open Expression (Phrased PhrasedAll)

/-- A token has the kind and the text of a word. -/
def Bears (word : Written) (token : Token) : Prop := token.symbol = word.1.id ∧ token.text = word.2

/-- The level of the operands a nonterminal stands for. -/
def operandLevel : Nonterminal → Option Nat
  | .constantExpression => some 0
  | .logicalOrExpression => some 1
  | .logicalAndExpression => some 2
  | .inclusiveOrExpression => some 3
  | .exclusiveOrExpression => some 4
  | .andExpression => some 5
  | .equalityExpression => some 6
  | .relationalExpression => some 7
  | .shiftExpression => some 8
  | .additiveExpression => some 9
  | .multiplicativeExpression => some 10
  | .unaryExpression => some 11
  | .primaryExpression | .macroEvaluation | .definedOperator => some 12
  | _ => none

/-- The words of its tokens say the expressions of a node. A single expression comes after the token it begins with. -/
structure Phrases (head : Nonterminal) (tokens : List Token) (node : Node) : Prop where
  operand : ∀ level, operandLevel head = some level →
    ∃ e words, node = .expression e ∧ List.Forall₂ Bears words tokens ∧ Phrased level e words
  arguments : head = .parameterList →
    ∃ es words, node = .arguments es ∧ List.Forall₂ Bears words tokens ∧ PhrasedAll es words
  program : head = .program → ∀ e, node = .expression e →
    ∃ first rest words, tokens = first :: rest ∧ List.Forall₂ Bears words rest ∧ Phrased 0 e words

/-- A rule keeps the words of expressions. -/
abbrev KeepsPhrases := alphabet.Builds (fun _ => True) Phrases

variable {head : Nonterminal} {tokens : List Token} {node : Node} {level : Nat} {e : Expression} {words : List Written}

theorem Phrases.of_operand (hhead : operandLevel head = some level) (htokens : List.Forall₂ Bears words tokens)
    (hwords : Phrased level e words) : Phrases head tokens (.expression e) := by
  refine ⟨fun level' hlevel => ?_, ?_, ?_⟩
  · cases hhead.symm.trans hlevel
    exact ⟨e, words, rfl, htokens, hwords⟩
  · rintro rfl
    cases hhead
  · rintro rfl
    cases hhead

/-- Of the other nonterminals nothing is said. -/
theorem Phrases.of_none (hhead : operandLevel head = none) (harguments : head ≠ .parameterList) (hprogram : head ≠ .program) :
    Phrases head tokens node :=
  ⟨fun _ hlevel => (nomatch hhead.symm.trans hlevel), fun h => absurd h harguments, fun h => absurd h hprogram⟩

theorem bears_of_admits {kind : TokenKind} (hkind : kind ≠ .any) {token : Token} (h : alphabet.Admits kind token) :
    Bears (kind, token.text) token :=
  ⟨(admits_cases h).resolve_right fun ⟨hany, _⟩ => hkind hany, rfl⟩

theorem kind_ne_any : (∀ operator : BinaryOperator, operator.kind ≠ .any) ∧ ∀ operator : UnaryOperator, operator.kind ≠ .any :=
  ⟨fun operator => by cases operator <;> decide, fun operator => by cases operator <;> decide⟩

theorem passRule_phrases (name body : String) {inner : Nonterminal} {level higher : Nat} (hhead : operandLevel head = some level)
    (hinner : operandLevel inner = some higher) (hle : level ≤ higher) :
    KeepsPhrases (passRule name body) ⟨head, [.node inner]⟩ := by
  rintro elements tokens node ⟨symbol, n, front, _, _, hn, rfl, rfl, rfl, rfl⟩ hnode
  obtain ⟨e, words, rfl, hwords, hphrased⟩ := hn.operand higher hinner
  cases hnode
  rw [List.append_nil]
  exact .of_operand hhead hwords (hphrased.weaken hle)

theorem binaryRule_phrases (name body : String) (operator : BinaryOperator) {inner : Nonterminal}
    (hhead : operandLevel head = some operator.level) (hinner : operandLevel inner = some (operator.level + 1)) :
    KeepsPhrases (binaryRule name body operator) ⟨head, [.node head, .token operator.kind, .node inner]⟩ := by
  rintro elements tokens node ⟨_, l, front, _, _, hl, rfl, rfl, token, _, _, hadmits, -, rfl, rfl, _, r, back, _, _, hr, rfl, rfl,
    rfl, rfl⟩ hnode
  obtain ⟨left, words, rfl, hwords, hleft⟩ := hl.operand _ hhead
  obtain ⟨right, others, rfl, hothers, hright⟩ := hr.operand _ hinner
  cases hnode
  rw [List.append_nil]
  exact .of_operand hhead (List.rel_append hwords (.cons (bears_of_admits (kind_ne_any.1 operator) hadmits) hothers))
    (.binary le_rfl hleft hright)

theorem unaryRule_phrases (name body : String) (operator : UnaryOperator) :
    KeepsPhrases (unaryRule name body operator) ⟨.unaryExpression, [.token operator.kind, .node .unaryExpression]⟩ := by
  rintro elements tokens node ⟨token, _, _, hadmits, -, rfl, rfl, _, n, front, _, _, hn, rfl, rfl, rfl, rfl⟩ hnode
  obtain ⟨e, words, rfl, hwords, hphrased⟩ := hn.operand _ rfl
  cases hnode
  rw [List.append_nil]
  exact .of_operand rfl (.cons (bears_of_admits (kind_ne_any.2 operator) hadmits) hwords) (.unary le_rfl hphrased)

theorem operatorRules_phrases : List.Forall₂ KeepsPhrases operatorRules operatorProductions := by
  rw [operatorRules, operatorProductions]
  repeat' first
    | exact .nil
    | refine .cons ?_ ?_
    | exact binaryRule_phrases _ _ _ rfl rfl
    | exact unaryRule_phrases _ _ _
    | exact passRule_phrases _ _ rfl rfl (by decide)
  -- what is left are a number and an expression in parentheses
  · rintro elements tokens node ⟨token, _, _, hadmits, -, rfl, rfl, rfl, rfl⟩ hnode
    simp only [integerOf] at hnode
    split at hnode
    · rename_i value hread
      cases hnode
      exact .of_operand rfl (.cons (bears_of_admits (by decide) hadmits) .nil) (.int hread)
    · cases hnode
  · rintro elements tokens node ⟨left, _, _, hleft, -, rfl, rfl, _, n, front, _, _, hn, rfl, rfl, right, _, _, hright, -, rfl, rfl,
      rfl, rfl⟩ hnode
    obtain ⟨e, words, rfl, hwords, hphrased⟩ := hn.operand _ rfl
    cases hnode
    exact .of_operand rfl (.cons (bears_of_admits (by decide) hleft)
      (List.rel_append hwords (.cons (bears_of_admits (by decide) hright) .nil))) (.parentheses hphrased)

/-! ### Macros -/

theorem Phrases.of_arguments {es : List Expression} (htokens : List.Forall₂ Bears words tokens) (hwords : PhrasedAll es words) :
    Phrases .parameterList tokens (.arguments es) :=
  ⟨fun _ hlevel => (nomatch hlevel), fun _ => ⟨es, words, rfl, htokens, hwords⟩, fun h => Nonterminal.noConfusion h⟩

theorem callRules_phrases : List.Forall₂ KeepsPhrases callRules callProductions := by
  simp only [callRules, callProductions, List.forall₂_cons, List.forall₂_nil_left_iff, and_true]
  refine ⟨passRule_phrases _ _ rfl rfl (by decide), ?_, ?_, ?_, ?_, ?_, ?_, ?_⟩
  · rintro elements tokens node ⟨name, _, _, hname, -, rfl, rfl, rfl, rfl⟩ hnode
    cases hnode
    exact .of_operand rfl (.cons (bears_of_admits (by decide) hname) .nil) .object
  · rintro elements tokens node ⟨name, _, _, hname, -, rfl, rfl, left, _, _, hleft, -, rfl, rfl, right, _, _, hright, -, rfl, rfl,
      rfl, rfl⟩ hnode
    cases hnode
    exact .of_operand rfl (.cons (bears_of_admits (by decide) hname) (.cons (bears_of_admits (by decide) hleft)
      (.cons (bears_of_admits (by decide) hright) .nil))) .callNone
  · rintro elements tokens node ⟨name, _, _, hname, -, rfl, rfl, left, _, _, hleft, -, rfl, rfl, _, n, front, _, _, hn, rfl, rfl,
      right, _, _, hright, -, rfl, rfl, rfl, rfl⟩ hnode
    obtain ⟨es, words, rfl, hwords, hphrased⟩ := hn.arguments rfl
    cases hnode
    exact .of_operand rfl (.cons (bears_of_admits (by decide) hname) (.cons (bears_of_admits (by decide) hleft)
      (List.rel_append hwords (.cons (bears_of_admits (by decide) hright) .nil)))) (.call hphrased)
  · rintro elements tokens node ⟨_, n, front, _, _, hn, rfl, rfl, rfl, rfl⟩ hnode
    obtain ⟨e, words, rfl, hwords, hphrased⟩ := hn.operand _ rfl
    cases hnode
    rw [List.append_nil]
    exact .of_arguments hwords (.first hphrased)
  · rintro elements tokens node ⟨_, n, front, _, _, hn, rfl, rfl, comma, _, _, hcomma, -, rfl, rfl, _, n', back, _, _, hn', rfl, rfl,
      rfl, rfl⟩ hnode
    obtain ⟨es, words, rfl, hwords, hphrased⟩ := hn.arguments rfl
    obtain ⟨e, others, rfl, hothers, hlast⟩ := hn'.operand _ rfl
    cases hnode
    rw [List.append_nil]
    exact .of_arguments (List.rel_append hwords (.cons (bears_of_admits (by decide) hcomma) hothers)) (.next hphrased hlast)
  · rintro elements tokens node ⟨word, _, _, hword, -, rfl, rfl, left, _, _, hleft, -, rfl, rfl, name, _, _, hname, -, rfl, rfl,
      right, _, _, hright, -, rfl, rfl, rfl, rfl⟩ hnode
    cases hnode
    exact .of_operand rfl (.cons (bears_of_admits (by decide) hword) (.cons (bears_of_admits (by decide) hleft)
      (.cons (bears_of_admits (by decide) hname) (.cons (bears_of_admits (by decide) hright) .nil)))) .defined
  · rintro elements tokens node ⟨word, _, _, hword, -, rfl, rfl, name, _, _, hname, -, rfl, rfl, rfl, rfl⟩ hnode
    cases hnode
    exact .of_operand rfl (.cons (bears_of_admits (by decide) hword) (.cons (bears_of_admits (by decide) hname) .nil)) .definedBare

/-! ### Sources -/

theorem forall₂_phrases {rs : List (Rule Node)} {ps : List (Spelling TokenKind Nonterminal)} (hlength : rs.length = ps.length)
    (hps : ∀ p ∈ ps, operandLevel p.head = none ∧ p.head ≠ .parameterList ∧ p.head ≠ .program) :
    List.Forall₂ KeepsPhrases rs ps :=
  forall₂_of_forall_mem hlength fun _ _ p hp _ _ _ _ _ =>
    have h := hps p hp
    .of_none h.1 h.2.1 h.2.2

theorem programRules_phrases : List.Forall₂ KeepsPhrases ((particleRules.drop 1).take 2) ((particleProductions.drop 1).take 2) := by
  have hprogram : ∀ {tokens : List Token} {node : Node}, (∀ e, node = .expression e → ∃ first rest words, tokens = first :: rest ∧
      List.Forall₂ Bears words rest ∧ Phrased 0 e words) → Phrases .program tokens node := fun h =>
    ⟨fun _ hlevel => (nomatch hlevel), fun h => Nonterminal.noConfusion h, fun _ => h⟩
  simp only [particleRules, particleProductions, List.drop, List.take, List.forall₂_cons, List.forall₂_nil_left_iff, and_true]
  refine ⟨?_, ?_⟩
  · intro elements tokens node _ hnode
    refine hprogram fun e he => ?_
    subst he
    simp only at hnode
    split at hnode <;> cases hnode
  · rintro elements tokens node ⟨start, _, _, -, -, rfl, rfl, _, n, front, _, _, hn, rfl, rfl, rfl, rfl⟩ hnode
    obtain ⟨e, words, rfl, hwords, hphrased⟩ := hn.operand _ rfl
    cases hnode
    refine hprogram fun e' he => ?_
    cases he
    exact ⟨start, _, words, rfl, by rwa [List.append_nil], hphrased⟩

theorem rules_phrases : List.Forall₂ KeepsPhrases rules productions := by
  have hparticle : List.Forall₂ KeepsPhrases particleRules particleProductions :=
    forall₂_split 1 (forall₂_phrases rfl (by decide)) (forall₂_split 2 programRules_phrases (forall₂_phrases rfl (by decide)))
  rw [rules, productions]
  exact forall₂_append (forall₂_append (forall₂_append (forall₂_append (forall₂_append hparticle
    (forall₂_phrases rfl (by decide))) (forall₂_phrases rfl (by decide))) (forall₂_phrases rfl (by decide))) callRules_phrases)
    operatorRules_phrases

/-! ## Texts -/

/-- Whether tokens of a kind are marks. -/
def TokenKind.isMark (kind : TokenKind) : Bool := marks.any (·.2 = kind)

/-- Whether tokens of a kind are words of expressions. -/
def TokenKind.isPhrase : TokenKind → Bool
  | .identifier | .defined | .intConstant => true
  | kind => kind.isMark

/-- The words of expressions, with a mark after each number. -/
structure Alternates (words : List Written) : Prop where
  isPhrase : ∀ word ∈ words, word.1.isPhrase = true
  chain : words.IsChain fun word next => word.1 = .intConstant → next.1.isMark = true

theorem isPhrase_of_isMark {kind : TokenKind} (h : kind.isMark = true) : kind.isPhrase = true := by
  cases kind <;> first | exact h | rfl

theorem isMark_kind : (∀ operator : BinaryOperator, operator.kind.isMark = true) ∧
    ∀ operator : UnaryOperator, operator.kind.isMark = true :=
  ⟨fun operator => by cases operator <;> rfl, fun operator => by cases operator <;> rfl⟩

namespace Alternates

variable {word : Written} {words others : List Written}

theorem nil : Alternates [] := ⟨List.forall_mem_nil _, .nil⟩

theorem singleton (h : word.1.isPhrase = true) : Alternates [word] := ⟨List.forall_mem_singleton.mpr h, .singleton word⟩

theorem tail (h : Alternates (word :: words)) : Alternates words :=
  ⟨(List.forall_mem_cons.mp h.isPhrase).2, (List.isChain_cons.mp h.chain).2⟩

theorem cons (hphrase : word.1.isPhrase = true) (hint : word.1 ≠ .intConstant) (h : Alternates words) :
    Alternates (word :: words) :=
  ⟨List.forall_mem_cons.mpr ⟨hphrase, h.isPhrase⟩, List.isChain_cons.mpr ⟨fun _ _ hword => absurd hword hint, h.chain⟩⟩

theorem mark (hmark : word.1.isMark = true) (h : Alternates words) : Alternates (word :: words) := by
  refine h.cons (isPhrase_of_isMark hmark) fun heq => ?_
  rw [heq] at hmark
  cases hmark

theorem append (h : Alternates words) (hmark : word.1.isMark = true) (hothers : Alternates others) :
    Alternates (words ++ word :: others) := by
  have hback : Alternates (word :: others) := hothers.mark hmark
  refine ⟨List.forall_mem_append.mpr ⟨h.isPhrase, hback.isPhrase⟩, List.isChain_append.mpr ⟨h.chain, hback.chain, ?_⟩⟩
  rintro _ - _ ⟨⟩ -
  exact hmark

theorem enclosed (h : Alternates words) (left right : String) :
    Alternates ((.parenLeft, left) :: words ++ [(.parenRight, right)]) :=
  (h.append rfl .nil).mark rfl

end Alternates

mutual

theorem Expression.Phrased.alternates : ∀ {level : Nat} {e : Expression} {words : List Written}, Phrased level e words →
    Alternates words
  | _, _, _, .int _ => .singleton rfl
  | _, _, _, .object => .singleton rfl
  | _, _, _, .defined => .cons rfl nofun (.enclosed (.singleton rfl) _ _)
  | _, _, _, .definedBare => .cons rfl nofun (.singleton rfl)
  | _, _, _, .callNone => .cons rfl nofun (.enclosed .nil _ _)
  | _, _, _, .call harguments => .cons rfl nofun (harguments.alternates.enclosed _ _)
  | _, _, _, .unary _ hoperand => hoperand.alternates.mark (isMark_kind.2 _)
  | _, _, _, .binary _ hleft hright => hleft.alternates.append (isMark_kind.1 _) hright.alternates
  | _, _, _, .parentheses hinner => hinner.alternates.enclosed _ _

theorem Expression.PhrasedAll.alternates : ∀ {es : List Expression} {words : List Written}, PhrasedAll es words →
    Alternates words
  | _, _, .first h => h.alternates
  | _, _, .next harguments hlast => harguments.alternates.append rfl hlast.alternates

end

/-- Words with numbers that are read as values. -/
def Readable (words : List Written) : Prop := ∀ word ∈ words, word.1 = .intConstant → (Integer.read? word.2).isSome = true

theorem Readable.mark {word : Written} {words : List Written} (hword : word.1 ≠ .intConstant) (h : Readable words) :
    Readable (word :: words) := List.forall_mem_cons.mpr ⟨fun hint => absurd hint hword, h⟩

theorem Readable.append {words others : List Written} (h : Readable words) (hothers : Readable others) :
    Readable (words ++ others) := List.forall_mem_append.mpr ⟨h, hothers⟩

theorem Readable.nil : Readable [] := List.forall_mem_nil _

theorem kind_ne_int : (∀ operator : BinaryOperator, operator.kind ≠ .intConstant) ∧
    ∀ operator : UnaryOperator, operator.kind ≠ .intConstant :=
  ⟨fun operator => by cases operator <;> decide, fun operator => by cases operator <;> decide⟩

mutual

/-- The numbers of an expression are read. -/
theorem Expression.Phrased.readable : ∀ {level : Nat} {e : Expression} {words : List Written}, Phrased level e words →
    Readable words
  | _, _, _, .int hread => List.forall_mem_singleton.mpr fun _ => by rw [hread]; rfl
  | _, _, _, .object => .mark nofun .nil
  | _, _, _, .defined => .mark nofun (.mark nofun (.mark nofun (.mark nofun .nil)))
  | _, _, _, .definedBare => .mark nofun (.mark nofun .nil)
  | _, _, _, .callNone => .mark nofun (.mark nofun (.mark nofun .nil))
  | _, _, _, .call harguments => .mark nofun (.mark nofun (harguments.readable.append (.mark nofun .nil)))
  | _, _, _, .unary _ hoperand => .mark (kind_ne_int.2 _) hoperand.readable
  | _, _, _, .binary _ hleft hright => hleft.readable.append (.mark (kind_ne_int.1 _) hright.readable)
  | _, _, _, .parentheses hinner => .mark nofun (hinner.readable.append (.mark nofun .nil))

theorem Expression.PhrasedAll.readable : ∀ {es : List Expression} {words : List Written}, PhrasedAll es words → Readable words
  | _, _, .first h => h.readable
  | _, _, .next harguments hlast => harguments.readable.append (.mark nofun hlast.readable)

end

/-- The words of a text that begins at a byte offset. -/
def wordsFrom (pos : Nat) (cs : List Char) : List Written :=
  ((scan cut pos cs).filterMap Piece.lexeme?).map fun l => (l.kind, l.text)

theorem wordsFrom_skipped {c : Char} {rest : List Char} (h : (cut c rest).kind = none) (pos : Nat) :
    ∃ next, wordsFrom pos (c :: rest) = wordsFrom next (rest.drop (cut c rest).more) := by
  refine ⟨pos + byteLength (c :: rest.take (cut c rest).more), ?_⟩
  rw [wordsFrom, scan]
  simp only [h]
  rfl

theorem wordsFrom_word {c : Char} {rest : List Char} {kind : TokenKind} (h : (cut c rest).kind = some kind) (pos : Nat) :
    ∃ next, wordsFrom pos (c :: rest) =
      (kind, String.ofList (c :: rest.take (cut c rest).more)) :: wordsFrom next (rest.drop (cut c rest).more) := by
  refine ⟨pos + byteLength (c :: rest.take (cut c rest).more), ?_⟩
  rw [wordsFrom, scan]
  simp only [h]
  rfl

/-- Tokens bear the words that the lexemes are. -/
theorem lexemes_of_bears : ∀ {lexemes : List (Lexeme TokenKind)} {context : Context} {words : List Written},
    List.Forall₂ Bears words (classify context lexemes) → (∀ word ∈ words, word.1 ≠ .macroParen) →
    lexemes.map (fun l => (l.kind, l.text)) = words
  | [], _, words, h, _ => by
    rw [classify] at h
    cases h
    rfl
  | l :: lexemes, context, words, h, hkinds => by
    rw [classify] at h
    cases h with
    | @cons word _ words _ hword hwords =>
      obtain ⟨hkind, hkinds⟩ := List.forall_mem_cons.mp hkinds
      obtain ⟨hsymbol, htext⟩ := hword
      have hkind : l.kind = word.1 := by
        have heq := id_injective hsymbol
        split at heq
        · exact absurd heq.symm hkind
        · exact heq
      rw [List.map_cons, lexemes_of_bears hwords hkinds, hkind, show l.text = word.2 from htext]

/-- **What is read as an expression consists of words that say it.** -/
theorem parseExpression_phrased {text : String} {e : Expression} (h : parseExpression text = .ok e) :
    Phrased 0 e (wordsFrom 0 text.toList) := by
  obtain ⟨first, rest, words, htokens, hbears, hphrased⟩ := (alphabet_covers.parse_attribute rules_phrases
    (exists_kind_of_mem_expressionTokens text) (fun _ _ => trivial) (eq_expression_of_expressionOf h)).program rfl e rfl
  obtain ⟨-, rfl⟩ := List.cons.inj htokens
  have hwords : wordsFrom 0 text.toList = words := by
    refine lexemes_of_bears hbears fun word hword hkind => ?_
    have hphrase := hphrased.alternates.isPhrase word hword
    rw [hkind] at hphrase
    cases hphrase
  rwa [hwords]

end ShaderFront.Directive
