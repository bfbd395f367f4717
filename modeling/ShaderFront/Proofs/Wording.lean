import Mathlib
import ShaderFront.Proofs.Layout

/-!
# Where the words of a syntax tree come from

The names, texts and macro bodies of a syntax tree (`Node.words`) are texts of tokens, or of tokens in a row joined together
(`Worded`). No rule makes up a word (`rules_worded`).
-/

namespace ShaderFront.Directive

/-! ## Words of a tree -/

mutual

/-- The names in an expression. -/
def Expression.names : Expression → List String
  | .int _ => []
  | .defined name => [name]
  | .object name => [name]
  | .call name arguments => name :: namesAll arguments
  | .unary _ operand => operand.names
  | .binary _ left right => left.names ++ right.names

/-- The names in some expressions. -/
def namesAll : List Expression → List String
  | [] => []
  | e :: rest => e.names ++ namesAll rest

end

/-- The names in a condition. -/
def Condition.names : Condition → List String
  | .holds e => e.names
  | .ifdef name => [name]
  | .ifndef name => [name]

mutual

/-- The texts of a particle, and the names and bodies of macros in it. -/
def Particle.words : Particle → List String
  | .text text => [text]
  | .define definition => [definition.name, definition.body]
  | .undef name => [name]
  | .conditional branches none => branchWords branches
  | .conditional branches (some body) => branchWords branches ++ wordsAll body
  | _ => []

@[inherit_doc Particle.words] def wordsAll : List Particle → List String
  | [] => []
  | p :: rest => p.words ++ wordsAll rest

@[inherit_doc Particle.words] def branchWords : List (BranchOf Particle) → List String
  | [] => []
  | ⟨condition, body⟩ :: rest => condition.names ++ wordsAll body ++ branchWords rest

end

/-- The texts of a node, and the names and bodies of macros in it. -/
def Node.words : Node → List String
  | .file ps => wordsAll ps
  | .particles ps => wordsAll ps
  | .particle p => p.words
  | .tokens ts => [joinTokens ts]
  | .formals _ => []
  | .branch b => b.condition.names ++ wordsAll b.body
  | .branches bs => branchWords bs
  | .alternatives bs none => branchWords bs
  | .alternatives bs (some body) => branchWords bs ++ wordsAll body
  | .condition c => c.names
  | .expression e => e.names
  | .arguments es => namesAll es
  | .marker => []

theorem namesAll_append (as bs : List Expression) : namesAll (as ++ bs) = namesAll as ++ namesAll bs := by
  induction as with
  | nil => rfl
  | cons a as ih => rw [List.cons_append, namesAll, namesAll, ih, List.append_assoc]

theorem wordsAll_append (as bs : List Particle) : wordsAll (as ++ bs) = wordsAll as ++ wordsAll bs := by
  induction as with
  | nil => rfl
  | cons a as ih => rw [List.cons_append, wordsAll, wordsAll, ih, List.append_assoc]

theorem branchWords_cons (b : Branch) (bs : List Branch) :
    branchWords (b :: bs) = b.condition.names ++ wordsAll b.body ++ branchWords bs := by
  rw [branchWords]

theorem branchWords_append (as bs : List Branch) : branchWords (as ++ bs) = branchWords as ++ branchWords bs := by
  induction as with
  | nil => simp [branchWords]
  | cons a as ih => simp [branchWords_cons, ih]

theorem words_conditional_cons (b : Branch) (bs : List Branch) (otherwise : Option (List Particle)) :
    (Particle.conditional (b :: bs) otherwise).words =
      b.condition.names ++ wordsAll b.body ++ (Node.alternatives bs otherwise).words := by
  cases otherwise with
  | none => rw [Particle.words, branchWords_cons, Node.words]
  | some body => rw [Particle.words, branchWords_cons, Node.words, List.append_assoc]

/-! ## Rules -/

/-- The words of an element. -/
def elementWords : Matched Node → List String
  | .token token => [token.text]
  | .node _ node => node.words

/-- A rule makes up no words. -/
def KeepsWords (r : Rule Node) : Prop := ∀ elements node, r.build elements = .ok node →
  ∀ word ∈ node.words, word = "" ∨ word ∈ elements.flatMap elementWords

theorem passRule_keepsWords (head body : String) : KeepsWords (passRule head body) := by
  intro elements node h
  simp only [passRule] at h
  split at h <;> cases h
  exact fun word hword => .inr (by simpa [elementWords] using hword)

theorem particleRules_keepsWords : ∀ r ∈ particleRules, KeepsWords r := by
  simp only [particleRules, List.forall_mem_cons, passRule_keepsWords, true_and]
  and_intros
  on_goal 6 => exact List.forall_mem_nil _
  all_goals
    intro elements node h
    simp only at h
    split at h <;> cases h
    intro word hword
    grind [elementWords, Node.words, wordsAll_append, wordsAll, Particle.words]

theorem binaryRule_keepsWords (head body : String) (operator : BinaryOperator) : KeepsWords (binaryRule head body operator) := by
  intro elements node h
  simp only [binaryRule] at h
  split at h <;> cases h
  intro word hword
  grind [elementWords, Node.words, Expression.names]

theorem unaryRule_keepsWords (head body : String) (operator : UnaryOperator) : KeepsWords (unaryRule head body operator) := by
  intro elements node h
  simp only [unaryRule] at h
  split at h <;> cases h
  intro word hword
  grind [elementWords, Node.words, Expression.names]

theorem operatorRules_keepsWords : ∀ r ∈ operatorRules, KeepsWords r := by
  simp only [operatorRules, List.forall_mem_cons, passRule_keepsWords, binaryRule_keepsWords, unaryRule_keepsWords, true_and]
  refine ⟨?_, ?_, List.forall_mem_nil _⟩
  · intro elements node h
    simp only at h
    split at h
    · obtain ⟨i, rfl⟩ := integerOf_map h
      exact List.forall_mem_nil _
    · cases h
  · intro elements node h
    simp only at h
    split at h <;> cases h
    intro word hword
    grind [elementWords]

theorem callRules_keepsWords : ∀ r ∈ callRules, KeepsWords r := by
  simp only [callRules, List.forall_mem_cons, passRule_keepsWords, true_and]
  and_intros
  on_goal 8 => exact List.forall_mem_nil _
  all_goals
    intro elements node h
    simp only at h
    split at h <;> cases h
    intro word hword
    grind [elementWords, Node.words, Expression.names, namesAll, namesAll_append]

theorem conditionalRules_keepsWords : ∀ r ∈ conditionalRules, KeepsWords r := by
  simp only [conditionalRules, List.forall_mem_cons]
  and_intros
  on_goal 18 => exact List.forall_mem_nil _
  all_goals
    intro elements node h
    simp only at h
    split at h <;> cases h
    intro word hword
    grind [elementWords, Node.words, Particle.words, Condition.names, words_conditional_cons, branchWords_cons, branchWords_append,
      branchWords]

theorem directiveRules_keepsWords : ∀ r ∈ directiveRules, KeepsWords r := by
  simp only [directiveRules, List.forall_mem_cons]
  and_intros
  on_goal 15 => exact List.forall_mem_nil _
  all_goals
    intro elements node h
    simp only at h
    split at h
  all_goals
    first
      | cases h <;>
          intro word hword <;>
          grind [elementWords, Node.words, Particle.words]
      | obtain ⟨i, rfl⟩ := integerOf_map h
        exact List.forall_mem_nil _

theorem definitionRules_keepsWords : ∀ r ∈ definitionRules.take 6, KeepsWords r := by
  simp only [definitionRules, List.take, List.forall_mem_cons]
  and_intros
  on_goal 7 => exact List.forall_mem_nil _
  all_goals
    intro elements node h
    simp only at h
    split at h <;> cases h
    intro word hword
    grind [elementWords, Node.words, Particle.words]

theorem formalsRules_keepsWords : ∀ r ∈ definitionRules.drop 8, KeepsWords r := by
  simp only [definitionRules, List.drop, List.forall_mem_cons]
  refine ⟨?_, ?_, List.forall_mem_nil _⟩
  all_goals
    intro elements node h
    simp only at h
    split at h <;> cases h
    exact List.forall_mem_nil _

/-! ## Tokens -/

/-- A word is the text of some tokens in a row, or empty. -/
def Worded (tokens : List Token) (word : String) : Prop := word = "" ∨ ∃ row, row <:+: tokens ∧ word = joinTokens row

/-- The words of a node come from its tokens; a list of tokens is all of them. -/
structure Quotes (head : Nonterminal) (tokens : List Token) (node : Node) : Prop where
  list : head = .tokenList → node = .tokens tokens
  words : ∀ word ∈ node.words, Worded tokens word

theorem Worded.of_isInfix {tokens more : List Token} {word : String} (h : Worded tokens word) (hmore : tokens <:+: more) :
    Worded more word := h.imp id fun ⟨row, hrow, hword⟩ => ⟨row, hrow.trans hmore, hword⟩

theorem worded_token {tokens : List Token} {token : Token} (h : token ∈ tokens) : Worded tokens token.text := by
  obtain ⟨front, back, rfl⟩ := List.append_of_mem h
  exact .inr ⟨[token], ⟨front, back, by simp⟩, by simp [joinTokens, joinTokensFrom]⟩

theorem fills_worded {T : Token → Prop} : ∀ {words : List (Word TokenKind Nonterminal)} {elements : List (Matched Node)}
    {tokens : List Token}, alphabet.Fills T Quotes words elements tokens →
    ∀ word ∈ elements.flatMap elementWords, Worded tokens word
  | [], _, _, ⟨rfl, rfl⟩ => List.forall_mem_nil _
  | .token _ :: _, _, _, ⟨token, elements, tokens, _, _, rfl, rfl, hrest⟩ => by
    rw [List.flatMap_cons]
    refine List.forall_mem_append.mpr ⟨?_, fun word hword => ?_⟩
    · exact List.forall_mem_singleton.mpr (worded_token List.mem_cons_self)
    · exact (fills_worded hrest word hword).of_isInfix (List.suffix_cons token tokens).isInfix
  | .node _ :: _, _, _, ⟨symbol, node, front, elements, tokens, hnode, rfl, rfl, hrest⟩ => by
    rw [List.flatMap_cons]
    refine List.forall_mem_append.mpr ⟨fun word hword => ?_, fun word hword => ?_⟩
    · exact (hnode.words word hword).of_isInfix (List.prefix_append front tokens).isInfix
    · exact (fills_worded hrest word hword).of_isInfix (List.suffix_append front tokens).isInfix

theorem KeepsWords.quotes {T : Token → Prop} {r : Rule Node} (h : KeepsWords r) {p : Spelling TokenKind Nonterminal}
    (hhead : p.head ≠ .tokenList) : alphabet.Builds T Quotes r p := by
  intro elements tokens node hfills hnode
  refine ⟨fun heq => absurd heq hhead, fun word hword => ?_⟩
  rcases h elements node hnode word hword with rfl | hword
  · exact .inl rfl
  · exact fills_worded hfills word hword

theorem quotes_tokens (tokens : List Token) : Quotes .tokenList tokens (.tokens tokens) :=
  ⟨fun _ => rfl, List.forall_mem_singleton.mpr (.inr ⟨tokens, List.infix_rfl, rfl⟩)⟩

theorem listRules_quotes : List.Forall₂ (alphabet.Builds (fun _ => True) Quotes) ((definitionRules.drop 6).take 2)
    ((definitionProductions.drop 6).take 2) := by
  simp only [definitionRules, definitionProductions, List.drop, List.take, List.forall₂_cons, List.forall₂_nil_left_iff, and_true]
  refine ⟨?_, ?_⟩
  · rintro elements tokens node ⟨token, _, _, -, -, rfl, rfl, rfl, rfl⟩ h
    cases h
    exact quotes_tokens _
  · rintro elements tokens node ⟨symbol, list, front, _, _, hlist, rfl, rfl, token, _, _, -, -, rfl, rfl, rfl, rfl⟩ h
    obtain rfl := hlist.list rfl
    cases h
    exact quotes_tokens _

theorem forall₂_quotes {rs : List (Rule Node)} {ps : List (Spelling TokenKind Nonterminal)} (hlength : rs.length = ps.length)
    (hrs : ∀ r ∈ rs, KeepsWords r) (hps : ∀ p ∈ ps, p.head ≠ .tokenList) :
    List.Forall₂ (alphabet.Builds (fun _ => True) Quotes) rs ps :=
  forall₂_of_forall_mem hlength fun r hr p hp => (hrs r hr).quotes (hps p hp)

/-- **No rule makes up a word.** -/
theorem rules_quotes : List.Forall₂ (alphabet.Builds (fun _ => True) Quotes) rules productions := by
  have hdefinition : List.Forall₂ (alphabet.Builds (fun _ => True) Quotes) definitionRules definitionProductions :=
    forall₂_split 6 (forall₂_quotes rfl definitionRules_keepsWords (by decide))
      (forall₂_split 2 listRules_quotes (forall₂_quotes rfl formalsRules_keepsWords (by decide)))
  rw [rules, productions]
  exact forall₂_append (forall₂_append (forall₂_append (forall₂_append (forall₂_append
    (forall₂_quotes rfl particleRules_keepsWords (by decide)) hdefinition)
    (forall₂_quotes rfl directiveRules_keepsWords (by decide))) (forall₂_quotes rfl conditionalRules_keepsWords (by decide)))
    (forall₂_quotes rfl callRules_keepsWords (by decide))) (forall₂_quotes rfl operatorRules_keepsWords (by decide))

/-- The words of a source come from its tokens. -/
theorem parse_worded {source : String} {particles : List Particle} (h : parse source = .ok particles) :
    ∀ word ∈ wordsAll particles, Worded (tokens source) word :=
  (alphabet_covers.parse_attribute rules_quotes (exists_kind_of_mem_tokens source) (fun _ _ => trivial)
    (eq_file_of_particlesOf h)).words

theorem eq_expression_of_expressionOf {result : Except LanguageError Node} {e : Expression} (h : expressionOf result = .ok e) :
    result = .ok (.expression e) := by
  unfold expressionOf at h
  split at h <;> cases h
  rfl

/-- The names of an expression come from its tokens. -/
theorem parseExpression_worded {text : String} {e : Expression} (h : parseExpression text = .ok e) :
    ∀ name ∈ e.names, Worded (expressionTokens text) name :=
  (alphabet_covers.parse_attribute rules_quotes (exists_kind_of_mem_expressionTokens text) (fun _ _ => trivial)
    (eq_expression_of_expressionOf h)).words

end ShaderFront.Directive
