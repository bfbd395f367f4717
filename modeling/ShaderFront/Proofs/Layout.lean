import Mathlib
import ShaderFront.Proofs.Parsers

/-!
# The layout of sources

A source is made of stretches, runs of text and directives, and each of them is ended by one token (`Directive.tokenStretches`). A
particle stands for some of them (`Particle.stretches`), and so does every node that a rule builds (`Node.stretches`). Tokens inside of
a directive end none, and their texts alone come into the bodies of macros (`Node.bodies`).

Main statements: every rule keeps the layout (`Directive.rules_laid`), and so the particles of a source stand for the stretches of its
tokens, with bodies of macros that hold no line break if the tokens inside of directives hold none (`Directive.parse_laid`).
-/

namespace ShaderFront.Directive

/-- What a source is made of: runs of text and directives. -/
inductive Stretch where
  | text (text : String)
  | directive
deriving DecidableEq, Repr

mutual

/-- The stretches a particle was read from. -/
def Particle.stretches : Particle → List Stretch
  | .text text => [.text text]
  | .conditional branches none => branchStretches branches ++ [.directive]
  | .conditional branches (some body) => branchStretches branches ++ .directive :: stretchesAll body ++ [.directive]
  | _ => [.directive]

/-- The stretches some particles were read from. -/
def stretchesAll : List Particle → List Stretch
  | [] => []
  | p :: rest => p.stretches ++ stretchesAll rest

/-- The stretches some branches were read from, each with its condition. -/
def branchStretches : List (BranchOf Particle) → List Stretch
  | [] => []
  | ⟨_, body⟩ :: rest => .directive :: stretchesAll body ++ branchStretches rest

end

mutual

/-- The bodies of the macros a particle may define. -/
def Particle.bodies : Particle → List String
  | .define definition => [definition.body]
  | .conditional branches none => branchBodies branches
  | .conditional branches (some body) => branchBodies branches ++ bodiesAll body
  | _ => []

/-- The bodies of the macros some particles may define. -/
def bodiesAll : List Particle → List String
  | [] => []
  | p :: rest => p.bodies ++ bodiesAll rest

/-- The bodies of the macros some branches may define. -/
def branchBodies : List (BranchOf Particle) → List String
  | [] => []
  | ⟨_, body⟩ :: rest => bodiesAll body ++ branchBodies rest

end

theorem stretchesAll_append (as bs : List Particle) : stretchesAll (as ++ bs) = stretchesAll as ++ stretchesAll bs := by
  induction as with
  | nil => rfl
  | cons a as ih => rw [List.cons_append, stretchesAll, stretchesAll, ih, List.append_assoc]

theorem branchStretches_append (as bs : List Branch) :
    branchStretches (as ++ bs) = branchStretches as ++ branchStretches bs := by
  induction as with
  | nil => simp [branchStretches]
  | cons a as ih =>
    obtain ⟨condition, body⟩ := a
    simp [branchStretches, ih]

theorem bodiesAll_append (as bs : List Particle) : bodiesAll (as ++ bs) = bodiesAll as ++ bodiesAll bs := by
  induction as with
  | nil => rfl
  | cons a as ih => rw [List.cons_append, bodiesAll, bodiesAll, ih, List.append_assoc]

theorem branchBodies_append (as bs : List Branch) : branchBodies (as ++ bs) = branchBodies as ++ branchBodies bs := by
  induction as with
  | nil => simp [branchBodies]
  | cons a as ih =>
    obtain ⟨condition, body⟩ := a
    simp [branchBodies, ih]

/-- The stretches a node was built from. -/
def Node.stretches : Node → List Stretch
  | .file ps => stretchesAll ps
  | .particles ps => stretchesAll ps
  | .particle p => p.stretches
  | .branch b => .directive :: stretchesAll b.body
  | .branches bs => branchStretches bs
  | .alternatives bs none => branchStretches bs
  | .alternatives bs (some body) => branchStretches bs ++ .directive :: stretchesAll body
  | .condition _ => [.directive]
  | .marker => [.directive]
  | .tokens _ => []
  | .formals _ => []
  | .expression _ => []
  | .arguments _ => []

/-- The texts that a node may put into the body of a macro. -/
def Node.bodies : Node → List String
  | .file ps => bodiesAll ps
  | .particles ps => bodiesAll ps
  | .particle p => p.bodies
  | .branch b => bodiesAll b.body
  | .branches bs => branchBodies bs
  | .alternatives bs none => branchBodies bs
  | .alternatives bs (some body) => branchBodies bs ++ bodiesAll body
  | .tokens ts => ts.map (·.text)
  | _ => []

/-- The stretch that a token ends. -/
def tokenStretches (token : Token) : List Stretch :=
  if token.symbol = TokenKind.newline.id then [.directive]
  else if token.symbol = TokenKind.text.id then [.text token.text]
  else []

/-- A token inside a directive holds no line break. -/
def Flat (token : Token) : Prop :=
  token.symbol ≠ TokenKind.newline.id → token.symbol ≠ TokenKind.text.id → '\n' ∉ token.text.toList

/-- A token inside a directive has a text with a property. -/
def Holds (Q : String → Prop) (token : Token) : Prop :=
  token.symbol ≠ TokenKind.newline.id → token.symbol ≠ TokenKind.text.id → Q token.text

/-- All texts that a node may put into the body of a macro have a property. -/
def Node.Holds (Q : String → Prop) (node : Node) : Prop := ∀ body ∈ node.bodies, Q body

/-- A property of texts that the texts of tokens keep when they are joined. -/
structure Joins (Q : String → Prop) : Prop where
  empty : Q ""
  join : ∀ ts : List Token, (∀ t ∈ ts, Q t.text) → Q (joinTokens ts)

theorem joinTokensFrom_flat (last : Nat) {ts : List Token} (h : ∀ t ∈ ts, '\n' ∉ t.text.toList) :
    '\n' ∉ (joinTokensFrom last ts).toList := by
  induction ts generalizing last with
  | nil => simp [joinTokensFrom]
  | cons t ts ih =>
    obtain ⟨ht, hts⟩ := List.forall_mem_cons.mp h
    rw [joinTokensFrom, String.toList_append, String.toList_append]
    split <;> simp [ht, ih _ hts]

theorem Joins.of_holds {Q : String → Prop} (hQ : Joins Q) {ts : List Token} (h : (Node.tokens ts).Holds Q) : Q (joinTokens ts) :=
  hQ.join ts fun t ht => h t.text (List.mem_map_of_mem ht)

/-- Joined tokens without line breaks have none. -/
theorem joins_flat : Joins fun text => '\n' ∉ text.toList where
  empty := by simp
  join ts htexts := by
    cases ts with
    | nil => simp [joinTokens]
    | cons t ts =>
      obtain ⟨ht, hts⟩ := List.forall_mem_cons.mp htexts
      simp [joinTokens, ht, joinTokensFrom_flat _ hts]

/-! ## Places -/

/-- Where the tokens of a nonterminal stand. -/
inductive Place where
  /-- Inside a directive. -/
  | inner
  /-- The tokens are one directive. -/
  | line
  | outer
deriving DecidableEq

/-- The place of a nonterminal. -/
def Nonterminal.place : Nonterminal → Place
  | .defDirective | .undefDirective | .errorDirective | .extensionDirective | .includeDirective | .lineDirective
  | .nullDirective | .pragmaDirective | .versionDirective | .ifDirective | .ifdefDirective | .ifndefDirective
  | .elifDirective | .elseDirective | .endifDirective => .line
  | .start | .program | .particleList | .particle | .directive | .conditionalDirective | .ifPart | .elsePart
  | .elifParts | .elifPart => .outer
  | _ => .inner

/-- What the place of a node says about its stretches. -/
def Place.Allows : Place → List Stretch → Prop
  | .inner, stretches => stretches = []
  | .line, stretches => stretches = [.directive]
  | .outer, _ => True

/-- A node stands for the stretches that its tokens end. -/
structure Laid (Q : String → Prop) (head : Nonterminal) (tokens : List Token) (node : Node) : Prop where
  stretches : tokens.flatMap tokenStretches = node.stretches
  place : head.place.Allows node.stretches
  holds : node.Holds Q

variable {Q : String → Prop}

theorem admits_stretches {kind : TokenKind} {token : Token} (h : alphabet.Admits kind token) : tokenStretches token =
    if kind = .newline then [.directive] else if kind = .text then [.text token.text] else [] := by
  rcases admits_cases h with hsymbol | ⟨rfl, htame⟩
  · rw [tokenStretches, hsymbol]
    simp only [id_injective.eq_iff]
  · rw [tokenStretches, if_neg (htame _ rfl), if_neg (htame _ rfl)]
    rfl

theorem admits_holds {kind : TokenKind} {token : Token} (h : alphabet.Admits kind token) (hholds : Holds Q token)
    (hnewline : kind ≠ .newline) (htext : kind ≠ .text) : Q token.text := by
  rcases admits_cases h with hsymbol | ⟨rfl, htame⟩
  · exact hholds (hsymbol ▸ id_injective.ne hnewline) (hsymbol ▸ id_injective.ne htext)
  · exact hholds (htame _ rfl) (htame _ rfl)

/-! ## Elements -/

/-- The stretches of an element. -/
def elementStretches : Matched Node → List Stretch
  | .token token => tokenStretches token
  | .node _ node => node.stretches

/-- The texts that an element may put into the body of a macro. -/
def elementBodies : Matched Node → List String
  | .token _ => []
  | .node _ node => node.bodies

/-- An element inside a directive. -/
def IsInner (Q : String → Prop) : Matched Node → Prop
  | .token token => tokenStretches token = [] ∧ Q token.text
  | .node _ node => node.stretches = [] ∧ node.Holds Q

/-- A word for elements inside a directive. -/
def isInnerWord : Word TokenKind Nonterminal → Bool
  | .token kind => kind ≠ .newline && kind ≠ .text
  | .node head => head.place = .inner

theorem fills_stretches : ∀ {words : List (Word TokenKind Nonterminal)} {elements : List (Matched Node)} {tokens : List Token},
    alphabet.Fills (Holds Q) (Laid Q) words elements tokens → tokens.flatMap tokenStretches = elements.flatMap elementStretches
  | [], _, _, ⟨rfl, rfl⟩ => rfl
  | .token _ :: _, _, _, ⟨token, elements, tokens, _, _, rfl, rfl, hrest⟩ => by
    rw [List.flatMap_cons, List.flatMap_cons, fills_stretches hrest]
    rfl
  | .node _ :: _, _, _, ⟨symbol, node, front, elements, tokens, hnode, rfl, rfl, hrest⟩ => by
    rw [List.flatMap_append, List.flatMap_cons, fills_stretches hrest, hnode.stretches]
    rfl

theorem fills_holds : ∀ {words : List (Word TokenKind Nonterminal)} {elements : List (Matched Node)} {tokens : List Token},
    alphabet.Fills (Holds Q) (Laid Q) words elements tokens → ∀ body ∈ elements.flatMap elementBodies, Q body
  | [], _, _, ⟨rfl, rfl⟩ => List.forall_mem_nil _
  | .token _ :: _, _, _, ⟨token, elements, tokens, _, _, rfl, rfl, hrest⟩ => by
    rw [List.flatMap_cons]
    exact fills_holds hrest
  | .node _ :: _, _, _, ⟨symbol, node, front, elements, tokens, hnode, rfl, rfl, hrest⟩ =>
    List.forall_mem_append.mpr ⟨hnode.holds, fills_holds hrest⟩

theorem fills_isInner : ∀ {words : List (Word TokenKind Nonterminal)} {elements : List (Matched Node)} {tokens : List Token},
    alphabet.Fills (Holds Q) (Laid Q) words elements tokens → (∀ word ∈ words, isInnerWord word = true) →
    ∀ element ∈ elements, IsInner Q element
  | [], _, _, ⟨rfl, rfl⟩, _ => by simp
  | .token kind :: _, _, _, ⟨token, elements, tokens, hadmits, hholds, rfl, rfl, hrest⟩, hwords => by
    obtain ⟨hkind, hwords⟩ := List.forall_mem_cons.mp hwords
    obtain ⟨hnewline, htext⟩ : kind ≠ .newline ∧ kind ≠ .text := by simpa [isInnerWord] using hkind
    refine List.forall_mem_cons.mpr ⟨⟨?_, admits_holds hadmits hholds hnewline htext⟩, fills_isInner hrest hwords⟩
    rw [admits_stretches hadmits, if_neg hnewline, if_neg htext]
  | .node head :: _, _, _, ⟨symbol, node, front, elements, tokens, hnode, rfl, rfl, hrest⟩, hwords => by
    obtain ⟨hhead, hwords⟩ := List.forall_mem_cons.mp hwords
    have hplace := hnode.place
    rw [show head.place = .inner by simpa [isInnerWord] using hhead] at hplace
    exact List.forall_mem_cons.mpr ⟨⟨hplace, hnode.holds⟩, fills_isInner hrest hwords⟩

theorem flatMap_elementStretches_of_isInner {elements : List (Matched Node)}
    (h : ∀ element ∈ elements, IsInner Q element) : elements.flatMap elementStretches = [] := by
  refine List.flatMap_eq_nil_iff.mpr fun element helement => ?_
  have := h element helement
  cases element with
  | token token => exact this.1
  | node symbol node => exact this.1

theorem fills_append {T : Token → Prop} {A : Nonterminal → List Token → Node → Prop} :
    ∀ {words words' : List (Word TokenKind Nonterminal)} {elements : List (Matched Node)} {tokens : List Token},
    alphabet.Fills T A (words ++ words') elements tokens → ∃ es es' ts ts', elements = es ++ es' ∧ tokens = ts ++ ts' ∧
      alphabet.Fills T A words es ts ∧ alphabet.Fills T A words' es' ts'
  | [], _, elements, tokens, h => ⟨[], elements, [], tokens, rfl, rfl, ⟨rfl, rfl⟩, h⟩
  | .token _ :: _, _, _, _, ⟨token, elements, tokens, hadmits, htoken, rfl, rfl, hrest⟩ => by
    obtain ⟨es, es', ts, ts', rfl, rfl, h, h'⟩ := fills_append hrest
    exact ⟨_, es', _, ts', rfl, rfl, ⟨token, es, ts, hadmits, htoken, rfl, rfl, h⟩, h'⟩
  | .node _ :: _, _, _, _, ⟨symbol, node, front, elements, tokens, hnode, rfl, rfl, hrest⟩ => by
    obtain ⟨es, es', ts, ts', rfl, rfl, h, h'⟩ := fills_append hrest
    exact ⟨_, es', _, ts', rfl, (List.append_assoc ..).symm, ⟨symbol, node, front, es, ts, hnode, rfl, rfl, h⟩, h'⟩

/-! ## Rules -/

/-- A rule inside directives builds a node without stretches. -/
def BuildsInner (Q : String → Prop) (r : Rule Node) : Prop := ∀ elements node, (∀ element ∈ elements, IsInner Q element) →
  r.build elements = .ok node → node.stretches = [] ∧ node.Holds Q

/-- A rule of a directive builds a node for one directive. -/
def BuildsLine (Q : String → Prop) (r : Rule Node) : Prop := ∀ elements node,
  (∀ body ∈ elements.flatMap elementBodies, Q body) → r.build elements = .ok node →
  node.stretches = [.directive] ∧ node.Holds Q

/-- All of a production stands inside directives. -/
def isInnerSpelling (p : Spelling TokenKind Nonterminal) : Bool := p.head.place = .inner && p.body.all isInnerWord

/-- A production is a directive: its body ends in a newline and has no other one. -/
def isLineSpelling (p : Spelling TokenKind Nonterminal) : Bool :=
  p.head.place = .line && p.body.getLast? = some (.token .newline) && p.body.dropLast.all isInnerWord

theorem BuildsInner.laid {r : Rule Node} (h : BuildsInner Q r) {p : Spelling TokenKind Nonterminal} (hp : isInnerSpelling p = true) :
    alphabet.Builds (Holds Q) (Laid Q) r p := by
  intro elements tokens node hfills hnode
  obtain ⟨hhead, hbody⟩ : p.head.place = .inner ∧ ∀ word ∈ p.body, isInnerWord word = true := by
    simpa [isInnerSpelling] using hp
  have hinner := fills_isInner hfills hbody
  obtain ⟨hstretches, hholds⟩ := h elements node hinner hnode
  refine ⟨?_, by rwa [hhead], hholds⟩
  rw [(fills_stretches hfills), flatMap_elementStretches_of_isInner hinner, hstretches]

theorem BuildsLine.laid {r : Rule Node} (h : BuildsLine Q r) {p : Spelling TokenKind Nonterminal} (hp : isLineSpelling p = true) :
    alphabet.Builds (Holds Q) (Laid Q) r p := by
  intro elements tokens node hfills hnode
  obtain ⟨⟨hhead, hlast⟩, hwords⟩ : (p.head.place = .line ∧ p.body.getLast? = some (.token .newline)) ∧
      ∀ word ∈ p.body.dropLast, isInnerWord word = true := by
    simpa [isLineSpelling] using hp
  obtain ⟨hstretches, hholds⟩ := h elements node (fills_holds hfills) hnode
  refine ⟨?_, by rwa [hhead], hholds⟩
  rw [(fills_stretches hfills), hstretches]
  rw [← List.dropLast_append_getLast? _ hlast] at hfills
  obtain ⟨es, es', ts, ts', rfl, rfl, hinner, token, -, -, hadmits, -, rfl, rfl, rfl, rfl⟩ := fills_append hfills
  rw [List.flatMap_append, flatMap_elementStretches_of_isInner (fills_isInner hinner hwords)]
  simpa [elementStretches] using admits_stretches hadmits

theorem integerOf_map {token : Token} {f : Int64 → Node} {node : Node} (h : (integerOf token).map f = .ok node) :
    ∃ i, node = f i := by
  cases hi : integerOf token with
  | error e =>
    rw [hi] at h
    cases h
  | ok i =>
    rw [hi] at h
    cases h
    exact ⟨i, rfl⟩

theorem passRule_inner (head body : String) : BuildsInner Q (passRule head body) := by
  intro elements node helements h
  simp only [passRule] at h
  split at h
  · cases h
    exact helements _ List.mem_cons_self
  · cases h

theorem binaryRule_inner (head body : String) (operator : BinaryOperator) : BuildsInner Q (binaryRule head body operator) := by
  intro elements node helements h
  simp only [binaryRule] at h
  split at h <;> cases h
  exact ⟨rfl, List.forall_mem_nil _⟩

theorem unaryRule_inner (head body : String) (operator : UnaryOperator) : BuildsInner Q (unaryRule head body operator) := by
  intro elements node helements h
  simp only [unaryRule] at h
  split at h <;> cases h
  exact ⟨rfl, List.forall_mem_nil _⟩

theorem callRules_inner : ∀ r ∈ callRules, BuildsInner Q r := by
  simp only [callRules, List.forall_mem_cons]
  refine ⟨passRule_inner _ _, ?_, ?_, ?_, ?_, ?_, ?_, ?_, List.forall_mem_nil _⟩
  all_goals
    intro elements node helements h
    simp only at h
    split at h <;> cases h
    exact ⟨rfl, List.forall_mem_nil _⟩

theorem operatorRules_inner : ∀ r ∈ operatorRules, BuildsInner Q r := by
  simp only [operatorRules, List.forall_mem_cons, passRule_inner, binaryRule_inner, unaryRule_inner, true_and]
  refine ⟨?_, ?_, List.forall_mem_nil _⟩
  · intro elements node helements h
    simp only at h
    split at h
    · obtain ⟨i, rfl⟩ := integerOf_map h
      exact ⟨rfl, List.forall_mem_nil _⟩
    · cases h
  · intro elements node helements h
    simp only at h
    split at h <;> cases h
    exact helements _ (List.mem_cons_of_mem _ List.mem_cons_self)

theorem listRules_inner : ∀ r ∈ definitionRules.drop 6, BuildsInner Q r := by
  simp only [definitionRules, List.drop, List.forall_mem_cons]
  refine ⟨?_, ?_, ?_, ?_, List.forall_mem_nil _⟩
  all_goals
    intro elements node helements h
    simp only at h
    split at h <;> cases h
    refine ⟨rfl, ?_⟩
  · simpa [IsInner, Node.Holds, Node.bodies] using And.right (helements _ List.mem_cons_self)
  · obtain ⟨⟨-, hholds⟩, ⟨-, htoken⟩, -⟩ := by simpa only [List.forall_mem_cons] using helements
    simp only [Node.Holds, Node.bodies, List.map_append, List.forall_mem_append]
    exact ⟨hholds, by simpa using htoken⟩
  · exact List.forall_mem_nil _
  · exact List.forall_mem_nil _

theorem definitionRules_line (hQ : Joins Q) : ∀ r ∈ definitionRules.take 6, BuildsLine Q r := by
  simp only [definitionRules, List.take, List.forall_mem_cons]
  refine ⟨?_, ?_, ?_, ?_, ?_, ?_, List.forall_mem_nil _⟩
  all_goals
    intro elements node helements h
    simp only at h
    split at h <;> cases h
    refine ⟨rfl, List.forall_mem_singleton.mpr ?_⟩
  -- the body is empty, or joins the tokens of a list
  · exact hQ.empty
  · exact hQ.of_holds fun body hbody => helements body (by simp [elementBodies, hbody])
  · exact hQ.empty
  · exact hQ.of_holds fun body hbody => helements body (by simp [elementBodies, hbody])
  · exact hQ.empty
  · exact hQ.of_holds fun body hbody => helements body (by simp [elementBodies, hbody])

theorem directiveRules_line : ∀ r ∈ directiveRules, BuildsLine Q r := by
  simp only [directiveRules, List.forall_mem_cons]
  and_intros
  on_goal 15 => exact List.forall_mem_nil _
  all_goals
    intro elements node helements h
    simp only at h
    split at h
  all_goals
    first
      | cases h <;> exact ⟨rfl, List.forall_mem_nil _⟩
      | obtain ⟨i, rfl⟩ := integerOf_map h
        exact ⟨rfl, List.forall_mem_nil _⟩

theorem conditionRules_line : ∀ r ∈ conditionalRules.drop 11, BuildsLine Q r := by
  simp only [conditionalRules, List.drop, List.forall_mem_cons]
  refine ⟨?_, ?_, ?_, ?_, ?_, ?_, List.forall_mem_nil _⟩
  all_goals
    intro elements node helements h
    simp only at h
    split at h <;> cases h
    exact ⟨rfl, List.forall_mem_nil _⟩

/-- An outer rule builds a node for the stretches of its elements. -/
theorem laid_outer {r : Rule Node} {p : Spelling TokenKind Nonterminal} (hhead : p.head.place = .outer)
    (h : ∀ elements tokens node, alphabet.Fills (Holds Q) (Laid Q) p.body elements tokens → r.build elements = .ok node →
      elements.flatMap elementStretches = node.stretches ∧ node.bodies ⊆ elements.flatMap elementBodies) :
    alphabet.Builds (Holds Q) (Laid Q) r p := by
  intro elements tokens node hfills hnode
  obtain ⟨hstretches, hbodies⟩ := h elements tokens node hfills hnode
  refine ⟨(fills_stretches hfills).trans hstretches, ?_, fun body hbody => (fills_holds hfills) body (hbodies hbody)⟩
  rw [hhead]
  trivial

theorem passRule_laid (head body : String) {p : Spelling TokenKind Nonterminal} (hhead : p.head.place = .outer) :
    alphabet.Builds (Holds Q) (Laid Q) (passRule head body) p := by
  refine laid_outer hhead fun elements tokens node _ h => ?_
  simp only [passRule] at h
  split at h <;> cases h
  simp [elementStretches, elementBodies]

theorem particleRules_laid : List.Forall₂ (alphabet.Builds (Holds Q) (Laid Q)) particleRules particleProductions := by
  simp only [particleRules, particleProductions, List.forall₂_cons, List.forall₂_nil_left_iff, and_true]
  and_intros
  all_goals try exact passRule_laid _ _ rfl
  all_goals
    refine laid_outer rfl fun elements tokens node hfills h => ?_
    dsimp only at h
  · split at h <;> cases h
    simp [elementStretches, elementBodies, Node.stretches, Node.bodies]
  · -- the token that begins a single expression ends no stretch
    obtain ⟨token, _, _, hadmits, -, rfl, rfl, symbol, n, front, _, _, -, rfl, rfl, rfl, rfl⟩ := hfills
    cases h
    simp [elementStretches, elementBodies, admits_stretches hadmits]
  · split at h <;> cases h
    exact ⟨rfl, List.forall_mem_nil _⟩
  · split at h <;> cases h
    simp [elementStretches, elementBodies, Node.stretches, Node.bodies, stretchesAll_append, bodiesAll_append,
      stretchesAll, bodiesAll]
  · obtain ⟨token, _, _, hadmits, -, rfl, rfl, rfl, rfl⟩ := hfills
    cases h
    simp [elementStretches, elementBodies, admits_stretches hadmits, Node.stretches, Node.bodies, Particle.stretches,
      Particle.bodies]

theorem conditionalRules_laid :
    List.Forall₂ (alphabet.Builds (Holds Q) (Laid Q)) (conditionalRules.take 11) (conditionalProductions.take 11) := by
  simp only [conditionalRules, conditionalProductions, List.take, List.forall₂_cons, List.forall₂_nil_left_iff, and_true]
  and_intros
  all_goals
    refine laid_outer rfl fun elements tokens node hfills h => ?_
    dsimp only at h
  -- a rule may drop the node of `#endif` or `#else`; that node is a directive all the same
  · obtain ⟨_, _, _, _, _, -, rfl, -, _, endif, _, _, _, hendif, rfl, -, rfl, -⟩ := hfills
    have hline : endif.stretches = [.directive] := hendif.place
    split at h <;> cases h
    rename_i heq
    cases heq
    simp only [List.flatMap_cons, elementStretches, elementBodies, hline]
    generalize endif.bodies = bodies
    simp [Node.stretches, Node.bodies, Particle.stretches, Particle.bodies, branchStretches, branchBodies]
  · obtain ⟨_, _, _, _, _, -, rfl, -, _, _, _, _, _, -, rfl, -, _, endif, _, _, _, hendif, rfl, -, rfl, -⟩ := hfills
    have hline : endif.stretches = [.directive] := hendif.place
    split at h <;> cases h
    rename_i otherwise _ heq
    cases heq
    simp only [List.flatMap_cons, elementStretches, elementBodies, hline]
    generalize endif.bodies = bodies
    cases otherwise <;>
      simp [Node.stretches, Node.bodies, Particle.stretches, Particle.bodies, branchStretches, branchBodies]
    exact fun body hbody => by simp [hbody]
  iterate 7
    · split at h <;> cases h
      simp [elementStretches, elementBodies, Node.stretches, Node.bodies, branchStretches_append, branchBodies_append,
        branchStretches, branchBodies]
  · obtain ⟨_, _, _, _, _, -, rfl, -, _, mark, _, _, _, hmark, rfl, -, _, _, _, _, _, -, rfl, -, rfl, -⟩ := hfills
    have hline : mark.stretches = [.directive] := hmark.place
    split at h <;> cases h
    rename_i heq
    cases heq
    simp only [List.flatMap_cons, elementStretches, elementBodies, hline]
    generalize mark.bodies = bodies
    simp [Node.stretches, Node.bodies]
  · obtain ⟨_, mark, _, _, _, hmark, rfl, -, _, _, _, _, _, -, rfl, -, rfl, -⟩ := hfills
    have hline : mark.stretches = [.directive] := hmark.place
    split at h <;> cases h
    rename_i heq
    cases heq
    simp only [List.flatMap_cons, elementStretches, elementBodies, hline]
    generalize mark.bodies = bodies
    simp [Node.stretches, Node.bodies, branchStretches, branchBodies]

/-- Members of two lists of one length stand in a relation if all members do. -/
theorem forall₂_of_forall_mem {α β : Type} {R : α → β → Prop} : ∀ {as : List α} {bs : List β}, as.length = bs.length →
    (∀ a ∈ as, ∀ b ∈ bs, R a b) → List.Forall₂ R as bs
  | [], [], _, _ => .nil
  | a :: as, b :: bs, hlength, h => by
    refine .cons (h a List.mem_cons_self b List.mem_cons_self) (forall₂_of_forall_mem (Nat.succ.inj hlength) ?_)
    exact fun x hx y hy => h x (List.mem_cons_of_mem a hx) y (List.mem_cons_of_mem b hy)

theorem forall₂_append {α β : Type} {R : α → β → Prop} {as as' : List α} {bs bs' : List β} (h : List.Forall₂ R as bs)
    (h' : List.Forall₂ R as' bs') : List.Forall₂ R (as ++ as') (bs ++ bs') :=
  List.rel_append h h'

theorem forall₂_split {α β : Type} {R : α → β → Prop} {as : List α} {bs : List β} (n : Nat)
    (h : List.Forall₂ R (as.take n) (bs.take n)) (h' : List.Forall₂ R (as.drop n) (bs.drop n)) : List.Forall₂ R as bs := by
  rw [← List.take_append_drop n as, ← List.take_append_drop n bs]
  exact forall₂_append h h'

theorem forall₂_line {rs : List (Rule Node)} {ps : List (Spelling TokenKind Nonterminal)} (hlength : rs.length = ps.length)
    (hrs : ∀ r ∈ rs, BuildsLine Q r) (hps : ∀ p ∈ ps, isLineSpelling p = true) :
    List.Forall₂ (alphabet.Builds (Holds Q) (Laid Q)) rs ps :=
  forall₂_of_forall_mem hlength fun r hr p hp => (hrs r hr).laid (hps p hp)

theorem forall₂_inner {rs : List (Rule Node)} {ps : List (Spelling TokenKind Nonterminal)} (hlength : rs.length = ps.length)
    (hrs : ∀ r ∈ rs, BuildsInner Q r) (hps : ∀ p ∈ ps, isInnerSpelling p = true) :
    List.Forall₂ (alphabet.Builds (Holds Q) (Laid Q)) rs ps :=
  forall₂_of_forall_mem hlength fun r hr p hp => (hrs r hr).laid (hps p hp)

/-- **Every rule keeps the layout.** -/
theorem rules_laid (hQ : Joins Q) : List.Forall₂ (alphabet.Builds (Holds Q) (Laid Q)) rules productions := by
  have hdefinition : List.Forall₂ (alphabet.Builds (Holds Q) (Laid Q)) definitionRules definitionProductions :=
    forall₂_split 6 (forall₂_line rfl (definitionRules_line hQ) (by decide)) (forall₂_inner rfl listRules_inner (by decide))
  have hdirective : List.Forall₂ (alphabet.Builds (Holds Q) (Laid Q)) directiveRules directiveProductions :=
    forall₂_line rfl directiveRules_line (by decide)
  have hconditional : List.Forall₂ (alphabet.Builds (Holds Q) (Laid Q)) conditionalRules conditionalProductions :=
    forall₂_split 11 conditionalRules_laid (forall₂_line rfl conditionRules_line (by decide))
  have hcall : List.Forall₂ (alphabet.Builds (Holds Q) (Laid Q)) callRules callProductions :=
    forall₂_inner rfl callRules_inner (by decide)
  have hoperator : List.Forall₂ (alphabet.Builds (Holds Q) (Laid Q)) operatorRules operatorProductions :=
    forall₂_inner rfl operatorRules_inner (by decide)
  rw [rules, productions]
  exact forall₂_append (forall₂_append (forall₂_append (forall₂_append (forall₂_append particleRules_laid hdefinition)
    hdirective) hconditional) hcall) hoperator

theorem eq_file_of_particlesOf {result : Except LanguageError Node} {particles : List Particle}
    (h : particlesOf result = .ok particles) : result = .ok (.file particles) := by
  unfold particlesOf at h
  split at h <;> cases h
  rfl

/-- **The layout of a parse**: the particles of a source stand for the stretches its tokens end, and the bodies of its
macros hold no line breaks. -/
theorem parse_laid {source : String} {particles : List Particle} (h : parse source = .ok particles)
    (hflat : ∀ token ∈ tokens source, Flat token) : (tokens source).flatMap tokenStretches = stretchesAll particles ∧
      ∀ body ∈ bodiesAll particles, '\n' ∉ body.toList := by
  have hlaid := alphabet_covers.parse_attribute (rules_laid joins_flat) (exists_kind_of_mem_tokens source) hflat
    (eq_file_of_particlesOf h)
  exact ⟨hlaid.stretches, hlaid.holds⟩

end ShaderFront.Directive
