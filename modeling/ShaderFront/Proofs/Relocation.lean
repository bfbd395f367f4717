import Mathlib
import ShaderFront.Proofs.Definitions
import ShaderFront.Proofs.Placement

/-!
# Readings elsewhere in a source

The rules of directives look at the gaps between tokens and at nothing else of where they stand. So what is read from some tokens
is read from the same tokens at another place (`Directive.Read.relocate`), with the places of its includes changed; the numbers of
the nonterminals do not matter either.
-/

namespace ShaderFront.Directive

/-! ## What is moved -/

mutual

/-- The particle with other spans of its includes. -/
def Particle.moved (f : Span → Span) : Particle → Particle
  | .include path span => .include path (f span)
  | .conditional branches none => .conditional (movedBranches f branches) none
  | .conditional branches (some body) => .conditional (movedBranches f branches) (some (movedAll f body))
  | p => p

/-- The particles with other spans of their includes. -/
def movedAll (f : Span → Span) : List Particle → List Particle
  | [] => []
  | p :: rest => p.moved f :: movedAll f rest

/-- The branches with other spans of their includes. -/
def movedBranches (f : Span → Span) : List (BranchOf Particle) → List (BranchOf Particle)
  | [] => []
  | ⟨condition, body⟩ :: rest => ⟨condition, movedAll f body⟩ :: movedBranches f rest

end

theorem Particle.moved_conditional (f : Span → Span) (bs : List Branch) (otherwise : Option (List Particle)) :
    (Particle.conditional bs otherwise).moved f = .conditional (movedBranches f bs) (otherwise.map (movedAll f)) := by
  cases otherwise <;> simp [Particle.moved]

/-- The branch with other spans of its includes. -/
def movedBranch (f : Span → Span) (b : Branch) : Branch := ⟨b.condition, movedAll f b.body⟩

theorem movedAll_append (f : Span → Span) (as bs : List Particle) : movedAll f (as ++ bs) = movedAll f as ++ movedAll f bs := by
  induction as with
  | nil => simp [movedAll]
  | cons a as ih => simp [movedAll, ih]

theorem movedBranches_cons (f : Span → Span) (b : Branch) (bs : List Branch) :
    movedBranches f (b :: bs) = movedBranch f b :: movedBranches f bs := by
  rw [movedBranches, movedBranch]

theorem movedBranches_append (f : Span → Span) (as bs : List Branch) :
    movedBranches f (as ++ bs) = movedBranches f as ++ movedBranches f bs := by
  induction as with
  | nil => simp [movedBranches]
  | cons a as ih => simp [movedBranches_cons, ih]

/-- The node with its tokens and includes moved to the right. -/
def Node.shifted (offset : Nat) : Node → Node
  | .file ps => .file (movedAll (·.shifted offset) ps)
  | .particles ps => .particles (movedAll (·.shifted offset) ps)
  | .particle p => .particle (p.moved (·.shifted offset))
  | .tokens ts => .tokens (ts.map (·.shifted offset))
  | .branch b => .branch (movedBranch (·.shifted offset) b)
  | .branches bs => .branches (movedBranches (·.shifted offset) bs)
  | .alternatives bs otherwise =>
    .alternatives (movedBranches (·.shifted offset) bs) (otherwise.map (movedAll (·.shifted offset)))
  | n => n

/-- The element moved to the right, without the number of its nonterminal. -/
def moved (offset : Nat) : Matched Node → Matched Node
  | .token t => .token (t.shifted offset)
  | .node _ n => .node 0 (n.shifted offset)

section Inversion

variable {offset : Nat} {n : Node} {element : Matched Node}

@[simp] theorem Node.shifted_file (ps : List Particle) : (Node.file ps).shifted offset = .file (movedAll (·.shifted offset) ps) := rfl

@[simp] theorem Node.shifted_particles (ps : List Particle) :
    (Node.particles ps).shifted offset = .particles (movedAll (·.shifted offset) ps) := rfl

@[simp] theorem Node.shifted_particle (p : Particle) : (Node.particle p).shifted offset = .particle (p.moved (·.shifted offset)) := rfl

@[simp] theorem Node.shifted_tokens (ts : List Token) : (Node.tokens ts).shifted offset = .tokens (ts.map (·.shifted offset)) := rfl

@[simp] theorem Node.shifted_branch (b : Branch) : (Node.branch b).shifted offset = .branch (movedBranch (·.shifted offset) b) := rfl

@[simp] theorem Node.shifted_branches (bs : List Branch) :
    (Node.branches bs).shifted offset = .branches (movedBranches (·.shifted offset) bs) := rfl

@[simp] theorem Node.shifted_alternatives (bs : List Branch) (otherwise : Option (List Particle)) :
    (Node.alternatives bs otherwise).shifted offset =
      .alternatives (movedBranches (·.shifted offset) bs) (otherwise.map (movedAll (·.shifted offset))) := rfl

@[simp] theorem Node.shifted_formals (names : List String) : (Node.formals names).shifted offset = .formals names := rfl

@[simp] theorem Node.shifted_condition (c : Condition) : (Node.condition c).shifted offset = .condition c := rfl

@[simp] theorem Node.shifted_expression (e : Expression) : (Node.expression e).shifted offset = .expression e := rfl

@[simp] theorem Node.shifted_arguments (es : List Expression) : (Node.arguments es).shifted offset = .arguments es := rfl

@[simp] theorem Node.shifted_marker : (Node.marker).shifted offset = .marker := rfl

@[simp] theorem moved_eq_token {t : Token} : moved offset element = .token t ↔ ∃ t', element = .token t' ∧ t'.shifted offset = t := by
  cases element <;> simp [moved]

@[simp] theorem moved_eq_node {symbol : SymbolId} : moved offset element = .node symbol n ↔
    symbol = 0 ∧ ∃ symbol' n', element = .node symbol' n' ∧ n'.shifted offset = n := by
  cases element <;> simp [moved, eq_comm]

@[simp] theorem Node.shifted_eq_particles {ps : List Particle} : n.shifted offset = .particles ps ↔
    ∃ ps', n = .particles ps' ∧ movedAll (·.shifted offset) ps' = ps := by
  cases n <;> simp

@[simp] theorem Node.shifted_eq_particle {p : Particle} : n.shifted offset = .particle p ↔
    ∃ p', n = .particle p' ∧ p'.moved (·.shifted offset) = p := by
  cases n <;> simp

@[simp] theorem Node.shifted_eq_tokens {ts : List Token} : n.shifted offset = .tokens ts ↔
    ∃ ts', n = .tokens ts' ∧ ts'.map (·.shifted offset) = ts := by
  cases n <;> simp

@[simp] theorem Node.shifted_eq_branch {b : Branch} : n.shifted offset = .branch b ↔
    ∃ b', n = .branch b' ∧ movedBranch (·.shifted offset) b' = b := by
  cases n <;> simp

@[simp] theorem Node.shifted_eq_branches {bs : List Branch} : n.shifted offset = .branches bs ↔
    ∃ bs', n = .branches bs' ∧ movedBranches (·.shifted offset) bs' = bs := by
  cases n <;> simp

@[simp] theorem Node.shifted_eq_alternatives {bs : List Branch} {otherwise : Option (List Particle)} :
    n.shifted offset = .alternatives bs otherwise ↔ ∃ bs' otherwise', n = .alternatives bs' otherwise' ∧
      movedBranches (·.shifted offset) bs' = bs ∧ otherwise'.map (movedAll (·.shifted offset)) = otherwise := by
  cases n <;> simp

@[simp] theorem Node.shifted_eq_formals {names : List String} : n.shifted offset = .formals names ↔ n = .formals names := by
  cases n <;> simp

@[simp] theorem Node.shifted_eq_condition {c : Condition} : n.shifted offset = .condition c ↔ n = .condition c := by
  cases n <;> simp

@[simp] theorem Node.shifted_eq_expression {e : Expression} : n.shifted offset = .expression e ↔ n = .expression e := by
  cases n <;> simp

@[simp] theorem Node.shifted_eq_arguments {es : List Expression} : n.shifted offset = .arguments es ↔ n = .arguments es := by
  cases n <;> simp

end Inversion

/-! ## Rules -/

theorem joinTokensFrom_shifted (offset : Nat) : ∀ (last : Nat) (ts : List Token),
    joinTokensFrom (last + offset) (ts.map (·.shifted offset)) = joinTokensFrom last ts
  | _, [] => rfl
  | last, t :: ts => by
    rw [List.map_cons, joinTokensFrom, joinTokensFrom, ← joinTokensFrom_shifted offset t.span.stop ts]
    simp [Token.shifted, Span.shifted]

@[simp] theorem joinTokens_shifted (offset : Nat) (ts : List Token) : joinTokens (ts.map (·.shifted offset)) = joinTokens ts := by
  cases ts with
  | nil => rfl
  | cons t ts => exact congrArg (t.text ++ ·) (joinTokensFrom_shifted offset t.span.stop ts)

@[simp] theorem integerOf_shifted (offset : Nat) (t : Token) : integerOf (t.shifted offset) = integerOf t := rfl

/-- A rule builds the same node elsewhere. -/
def BuildsElsewhere (r : Rule Node) : Prop := ∀ offset elements,
  r.build (elements.map (moved offset)) = (r.build elements).map (Node.shifted offset)

theorem passRule_elsewhere (head body : String) : BuildsElsewhere (passRule head body) := by
  intro offset elements
  simp only [passRule]
  split <;> split <;> simp_all [List.map_eq_cons_iff, unfit, Except.map]

theorem binaryRule_elsewhere (head body : String) (operator : BinaryOperator) : BuildsElsewhere (binaryRule head body operator) := by
  intro offset elements
  simp only [binaryRule]
  split <;> split <;> simp_all [List.map_eq_cons_iff, unfit, Except.map]
  grind

theorem unaryRule_elsewhere (head body : String) (operator : UnaryOperator) : BuildsElsewhere (unaryRule head body operator) := by
  intro offset elements
  simp only [unaryRule]
  split <;> split <;> simp_all [List.map_eq_cons_iff, unfit, Except.map]

theorem particleRules_elsewhere : ∀ r ∈ particleRules, BuildsElsewhere r := by
  simp only [particleRules, passRule_elsewhere, List.forall_mem_cons, List.not_mem_nil, false_implies, implies_true, true_and, and_true]
  and_intros <;> intro offset elements
  all_goals
    dsimp only
    split
    · rename_i heq
      simp only [List.map_eq_cons_iff, List.map_eq_nil_iff, moved_eq_token, moved_eq_node, Node.shifted_eq_particles, Node.shifted_eq_particle] at heq
      grind [Except.map, Node.shifted_file, Node.shifted_particles, Node.shifted_particle, movedAll, movedAll_append, Particle.moved, Token.text_shifted]
    · rename_i hunfit
      split
      · exact False.elim (by apply hunfit; rfl)
      · rfl

theorem definitionRules_elsewhere : ∀ r ∈ definitionRules, BuildsElsewhere r := by
  simp only [definitionRules, List.forall_mem_cons, List.not_mem_nil, false_implies, implies_true, and_true]
  and_intros <;> intro offset elements
  all_goals
    dsimp only
    split
    · rename_i heq
      simp only [List.map_eq_cons_iff, List.map_eq_nil_iff, moved_eq_token, moved_eq_node, Node.shifted_eq_tokens, Node.shifted_eq_formals] at heq
      grind [Except.map, Node.shifted_particle, Node.shifted_tokens, Node.shifted_formals, Particle.moved, joinTokens_shifted, Token.text_shifted]
    · rename_i hunfit
      split
      · exact False.elim (by apply hunfit; rfl)
      · rfl

theorem directiveRules_elsewhere : ∀ r ∈ directiveRules, BuildsElsewhere r := by
  simp only [directiveRules, List.forall_mem_cons, List.not_mem_nil, false_implies, implies_true, and_true]
  and_intros <;> intro offset elements
  all_goals
    dsimp only
    split
    · rename_i heq
      simp only [List.map_eq_cons_iff, List.map_eq_nil_iff, moved_eq_token, moved_eq_node, Node.shifted_eq_tokens] at heq
      grind [Except.map.eq_def, Node.shifted_particle, Particle.moved, joinTokens_shifted, Token.text_shifted, Token.shifted, integerOf_shifted]
    · rename_i hunfit
      split
      · exact False.elim (by apply hunfit; rfl)
      · rfl

theorem conditionalRules_elsewhere : ∀ r ∈ conditionalRules, BuildsElsewhere r := by
  simp only [conditionalRules, List.forall_mem_cons, List.not_mem_nil, false_implies, implies_true, and_true]
  and_intros <;> intro offset elements
  all_goals
    dsimp only
    split
    · rename_i heq
      simp only [List.map_eq_cons_iff, List.map_eq_nil_iff, moved_eq_token, moved_eq_node, Node.shifted_eq_particles, Node.shifted_eq_branch, Node.shifted_eq_branches, Node.shifted_eq_alternatives, Node.shifted_eq_condition, Node.shifted_eq_expression] at heq
      grind [Except.map, Node.shifted_particle, Node.shifted_branch, Node.shifted_branches, Node.shifted_alternatives, Node.shifted_condition, Node.shifted_marker, Particle.moved_conditional, movedBranch, movedBranches, movedBranches_cons, movedBranches_append, Token.text_shifted]
    · rename_i hunfit
      split
      · exact False.elim (by apply hunfit; rfl)
      · rfl

theorem callRules_elsewhere : ∀ r ∈ callRules, BuildsElsewhere r := by
  simp only [callRules, passRule_elsewhere, List.forall_mem_cons, List.not_mem_nil, false_implies, implies_true, true_and, and_true]
  and_intros <;> intro offset elements
  all_goals
    dsimp only
    split
    · rename_i heq
      simp only [List.map_eq_cons_iff, List.map_eq_nil_iff, moved_eq_token, moved_eq_node, Node.shifted_eq_expression, Node.shifted_eq_arguments] at heq
      grind [Except.map, Node.shifted_expression, Node.shifted_arguments, Token.text_shifted]
    · rename_i hunfit
      split
      · exact False.elim (by apply hunfit; rfl)
      · rfl

theorem operatorRules_elsewhere : ∀ r ∈ operatorRules, BuildsElsewhere r := by
  simp only [operatorRules, passRule_elsewhere, binaryRule_elsewhere, unaryRule_elsewhere, List.forall_mem_cons, List.not_mem_nil, false_implies, implies_true, true_and, and_true]
  and_intros <;> intro offset elements
  all_goals
    dsimp only
    split
    · rename_i heq
      simp only [List.map_eq_cons_iff, List.map_eq_nil_iff, moved_eq_token, moved_eq_node] at heq
      grind [Except.map.eq_def, Node.shifted_expression, integerOf_shifted]
    · rename_i hunfit
      split
      · exact False.elim (by apply hunfit; rfl)
      · rfl

theorem rules_elsewhere : ∀ r ∈ rules, BuildsElsewhere r := by
  simp only [rules, List.forall_mem_append]
  exact ⟨⟨⟨⟨⟨particleRules_elsewhere, definitionRules_elsewhere⟩, directiveRules_elsewhere⟩, conditionalRules_elsewhere⟩,
    callRules_elsewhere⟩, operatorRules_elsewhere⟩

/-- From elements that differ in their place a rule builds nodes that differ in their place. -/
theorem BuildsElsewhere.exists_node {r : Rule Node} (h : BuildsElsewhere r) {offset offset' : Nat}
    {elements elements' : List (Matched Node)} {node : Node}
    (hmoved : elements'.map (moved offset') = elements.map (moved offset)) (hnode : r.build elements = .ok node) :
    ∃ node', r.build elements' = .ok node' ∧ node'.shifted offset' = node.shifted offset := by
  have hbuild : (r.build elements').map (Node.shifted offset') = .ok (node.shifted offset) := by
    rw [← h, hmoved, h, hnode]
    rfl
  cases hnode' : r.build elements' with
  | ok node' =>
    rw [hnode'] at hbuild
    exact ⟨node', rfl, Except.ok.inj hbuild⟩
  | error e =>
    rw [hnode'] at hbuild
    cases hbuild

/-! ## Readings -/

variable {number number' : Nonterminal → SymbolId} {offset offset' : Nat}

/-- Tokens of a reading, moved to the right. -/
def movedFront (offset : Nat) (front : List (TokenKind × Token)) : List (TokenKind × Token) :=
  front.map fun r => (r.1, r.2.shifted offset)

theorem movedFront_eq_cons {front : List (TokenKind × Token)} {kind : TokenKind} {token : Token}
    {rest : List (TokenKind × Token)} (h : movedFront offset' front = movedFront offset ((kind, token) :: rest)) :
    ∃ token' rest', front = (kind, token') :: rest' ∧ token'.shifted offset' = token.shifted offset ∧
      movedFront offset' rest' = movedFront offset rest := by
  obtain ⟨r, rest', rfl, hr, hrest⟩ := List.map_eq_cons_iff.mp h
  obtain ⟨hkind, htoken⟩ := Prod.ext_iff.mp hr
  exact ⟨r.2, rest', by rw [← show r.1 = kind from hkind], htoken, hrest⟩

theorem symbol_eq_of_shifted {t t' : Token} (h : t'.shifted offset' = t.shifted offset) : t'.symbol = t.symbol := by
  simpa using congrArg Token.symbol h

/-- What may follow a dot may follow it elsewhere. -/
theorem opens_head?_moved {id dot : Nat} {front front' : List (TokenKind × Token)}
    (hfront : movedFront offset' front' = movedFront offset front) (h : ∀ next ∈ front.head?, Opens id dot next) :
    ∀ next ∈ front'.head?, Opens id dot next := by
  cases front with
  | nil =>
    obtain rfl := List.map_eq_nil_iff.mp hfront
    nofun
  | cons r rest =>
    obtain ⟨token', rest', rfl, htoken, -⟩ := movedFront_eq_cons hfront
    rintro _ ⟨⟩
    have hr : Opens id dot r := h r rfl
    simpa only [Opens, symbol_eq_of_shifted htoken] using hr

mutual

/-- **What is read from some tokens is read from them at another place**, whatever the numbers of the nonterminals. -/
theorem Read.relocate : ∀ {head : Nonterminal} {front front' : List (TokenKind × Token)} {node : Node},
    Read number head front node → movedFront offset' front' = movedFront offset front →
    ∃ node', Read number' head front' node' ∧ node'.shifted offset' = node.shifted offset
  | _, _, _, _, .rule hr hp hbody hnode, hfront => by
    obtain ⟨elements', hbody', hmoved⟩ := ReadAll.relocate hbody hfront
    obtain ⟨node', hnode', heq⟩ := (rules_elsewhere _ (List.mem_of_getElem? hr)).exists_node hmoved hnode
    exact ⟨node', .rule hr hp hbody' hnode', heq⟩

theorem ReadAll.relocate : ∀ {id dot : Nat} {words : List (Word TokenKind Nonterminal)} {elements : List (Matched Node)}
    {front front' : List (TokenKind × Token)}, alphabet.ReadsAll language number Opens id dot words elements front →
    movedFront offset' front' = movedFront offset front →
    ∃ elements', alphabet.ReadsAll language number' Opens id dot words elements' front' ∧
      elements'.map (moved offset') = elements.map (moved offset)
  | _, _, _, _, _, _, .nil, hfront => by
    obtain rfl := List.map_eq_nil_iff.mp hfront
    exact ⟨[], .nil, rfl⟩
  | _, _, _, _, _, _, .token hadmits hnext hrest, hfront => by
    obtain ⟨token', rest', rfl, htoken, hmoved⟩ := movedFront_eq_cons hfront
    obtain ⟨elements', hrest', helements⟩ := ReadAll.relocate hrest hmoved
    refine ⟨.token token' :: elements', .token ?_ (opens_head?_moved hmoved hnext) hrest', ?_⟩
    · simpa only [Alphabet.Admits, symbol_eq_of_shifted htoken] using hadmits
    · rw [List.map_cons, List.map_cons, helements, moved, moved, htoken]
  | _, _, _, _, _, _, .node hread hnext hrest, hfront => by
    rw [movedFront, movedFront, List.map_append] at hfront
    obtain ⟨left, right, rfl, hleft, hright⟩ := List.map_eq_append_iff.mp hfront
    obtain ⟨node', hread', hnode⟩ := Read.relocate hread hleft
    obtain ⟨elements', hrest', helements⟩ := ReadAll.relocate hrest hright
    refine ⟨_, .node hread' (opens_head?_moved hright hnext) hrest', ?_⟩
    rw [List.map_cons, List.map_cons, helements, moved, moved, hnode]

end

end ShaderFront.Directive
