import Mathlib
import ShaderFront.Proofs.Layout
import ShaderFront.Proofs.Relocation

/-!
# Particles in the place of an include

What is read as a list of particles can stand wherever an include stands: the tokens around it are read as before, and their
particles are those that were there, with the list in the place of the include (`Directive.Read.graft`). So a source does not care
whether its parts are parsed on their own, as long as each is a list of particles.
-/

namespace ShaderFront

/-! ## What all readings have in common -/

namespace Alphabet

variable {K H N : Type} {a : Alphabet K H} {l : Language N} {number : H → SymbolId} {clear : Nat → Nat → K × Token → Prop}
  {T : Token → Prop} {A : H → List Token → N → Prop}

theorem forall₂_getElem? {α β : Type} {R : α → β → Prop} {as : List α} {bs : List β} (h : List.Forall₂ R as bs) {i : Nat} {a : α}
    {b : β} (ha : as[i]? = some a) (hb : bs[i]? = some b) : R a b := by
  obtain ⟨halt, rfl⟩ := List.getElem?_eq_some_iff.mp ha
  obtain ⟨hblt, rfl⟩ := List.getElem?_eq_some_iff.mp hb
  exact h.get halt hblt

mutual

/-- What every production preserves holds of what is read. -/
theorem Reads.attribute (hrules : List.Forall₂ (a.Builds T A) l.rules a.productions) : ∀ {head : H} {front : List (K × Token)}
    {node : N}, a.Reads l number clear head front node → (∀ r ∈ front, T r.2) → A head (front.map Prod.snd) node
  | _, _, _, .rule hr hp hbody hnode, hfront =>
    forall₂_getElem? hrules hr hp _ _ _ (ReadsAll.fills hrules hbody hfront) hnode

theorem ReadsAll.fills (hrules : List.Forall₂ (a.Builds T A) l.rules a.productions) : ∀ {id dot : Nat} {words : List (Word K H)}
    {elements : List (Matched N)} {front : List (K × Token)}, a.ReadsAll l number clear id dot words elements front →
    (∀ r ∈ front, T r.2) → a.Fills T A words elements (front.map Prod.snd)
  | _, _, _, _, _, .nil, _ => ⟨rfl, rfl⟩
  | _, _, _, _, _, .token hadmits _ hrest, hfront =>
    ⟨_, _, _, hadmits, (List.forall_mem_cons.mp hfront).1, rfl, rfl, ReadsAll.fills hrules hrest (List.forall_mem_cons.mp hfront).2⟩
  | _, _, _, _, _, .node hread _ hrest, hfront =>
    ⟨_, _, _, _, _, Reads.attribute hrules hread (List.forall_mem_append.mp hfront).1, rfl, List.map_append,
      ReadsAll.fills hrules hrest (List.forall_mem_append.mp hfront).2⟩

end

/-- What is read for two bodies in a row is read for each of them. -/
theorem ReadsAll.append_inv {id : Nat} : ∀ {words words' : List (Word K H)} {dot : Nat} {elements : List (Matched N)}
    {front : List (K × Token)}, a.ReadsAll l number clear id dot (words ++ words') elements front →
    ∃ left right front' back, elements = left ++ right ∧ front = front' ++ back ∧
      a.ReadsAll l number clear id (dot + words.length) words' right back
  | [], _, _, elements, front, h => ⟨[], elements, [], front, rfl, rfl, h⟩
  | word :: words, words', dot, elements, front, h => by
    cases word with
    | token kind =>
      obtain ⟨token, others, rest, rfl, rfl, -, -, hrest⟩ := h.exists_token
      obtain ⟨left, right, front', back, rfl, rfl, hback⟩ := hrest.append_inv
      exact ⟨.token token :: left, right, (kind, token) :: front', back, rfl, rfl, by
        rwa [List.length_cons, Nat.add_comm words.length, ← Nat.add_assoc]⟩
    | node head =>
      obtain ⟨node, left', others, rest, rfl, rfl, -, hrest⟩ := h.exists_node
      obtain ⟨left, right, front', back, rfl, rfl, hback⟩ := hrest.append_inv
      exact ⟨.node (number head) node :: left, right, left' ++ front', back, rfl, (List.append_assoc ..).symm, by
        rwa [List.length_cons, Nat.add_comm words.length, ← Nat.add_assoc]⟩

end Alphabet

namespace Directive

variable {number : Nonterminal → SymbolId}

/-- The stretches that the tokens of a reading end. -/
def stretchesOf (front : List (TokenKind × Token)) : List Stretch := front.flatMap fun r => tokenStretches r.2

@[simp] theorem stretchesOf_append (front back : List (TokenKind × Token)) :
    stretchesOf (front ++ back) = stretchesOf front ++ stretchesOf back := List.flatMap_append

@[simp] theorem stretchesOf_cons (r : TokenKind × Token) (rest : List (TokenKind × Token)) :
    stretchesOf (r :: rest) = tokenStretches r.2 ++ stretchesOf rest := List.flatMap_cons

/-- A reading is laid out as its node. -/
theorem Read.laid {head : Nonterminal} {front : List (TokenKind × Token)} {node : Node} (h : Read number head front node) :
    stretchesOf front = node.stretches ∧ head.place.Allows node.stretches := by
  have hlaid := Alphabet.Reads.attribute (rules_laid (Q := fun _ => True) ⟨trivial, fun _ _ => trivial⟩) h
    fun _ _ _ _ => trivial
  refine ⟨?_, hlaid.place⟩
  rw [← hlaid.stretches, List.flatMap_map]
  rfl

/-! ## What is spliced -/

section Spliced

variable (path : String) (content : List Particle)

mutual

/-- The second list of particles is the first one with some content in the place of an include of a path. The number is that of the
stretches before the include. -/
inductive Spliced : Nat → List Particle → List Particle → Prop
  | here {front back : List Particle} {span : Span} :
      Spliced (stretchesAll front).length (front ++ .include path span :: back) (front ++ content ++ back)
  | within {n : Nat} {front back : List Particle} {p q : Particle} : SplicedIn n p q →
      Spliced ((stretchesAll front).length + n) (front ++ p :: back) (front ++ q :: back)

/-- The include stands in a branch of a conditional. -/
inductive SplicedIn : Nat → Particle → Particle → Prop
  | branches {n : Nat} {bs cs : List Branch} {otherwise : Option (List Particle)} : SplicedBranches n bs cs →
      SplicedIn n (.conditional bs otherwise) (.conditional cs otherwise)
  | otherwise {n : Nat} {bs : List Branch} {body body' : List Particle} : Spliced n body body' →
      SplicedIn ((branchStretches bs).length + 1 + n) (.conditional bs (some body)) (.conditional bs (some body'))

/-- The include stands in the body of one of some branches. -/
inductive SplicedBranches : Nat → List Branch → List Branch → Prop
  | body {n : Nat} {front back : List Branch} {condition : Condition} {body body' : List Particle} : Spliced n body body' →
      SplicedBranches ((branchStretches front).length + 1 + n) (front ++ ⟨condition, body⟩ :: back)
        (front ++ ⟨condition, body'⟩ :: back)

end

variable {path content} {n : Nat}

theorem Spliced.append {ps qs : List Particle} (h : Spliced path content n ps qs) (back : List Particle) :
    Spliced path content n (ps ++ back) (qs ++ back) := by
  cases h with
  | here => simpa using Spliced.here
  | within hp => simpa using Spliced.within hp

theorem SplicedBranches.append {bs cs : List Branch} (h : SplicedBranches path content n bs cs) (back : List Branch) :
    SplicedBranches path content n (bs ++ back) (cs ++ back) := by
  cases h with
  | body hbody => simpa using SplicedBranches.body hbody

theorem SplicedBranches.behind {bs cs : List Branch} (h : SplicedBranches path content n bs cs) (front : List Branch) :
    SplicedBranches path content ((branchStretches front).length + n) (front ++ bs) (front ++ cs) := by
  cases h with
  | @body n between back condition body body' hbody =>
    have hbehind := @SplicedBranches.body path content _ (front ++ between) back condition _ _ hbody
    rw [branchStretches_append, List.length_append, List.append_assoc, List.append_assoc] at hbehind
    simpa [Nat.add_assoc] using hbehind

/-- Another branch in front. -/
theorem SplicedIn.behind {bs cs : List Branch} {otherwise otherwise' : Option (List Particle)}
    (h : SplicedIn path content n (.conditional bs otherwise) (.conditional cs otherwise')) (front : List Branch) :
    SplicedIn path content ((branchStretches front).length + n) (.conditional (front ++ bs) otherwise)
      (.conditional (front ++ cs) otherwise') := by
  cases h with
  | branches hbranches => exact .branches (hbranches.behind front)
  | otherwise hbody =>
    have hbehind := @SplicedIn.otherwise path content _ (front ++ bs) _ _ hbody
    rw [branchStretches_append, List.length_append] at hbehind
    simpa [Nat.add_assoc] using hbehind

mutual

/-- The include is one of the stretches. -/
theorem Spliced.lt : ∀ {n : Nat} {ps qs : List Particle}, Spliced path content n ps qs → n < (stretchesAll ps).length
  | _, _, _, .here => by simp [stretchesAll_append, stretchesAll, Particle.stretches]
  | _, _, _, .within h => by
    have := SplicedIn.lt h
    simp only [stretchesAll_append, stretchesAll, List.length_append]
    omega

theorem SplicedIn.lt : ∀ {n : Nat} {p q : Particle}, SplicedIn path content n p q → n < p.stretches.length
  | _, _, _, @SplicedIn.branches _ _ _ _ _ none h => by
    have := SplicedBranches.lt h
    simp only [Particle.stretches, List.length_append]
    omega
  | _, _, _, @SplicedIn.branches _ _ _ _ _ (some _) h => by
    have := SplicedBranches.lt h
    simp only [Particle.stretches, List.length_append]
    omega
  | _, _, _, .otherwise h => by
    have := Spliced.lt h
    simp only [Particle.stretches, List.length_append, List.length_cons]
    omega

theorem SplicedBranches.lt : ∀ {n : Nat} {bs cs : List Branch}, SplicedBranches path content n bs cs →
    n < (branchStretches bs).length
  | _, _, _, .body h => by
    have := Spliced.lt h
    simp only [branchStretches_append, branchStretches, List.length_append, List.length_cons]
    omega

end

end Spliced

/-! ## Without places -/

mutual

theorem Particle.moved_moved (f g : Span → Span) : ∀ p : Particle, (p.moved g).moved f = p.moved (f ∘ g)
  | .text _ | .define _ | .undef _ | .error _ | .extension _ | .include _ _ | .line _ _ | .null | .pragma _ | .version _ _ => by
    simp [Particle.moved]
  | .conditional branches none => by simp [Particle.moved, movedBranches_movedBranches f g branches]
  | .conditional branches (some body) => by
    simp [Particle.moved, movedBranches_movedBranches f g branches, movedAll_movedAll f g body]

theorem movedAll_movedAll (f g : Span → Span) : ∀ ps : List Particle, movedAll f (movedAll g ps) = movedAll (f ∘ g) ps
  | [] => by simp [movedAll]
  | p :: rest => by simp [movedAll, Particle.moved_moved f g p, movedAll_movedAll f g rest]

theorem movedBranches_movedBranches (f g : Span → Span) : ∀ branches : List (BranchOf Particle),
    movedBranches f (movedBranches g branches) = movedBranches (f ∘ g) branches
  | [] => by simp [movedBranches]
  | ⟨_, body⟩ :: rest => by simp [movedBranches, movedAll_movedAll f g body, movedBranches_movedBranches f g rest]

end

mutual

@[simp] theorem Particle.stretches_moved (f : Span → Span) : ∀ p : Particle, (p.moved f).stretches = p.stretches
  | .text _ | .define _ | .undef _ | .error _ | .extension _ | .include _ _ | .line _ _ | .null | .pragma _ | .version _ _ => by
    simp [Particle.moved, Particle.stretches]
  | .conditional branches none => by simp [Particle.moved, Particle.stretches, branchStretches_moved f branches]
  | .conditional branches (some body) => by
    simp [Particle.moved, Particle.stretches, branchStretches_moved f branches, stretchesAll_moved f body]

@[simp] theorem stretchesAll_moved (f : Span → Span) : ∀ ps : List Particle, stretchesAll (movedAll f ps) = stretchesAll ps
  | [] => by simp [movedAll]
  | p :: rest => by simp [movedAll, stretchesAll, Particle.stretches_moved f p, stretchesAll_moved f rest]

@[simp] theorem branchStretches_moved (f : Span → Span) : ∀ branches : List (BranchOf Particle),
    branchStretches (movedBranches f branches) = branchStretches branches
  | [] => by simp [movedBranches]
  | ⟨_, body⟩ :: rest => by
    simp [movedBranches, branchStretches, stretchesAll_moved f body, branchStretches_moved f rest]

end

/-- The place of every span. -/
def nowhere (_ : Span) : Span := .emptyAt 0

/-- Particles that are the same elsewhere are the same without places. -/
theorem movedAll_nowhere {f g : Span → Span} {ps qs : List Particle} (h : movedAll f ps = movedAll g qs) :
    movedAll nowhere ps = movedAll nowhere qs := by
  have hboth := congrArg (movedAll nowhere) h
  rwa [movedAll_movedAll, movedAll_movedAll] at hboth

theorem moved_nowhere {f g : Span → Span} {p q : Particle} (h : p.moved f = q.moved g) : p.moved nowhere = q.moved nowhere := by
  have hboth := congrArg (Particle.moved nowhere) h
  rwa [Particle.moved_moved, Particle.moved_moved] at hboth

theorem movedBranches_nowhere {f g : Span → Span} {bs cs : List Branch} (h : movedBranches f bs = movedBranches g cs) :
    movedBranches nowhere bs = movedBranches nowhere cs := by
  have hboth := congrArg (movedBranches nowhere) h
  rwa [movedBranches_movedBranches, movedBranches_movedBranches] at hboth

theorem movedOption_nowhere {f g : Span → Span} {otherwise otherwise' : Option (List Particle)}
    (h : otherwise.map (movedAll f) = otherwise'.map (movedAll g)) :
    otherwise.map (movedAll nowhere) = otherwise'.map (movedAll nowhere) := by
  cases otherwise <;> cases otherwise' <;> simp_all
  exact movedAll_nowhere h

/-! ## Rules -/

section Rules

variable (path : String) (content : List Particle)

/-- Without places, the particles of the second node are those of the first one, spliced. -/
inductive NodeSpliced : Nat → Node → Node → Prop
  | particles {n : Nat} {ps qs : List Particle} : Spliced path content n (movedAll nowhere ps) (movedAll nowhere qs) →
      NodeSpliced n (.particles ps) (.particles qs)
  | particle {n : Nat} {p q : Particle} : SplicedIn path content n (p.moved nowhere) (q.moved nowhere) →
      NodeSpliced n (.particle p) (.particle q)
  | branch {n : Nat} {b c : Branch} : SplicedBranches path content n (movedBranches nowhere [b]) (movedBranches nowhere [c]) →
      NodeSpliced n (.branch b) (.branch c)
  | branches {n : Nat} {bs cs : List Branch} :
      SplicedBranches path content n (movedBranches nowhere bs) (movedBranches nowhere cs) →
      NodeSpliced n (.branches bs) (.branches cs)
  | alternatives {n : Nat} {bs cs : List Branch} {otherwise otherwise' : Option (List Particle)} :
      SplicedIn path content n ((Particle.conditional bs otherwise).moved nowhere)
        ((Particle.conditional cs otherwise').moved nowhere) →
      NodeSpliced n (.alternatives bs otherwise) (.alternatives cs otherwise')

/-- Elements for some words, one of which is spliced; those before it are the same, and those after it are the same elsewhere. -/
inductive ElementsSpliced (offset offset' : Nat) :
    List (Word TokenKind Nonterminal) → Nat → List (Matched Node) → List (Matched Node) → Prop
  | here {n : Nat} {head : Nonterminal} {words : List (Word TokenKind Nonterminal)} {symbol : SymbolId} {node node' : Node}
      {rest rest' : List (Matched Node)} : head.place = .outer → NodeSpliced path content n node node' →
      rest'.map (moved offset') = rest.map (moved offset) →
      ElementsSpliced offset offset' (.node head :: words) n (.node symbol node :: rest) (.node symbol node' :: rest')
  | there {n : Nat} {head : Nonterminal} {words : List (Word TokenKind Nonterminal)} {symbol : SymbolId} {node : Node}
      {elements elements' : List (Matched Node)} : head.place.Allows node.stretches →
      ElementsSpliced offset offset' words n elements elements' →
      ElementsSpliced offset offset' (.node head :: words) (node.stretches.length + n) (.node symbol node :: elements)
        (.node symbol node :: elements')

/-- From spliced elements a rule builds a spliced node. -/
def BuildsSpliced (r : Rule Node) (p : Spelling TokenKind Nonterminal) : Prop :=
  ∀ ⦃offset offset' n : Nat⦄ ⦃elements elements' : List (Matched Node)⦄ ⦃node : Node⦄,
    ElementsSpliced path content offset offset' p.body n elements elements' → r.build elements = .ok node →
    ∃ node', r.build elements' = .ok node' ∧ NodeSpliced path content n node node'

end Rules

section

variable {path : String} {content : List Particle} {n : Nat}

namespace ElementsSpliced

variable {offset offset' : Nat} {head : Nonterminal} {words : List (Word TokenKind Nonterminal)} {symbol : SymbolId} {node : Node}
  {rest elements elements' : List (Matched Node)}

theorem ne_nil : ¬ElementsSpliced path content offset offset' [] n elements elements' := nofun

/-- A directive on one line is not spliced. -/
theorem behind_line (hline : head.place = .line)
    (h : ElementsSpliced path content offset offset' (.node head :: words) n elements elements') :
    ∃ element rest rest' k, elements = element :: rest ∧ elements' = element :: rest' ∧ n = 1 + k ∧
      ElementsSpliced path content offset offset' words k rest rest' := by
  cases h with
  | here houter => cases hline.symm.trans houter
  | there hplace hrest =>
    rw [hline] at hplace
    exact ⟨_, _, _, _, rfl, rfl, by rw [hplace]; rfl, hrest⟩

theorem last (h : ElementsSpliced path content offset offset' [.node head] n [.node symbol node] elements') :
    ∃ node', elements' = [.node symbol node'] ∧ NodeSpliced path content n node node' := by
  cases h with
  | here _ hnode hrest =>
    obtain rfl := List.map_eq_nil_iff.mp hrest
    exact ⟨_, rfl, hnode⟩
  | there _ hrest => exact absurd hrest ne_nil

/-- The first node is spliced, and the others are the same elsewhere, or one of the others is spliced. -/
theorem first (h : ElementsSpliced path content offset offset' (.node head :: words) n (.node symbol node :: rest) elements') :
    (∃ node' rest', elements' = .node symbol node' :: rest' ∧ NodeSpliced path content n node node' ∧
      rest'.map (moved offset') = rest.map (moved offset)) ∨
    ∃ rest' k, elements' = .node symbol node :: rest' ∧ n = node.stretches.length + k ∧
      ElementsSpliced path content offset offset' words k rest rest' := by
  cases h with
  | here _ hnode hrest => exact .inl ⟨_, _, rfl, hnode, hrest⟩
  | there _ hrest => exact .inr ⟨_, _, rfl, rfl, hrest⟩

end ElementsSpliced

section Elsewhere

variable {offset offset' : Nat} {symbol : SymbolId} {node : Node} {element : Matched Node} {rest rest' : List (Matched Node)}

/-- One element elsewhere. -/
theorem exists_of_moved (h : rest'.map (moved offset') = [element].map (moved offset)) : ∃ element', rest' = [element'] := by
  obtain ⟨element', _, rfl, -, hnil⟩ := List.map_eq_cons_iff.mp h
  obtain rfl := List.map_eq_nil_iff.mp hnil
  exact ⟨element', rfl⟩

/-- The first of some elements elsewhere. -/
theorem exists_node_of_moved (h : rest'.map (moved offset') = (.node symbol node :: rest).map (moved offset)) :
    ∃ symbol' node' others, rest' = .node symbol' node' :: others ∧ node'.shifted offset' = node.shifted offset ∧
      others.map (moved offset') = rest.map (moved offset) := by
  obtain ⟨element, others, rfl, helement, hothers⟩ := List.map_eq_cons_iff.mp h
  obtain ⟨-, symbol', node', rfl, hnode⟩ := moved_eq_node.mp helement
  exact ⟨symbol', node', others, rfl, hnode, hothers⟩

end Elsewhere

theorem movedBranches_front (f : Span → Span) (b : Branch) (bs : List Branch) :
    movedBranches f (b :: bs) = movedBranches f [b] ++ movedBranches f bs :=
  movedBranches_append f [b] bs

/-- A branch with a spliced body. -/
theorem nodeSpliced_branch {condition : Condition} {ps : List Particle} {node' : Node}
    (h : NodeSpliced path content n (.particles ps) node') : ∃ qs, node' = .particles qs ∧
      NodeSpliced path content (1 + n) (.branch ⟨condition, ps⟩) (.branch ⟨condition, qs⟩) := by
  cases h with
  | particles hbody => exact ⟨_, rfl, .branch (@SplicedBranches.body path content _ [] [] _ _ _ hbody)⟩

/-- Branches with a spliced body of `#else`. -/
theorem nodeSpliced_otherwise {bs : List Branch} {ps : List Particle} {node' : Node}
    (h : NodeSpliced path content n (.particles ps) node') : ∃ qs, node' = .particles qs ∧
      NodeSpliced path content ((branchStretches bs).length + (1 + n)) (.alternatives bs (some ps)) (.alternatives bs (some qs)) := by
  cases h with
  | particles hbody =>
    refine ⟨_, rfl, .alternatives ?_⟩
    have hotherwise := @SplicedIn.otherwise path content _ (movedBranches nowhere bs) _ _ hbody
    rw [branchStretches_moved, Nat.add_assoc] at hotherwise
    rw [Particle.moved_conditional, Particle.moved_conditional]
    exact hotherwise

theorem conditionals_spliced :
    List.Forall₂ (BuildsSpliced path content) (conditionalRules.take 2) (conditionalProductions.take 2) := by
  simp only [conditionalRules, conditionalProductions, List.take, List.forall₂_cons, List.forall₂_nil_left_iff, and_true]
  and_intros
  all_goals
    intro offset offset' n elements elements' node hspliced hnode
    dsimp only at hnode
    split at hnode <;> cases hnode
  · rcases hspliced.first with ⟨_, _, rfl, hbranch, hrest⟩ | ⟨_, _, rfl, rfl, hrest⟩
    · obtain ⟨_, rfl⟩ := exists_of_moved hrest
      cases hbranch with
      | branch hbranch =>
        refine ⟨_, rfl, .particle ?_⟩
        rw [Particle.moved_conditional, Particle.moved_conditional]
        exact .branches hbranch
    · obtain ⟨_, _, _, _, -, -, -, hnil⟩ := hrest.behind_line rfl
      exact absurd hnil ElementsSpliced.ne_nil
  · rename_i b _ bs otherwise _
    rcases hspliced.first with ⟨_, _, rfl, hbranch, hrest⟩ | ⟨_, _, rfl, rfl, hrest⟩
    · obtain ⟨_, _, _, rfl, halternatives, hrest⟩ := exists_node_of_moved hrest
      obtain ⟨_, rfl⟩ := exists_of_moved hrest
      obtain ⟨bs', otherwise', rfl, hbranches, hotherwise⟩ := Node.shifted_eq_alternatives.mp halternatives
      cases hbranch with
      | branch hbranch =>
        refine ⟨_, rfl, .particle ?_⟩
        rw [Particle.moved_conditional, Particle.moved_conditional, movedBranches_front, movedBranches_front nowhere _ bs',
          movedBranches_nowhere hbranches, movedOption_nowhere hotherwise]
        exact .branches (hbranch.append _)
    · rcases hrest.first with ⟨_, _, rfl, halternatives, hrest⟩ | ⟨_, _, rfl, rfl, hlast⟩
      · obtain ⟨_, rfl⟩ := exists_of_moved hrest
        cases halternatives with
        | @alternatives _ cs _ _ halternatives =>
          rw [Particle.moved_conditional, Particle.moved_conditional] at halternatives
          have hbehind := halternatives.behind (movedBranches nowhere [b])
          rw [branchStretches_moved, branchStretches, branchStretches, List.append_nil] at hbehind
          refine ⟨_, rfl, .particle ?_⟩
          rw [Particle.moved_conditional, Particle.moved_conditional, movedBranches_front, movedBranches_front nowhere _ cs]
          exact hbehind
      · obtain ⟨_, _, _, _, -, -, -, hnil⟩ := hlast.behind_line rfl
        exact absurd hnil ElementsSpliced.ne_nil

theorem parts_spliced :
    List.Forall₂ (BuildsSpliced path content) ((conditionalRules.drop 2).take 9) ((conditionalProductions.drop 2).take 9) := by
  simp only [conditionalRules, conditionalProductions, List.drop, List.take, List.forall₂_cons, List.forall₂_nil_left_iff, and_true]
  and_intros
  all_goals
    intro offset offset' n elements elements' node hspliced hnode
    dsimp only at hnode
    split at hnode <;> cases hnode
  iterate 3
    · obtain ⟨_, _, _, _, ⟨⟩, rfl, rfl, hrest⟩ := hspliced.behind_line rfl
      obtain ⟨_, rfl, hbody⟩ := hrest.last
      obtain ⟨_, rfl, hbranch⟩ := nodeSpliced_branch hbody
      exact ⟨_, rfl, hbranch⟩
  · obtain ⟨_, rfl, hbranch⟩ := hspliced.last
    cases hbranch with
    | branch hbranch => exact ⟨_, rfl, .branches hbranch⟩
  · rename_i bs _ b
    rcases hspliced.first with ⟨_, _, rfl, hbranches, hrest⟩ | ⟨_, _, rfl, rfl, hrest⟩
    · obtain ⟨_, _, _, rfl, hbranch, hnil⟩ := exists_node_of_moved hrest
      obtain rfl := List.map_eq_nil_iff.mp hnil
      obtain ⟨b', rfl, hb⟩ := Node.shifted_eq_branch.mp hbranch
      have hb : movedBranches nowhere [b'] = movedBranches nowhere [b] := movedBranches_nowhere (by
        rw [movedBranches_cons, movedBranches_cons, hb]
        rfl)
      cases hbranches with
      | branches hbranches =>
        refine ⟨_, rfl, .branches ?_⟩
        rw [movedBranches_append, movedBranches_append, hb]
        exact hbranches.append _
    · obtain ⟨_, rfl, hbranch⟩ := hrest.last
      cases hbranch with
      | branch hbranch =>
        refine ⟨_, rfl, .branches ?_⟩
        have hbehind := hbranch.behind (movedBranches nowhere bs)
        rw [branchStretches_moved] at hbehind
        rw [movedBranches_append, movedBranches_append]
        exact hbehind
  · obtain ⟨_, _, _, _, ⟨⟩, rfl, rfl, hrest⟩ := hspliced.behind_line rfl
    obtain ⟨_, rfl, hbody⟩ := hrest.last
    obtain ⟨_, rfl, hbranch⟩ := nodeSpliced_branch hbody
    exact ⟨_, rfl, hbranch⟩
  · obtain ⟨_, rfl, hbranches⟩ := hspliced.last
    cases hbranches with
    | branches hbranches =>
      refine ⟨_, rfl, .alternatives ?_⟩
      rw [Particle.moved_conditional, Particle.moved_conditional]
      exact .branches hbranches
  · rcases hspliced.first with ⟨_, _, rfl, hbranches, hrest⟩ | ⟨_, _, rfl, rfl, hrest⟩
    · obtain ⟨_, _, rfl, -, hrest⟩ := List.map_eq_cons_iff.mp hrest
      obtain ⟨_, _, _, rfl, hbody, hnil⟩ := exists_node_of_moved hrest
      obtain rfl := List.map_eq_nil_iff.mp hnil
      obtain ⟨body', rfl, hmoved⟩ := Node.shifted_eq_particles.mp hbody
      cases hbranches with
      | branches hbranches =>
        refine ⟨_, rfl, .alternatives ?_⟩
        rw [Particle.moved_conditional, Particle.moved_conditional, Option.map_some, Option.map_some, movedAll_nowhere hmoved]
        exact .branches hbranches
    · obtain ⟨_, _, _, _, ⟨⟩, rfl, rfl, hlast⟩ := hrest.behind_line rfl
      obtain ⟨_, rfl, hbody⟩ := hlast.last
      obtain ⟨_, rfl, hotherwise⟩ := nodeSpliced_otherwise hbody
      exact ⟨_, rfl, hotherwise⟩
  · obtain ⟨_, _, _, _, ⟨⟩, rfl, rfl, hrest⟩ := hspliced.behind_line rfl
    obtain ⟨_, rfl, hbody⟩ := hrest.last
    obtain ⟨_, rfl, hotherwise⟩ := @nodeSpliced_otherwise path content _ [] _ _ hbody
    rw [branchStretches, List.length_nil, Nat.zero_add] at hotherwise
    exact ⟨_, rfl, hotherwise⟩

end

/-! ## Where an include stands -/

variable {front before after : List (TokenKind × Token)} {node : Node}

/-- An `#include` begins a line between some tokens. -/
structure HasInclude (front before after : List (TokenKind × Token)) : Prop where
  stands : ∃ r, front = before ++ r :: after ∧ r.2.symbol = TokenKind.include_.id
  /-- The token before it ends a stretch. -/
  begins : ∀ r ∈ before.getLast?, tokenStretches r.2 ≠ []

theorem HasInclude.ne_nil (h : HasInclude front before after) : front ≠ [] := by
  rintro rfl
  obtain ⟨⟨_, heq, -⟩, -⟩ := h
  simp at heq

theorem HasInclude.symbol_of_singleton {r : TokenKind × Token} (h : HasInclude [r] before after) : r.2.symbol = TokenKind.include_.id := by
  obtain ⟨⟨r', heq, hsymbol⟩, -⟩ := h
  have hmem : r' ∈ [r] := heq ▸ List.mem_append_right before List.mem_cons_self
  rwa [List.mem_singleton.mp hmem] at hsymbol

/-- An include in two lists of tokens in a row stands in one of them. -/
theorem HasInclude.append_cases {left right : List (TokenKind × Token)} (h : HasInclude (left ++ right) before after) :
    (∃ rest, after = rest ++ right ∧ HasInclude left before rest) ∨ ∃ rest, before = left ++ rest ∧ HasInclude right rest after := by
  obtain ⟨⟨r, heq, hr⟩, hbegins⟩ := h
  rcases List.append_eq_append_iff.mp heq with ⟨rest, rfl, hright⟩ | ⟨rest, hleft, hafter⟩
  · refine .inr ⟨rest, rfl, ⟨r, hright, hr⟩, fun last hlast => hbegins last ?_⟩
    rw [List.getLast?_append, hlast]
    rfl
  · cases rest with
    | nil =>
      rw [List.append_nil] at hleft
      exact .inr ⟨[], by rw [hleft, List.append_nil], ⟨r, hafter.symm, hr⟩, nofun⟩
    | cons first rest =>
      obtain ⟨rfl, rfl⟩ := List.cons_eq_cons.mp hafter
      exact .inl ⟨rest, rfl, ⟨r, hleft, hr⟩, hbegins⟩

/-- A directive on one line begins with a token of its own, and only includes begin with that of an include. -/
def opensLine (p : Spelling TokenKind Nonterminal) : Bool :=
  match p.body with
  | .token kind :: _ => kind ≠ .any && (kind ≠ .include_ || p.head = .includeDirective)
  | _ => false

theorem opensLine_of_line : ∀ p ∈ productions, p.head.place = .line → opensLine p = true ∧ isLineSpelling p = true := by decide

/-- What an include reads. -/
theorem Read.include_inv (h : Read number .includeDirective front node) : ∃ opening path close,
    front = [(.include_, opening), (.string, path), (.newline, close)] ∧
      node = .particle (.include (unquote path.text) path.span) := by
  obtain ⟨id, hid, r, p, elements, hr, hp, hbody, hbuild⟩ := exists_production h
  obtain rfl : id = 31 := by
    rw [show numbersOf .includeDirective = [31] by decide] at hid
    exact List.mem_singleton.mp hid
  obtain rfl := Option.some.inj hr
  obtain rfl := Option.some.inj hp
  obtain ⟨opening, _, _, rfl, rfl, -, -, hbody⟩ := hbody.exists_token
  obtain ⟨path, _, _, rfl, rfl, -, -, hbody⟩ := hbody.exists_token
  obtain ⟨close, _, _, rfl, rfl, -, -, hbody⟩ := hbody.exists_token
  obtain ⟨rfl, rfl⟩ := hbody.eq_nil
  cases hbuild
  exact ⟨opening, path, close, rfl, rfl⟩

/-- A directive on one line ends with a newline token. -/
theorem Read.close_line {head : Nonterminal} (hline : head.place = .line) (h : Read number head front node) :
    ∃ inner close, front = inner ++ [(.newline, close)] ∧ close.symbol = TokenKind.newline.id := by
  obtain ⟨id, r, p, elements, hr, hp, rfl, hbody, hbuild⟩ := h.exists_rule
  obtain ⟨-, hspelling⟩ := opensLine_of_line p (List.mem_of_getElem? hp) hline
  obtain ⟨⟨-, hlast⟩, -⟩ : (p.head.place = .line ∧ p.body.getLast? = some (.token .newline)) ∧
      ∀ word ∈ p.body.dropLast, isInnerWord word = true := by
    simpa [isLineSpelling] using hspelling
  rw [← List.dropLast_append_getLast? _ hlast] at hbody
  obtain ⟨-, _, inner, _, -, rfl, hclose⟩ := hbody.append_inv
  obtain ⟨close, _, _, rfl, rfl, hadmits, -, hnil⟩ := hclose.exists_token
  obtain ⟨rfl, rfl⟩ := hnil.eq_nil
  exact ⟨inner, close, rfl, symbol_of_admits (by decide) hadmits⟩

/-- The only directive on one line that an include stands in is the include. -/
theorem Read.include_line {head : Nonterminal} (hline : head.place = .line) (h : Read number head front node)
    (hinclude : HasInclude front before after) : head = .includeDirective ∧ before = [] := by
  obtain ⟨⟨r', heq, hsymbol⟩, hbegins⟩ := hinclude
  rcases List.eq_nil_or_concat before with rfl | ⟨before, last, rfl⟩
  · -- the first token is that of an include
    obtain ⟨id, r, p, elements, hr, hp, rfl, hbody, hbuild⟩ := h.exists_rule
    obtain ⟨hopens, -⟩ := opensLine_of_line p (List.mem_of_getElem? hp) hline
    rw [opensLine] at hopens
    split at hopens
    · rename_i kind words hwords
      rw [hwords] at hbody
      obtain ⟨token, _, rest, -, rfl, hadmits, -, -⟩ := hbody.exists_token
      obtain ⟨hany, hkind⟩ : kind ≠ .any ∧ (kind ≠ .include_ ∨ p.head = .includeDirective) := by simpa using hopens
      obtain ⟨rfl, -⟩ := List.cons_eq_cons.mp heq
      exact ⟨hkind.resolve_left fun hne => hne (id_injective ((symbol_of_admits hany hadmits).symm.trans hsymbol)), rfl⟩
    · cases hopens
  · -- the directive would end before the include and after it
    exfalso
    obtain ⟨hstretches, hplace⟩ := h.laid
    rw [hline] at hplace
    obtain ⟨inner, close, rfl, hclose⟩ := h.close_line hline
    have hmem : (TokenKind.newline, close) ∈ after := by
      have hlast := congrArg List.getLast? heq
      rw [List.getLast?_append_of_ne_nil _ (List.cons_ne_nil _ _), List.getLast?_append_of_ne_nil _ (List.cons_ne_nil _ _)] at hlast
      have hmem : (TokenKind.newline, close) ∈ r' :: after := List.mem_of_mem_getLast? hlast.symm
      refine (List.mem_cons.mp hmem).resolve_left fun hsame => ?_
      rw [← hsame, hclose] at hsymbol
      exact absurd (id_injective hsymbol) (by decide)
    have hafter : stretchesOf after ≠ [] := fun hnil => by
      have := List.flatMap_eq_nil_iff.mp hnil _ hmem
      rw [tokenStretches, if_pos hclose] at this
      cases this
    have hlast : tokenStretches last.2 ≠ [] := hbegins last (by simp)
    have hlength := congrArg List.length (hstretches.trans hplace)
    rw [heq, List.concat_eq_append, stretchesOf_append, stretchesOf_append, stretchesOf_cons, stretchesOf_cons] at hlength
    simp only [List.length_append, List.length_cons, List.length_nil] at hlength
    have hlast := List.length_pos_of_ne_nil hlast
    have hafter := List.length_pos_of_ne_nil hafter
    omega

/-! ## Grafting -/

section Graft

variable (number) (offset offset' : Nat) (graft : List (TokenKind × Token)) (content : List Particle)

/-- What is read around an include is read around the graft too, with the content of the graft in its place. -/
def Grafted (head : Nonterminal) (before after : List (TokenKind × Token)) (node : Node) : Prop :=
  ∃ path close rest, after = (.string, path) :: (.newline, close) :: rest ∧
    ∀ rest', movedFront offset' rest' = movedFront offset rest → ∃ node', Read number head (before ++ graft ++ rest') node' ∧
      NodeSpliced (unquote path.text) (movedAll nowhere content) (stretchesOf before).length node node'

/-- The tokens are those of an include. -/
def Included (before after : List (TokenKind × Token)) (node : Node) : Prop :=
  before = [] ∧ ∃ path close, after = [(.string, path), (.newline, close)] ∧
    node = .particle (.include (unquote path.text) path.span)

/-- Whether a nonterminal may be read from a single include. -/
def Nonterminal.isInclude : Nonterminal → Bool
  | .includeDirective | .directive | .particle => true
  | _ => false

/-- Whether includes may stand in a nonterminal. -/
def Nonterminal.holdsIncludes (head : Nonterminal) : Bool :=
  head.place ≠ .inner && head ≠ .start && head ≠ .program

/-- What becomes of an include in a nonterminal. -/
def Grafts (head : Nonterminal) (front : List (TokenKind × Token)) (node : Node) : Prop :=
  head.holdsIncludes = true → ∀ before after, HasInclude front before after →
    head.isInclude = true ∧ Included before after node ∨
      head.place = .outer ∧ Grafted number offset offset' graft content head before after node

/-- What becomes of an include in the nonterminals of some words. -/
def GraftsAll (id : Nat) : Nat → List (Word TokenKind Nonterminal) → List (Matched Node) → List (TokenKind × Token) → Prop
  | _, [], _, front => front = []
  | _, .token _ :: _, _, _ => True
  | dot, .node head :: words, elements, front => ∃ node left others rest,
      elements = .node (number head) node :: others ∧ front = left ++ rest ∧ Read number head left node ∧
        Grafts number offset offset' graft content head left node ∧
        alphabet.ReadsAll language number Opens id (dot + 1) words others rest ∧ GraftsAll id (dot + 1) words others rest

variable {number offset offset' graft content} {id : Nat} {r : Rule Node} {p : Spelling TokenKind Nonterminal}
  {elements : List (Matched Node)}

/-- The nonterminals in which an include is never alone. -/
def isBroad : Word TokenKind Nonterminal → Bool
  | .token _ => false
  | .node head => head.holdsIncludes && !head.isInclude

/-- An include in a body is grafted in one of its nonterminals. -/
theorem GraftsAll.exists_spliced (hid : id ≠ 18) : ∀ {words : List (Word TokenKind Nonterminal)} {dot : Nat}
    {elements : List (Matched Node)} {front before after : List (TokenKind × Token)}, (∀ word ∈ words, isBroad word = true) →
    GraftsAll number offset offset' graft content id dot words elements front → HasInclude front before after →
    ∃ path close rest, after = (.string, path) :: (.newline, close) :: rest ∧
      ∀ rest', movedFront offset' rest' = movedFront offset rest → ∃ elements',
        alphabet.ReadsAll language number Opens id dot words elements' (before ++ graft ++ rest') ∧
          ElementsSpliced (unquote path.text) (movedAll nowhere content) offset offset' words (stretchesOf before).length
            elements elements'
  | [], _, _, _, _, _, _, hgrafts, hinclude => absurd hgrafts hinclude.ne_nil
  | .token _ :: _, _, _, _, _, _, hbroad, _, _ => absurd (hbroad _ List.mem_cons_self) Bool.false_ne_true
  | .node head :: words, dot, _, _, before, _, hbroad, hgrafts, hinclude => by
    obtain ⟨hhead, hbroad⟩ := List.forall_mem_cons.mp hbroad
    obtain ⟨hholds, hinner⟩ : head.holdsIncludes = true ∧ head.isInclude = false := by simpa [isBroad] using hhead
    obtain ⟨node, left, others, right, rfl, rfl, hread, hgraft, hrest, hgrafts⟩ := hgrafts
    rcases hinclude.append_cases with ⟨after, rfl, hstands⟩ | ⟨before, rfl, hstands⟩
    · rcases hgraft hholds _ _ hstands with ⟨hsingle, -⟩ | ⟨houter, path, close, rest, rfl, hgrafted⟩
      · cases hinner.symm.trans hsingle
      refine ⟨path, close, rest ++ right, rfl, fun rest' hrest' => ?_⟩
      rw [movedFront, movedFront, List.map_append] at hrest'
      obtain ⟨rest', right', rfl, hmoved, hright⟩ := List.map_eq_append_iff.mp hrest'
      obtain ⟨node', hnode', hspliced⟩ := hgrafted rest' hmoved
      obtain ⟨others', hothers', hmoved'⟩ := ReadAll.relocate hrest hright
      refine ⟨_, ?_, .here houter hspliced hmoved'⟩
      rw [← List.append_assoc]
      exact readAll_node id hid hnode' hothers'
    · obtain ⟨path, close, rest, rfl, hgrafted⟩ := hgrafts.exists_spliced hid hbroad hstands
      refine ⟨path, close, rest, rfl, fun rest' hrest' => ?_⟩
      obtain ⟨others', hothers', hspliced⟩ := hgrafted rest' hrest'
      obtain ⟨hstretches, hplace⟩ := hread.laid
      refine ⟨.node (number head) node :: others', ?_, ?_⟩
      · rw [List.append_assoc, List.append_assoc, ← List.append_assoc before]
        exact readAll_node id hid hread hothers'
      · rw [stretchesOf_append, List.length_append, hstretches]
        exact .there hplace hspliced

theorem Grafts.line (hline : p.head.place = .line) (h : Read number p.head front node) :
    Grafts number offset offset' graft content p.head front node := by
  intro _ before after hinclude
  obtain ⟨hhead, rfl⟩ := h.include_line hline hinclude
  rw [hhead] at h ⊢
  obtain ⟨opening, path, close, rfl, rfl⟩ := h.include_inv
  obtain ⟨⟨_, heq, -⟩, -⟩ := hinclude
  obtain ⟨-, rfl⟩ := List.cons_eq_cons.mp heq
  exact .inl ⟨rfl, rfl, path, close, rfl, rfl⟩

/-- A nonterminal that passes on its only symbol. -/
theorem Grafts.pass {head inner : Nonterminal} {name body : String} (hr : rules[id]? = some (passRule name body))
    (hp : productions[id]? = some ⟨head, [.node inner]⟩) (hhead : head.isInclude = true) (houter : head.place = .outer)
    (hinner : inner.holdsIncludes = true)
    (hgrafts : GraftsAll number offset offset' graft content id 0 [.node inner] elements front)
    (hnode : (passRule name body).build elements = .ok node) : Grafts number offset offset' graft content head front node := by
  intro _ before after hinclude
  obtain ⟨_, left, others, rest, rfl, rfl, hread, hgraft, hrest, rfl⟩ := hgrafts
  obtain ⟨rfl, -⟩ := hrest.eq_nil
  cases hnode
  rw [List.append_nil] at hinclude
  rcases hgraft hinner _ _ hinclude with ⟨-, hincluded⟩ | ⟨-, path, close, rest, rfl, hgrafted⟩
  · exact .inl ⟨hhead, hincluded⟩
  · refine .inr ⟨houter, path, close, rest, rfl, fun rest' hrest' => ?_⟩
    obtain ⟨node', hnode', hspliced⟩ := hgrafted rest' hrest'
    exact ⟨node', read_rule id hr hp (readAll_last hnode') rfl, hspliced⟩

/-- A part of a conditional. -/
theorem Grafts.part (hid : id ≠ 18) (hr : rules[id]? = some r) (hp : productions[id]? = some p) (houter : p.head.place = .outer)
    (hbroad : ∀ word ∈ p.body, isBroad word = true) (hbuilds : ∀ path, BuildsSpliced path (movedAll nowhere content) r p)
    (hgrafts : GraftsAll number offset offset' graft content id 0 p.body elements front) (hnode : r.build elements = .ok node) :
    Grafts number offset offset' graft content p.head front node := by
  intro _ before after hinclude
  obtain ⟨path, close, rest, rfl, hgrafted⟩ := hgrafts.exists_spliced hid hbroad hinclude
  refine .inr ⟨houter, path, close, rest, rfl, fun rest' hrest' => ?_⟩
  obtain ⟨elements', hbody, hspliced⟩ := hgrafted rest' hrest'
  obtain ⟨node', hnode', hspliced⟩ := hbuilds _ hspliced hnode
  exact ⟨node', read_rule id hr hp hbody hnode', hspliced⟩

/-- Two lists of particles in a row are a list of particles. -/
theorem read_append {left : List (TokenKind × Token)} {ps : List Particle} (hleft : Read number .particleList left (.particles ps)) :
    ∀ {right : List (TokenKind × Token)} {qs : List Particle}, Read number .particleList right (.particles qs) →
      Read number .particleList (left ++ right) (.particles (ps ++ qs)) := by
  intro right qs
  induction qs using List.reverseRecOn generalizing right with
  | nil =>
    intro hright
    rcases particles_cases hright with ⟨rfl, -⟩ | ⟨_, _, qs, q, -, hnil, -⟩
    · rwa [List.append_nil, List.append_nil]
    · simp at hnil
  | append_singleton qs q ih =>
    intro hright
    rcases particles_cases hright with ⟨-, hnil⟩ | ⟨front, back, qs', q', rfl, hqs, hfront, hback⟩
    · simp at hnil
    · obtain ⟨rfl, rfl⟩ : qs = qs' ∧ q = q' := by simpa using hqs
      rw [← List.append_assoc, ← List.append_assoc]
      exact read_concat (ih hfront) hback

section Concat

variable {ps : List Particle} {q : Particle} {left right : List (TokenKind × Token)}

/-- Another particle after a list with an include. -/
theorem Grafted.concat (h : Grafted number offset offset' graft content .particleList before after (.particles ps))
    (hitem : Read number .particle right (.particle q)) :
    Grafted number offset offset' graft content .particleList before (after ++ right) (.particles (ps ++ [q])) := by
  obtain ⟨path, close, rest, rfl, hgrafted⟩ := h
  refine ⟨path, close, rest ++ right, rfl, fun rest' hrest' => ?_⟩
  rw [movedFront, movedFront, List.map_append] at hrest'
  obtain ⟨rest', right', rfl, hmoved, hright⟩ := List.map_eq_append_iff.mp hrest'
  obtain ⟨_, hlist', hspliced⟩ := hgrafted rest' hmoved
  obtain ⟨_, hitem', hshifted⟩ := Read.relocate hitem hright
  obtain ⟨q', rfl, hq⟩ := Node.shifted_eq_particle.mp hshifted
  cases hspliced with
  | particles hspliced =>
    rw [← List.append_assoc]
    refine ⟨_, read_concat hlist' hitem', .particles ?_⟩
    have hq : movedAll nowhere [q'] = movedAll nowhere [q] := by simp [movedAll, moved_nowhere hq]
    rw [movedAll_append, movedAll_append, hq]
    exact hspliced.append _

theorem length_stretchesOf (hlist : Read number .particleList left (.particles ps)) (before : List (TokenKind × Token)) :
    (stretchesOf (left ++ before)).length = (stretchesAll (movedAll nowhere ps)).length + (stretchesOf before).length := by
  rw [stretchesOf_append, List.length_append, stretchesAll_moved, hlist.laid.1]
  rfl

/-- An include after a list of particles. -/
theorem Included.behind (hgraft : Read number .particleList graft (.particles content))
    (hlist : Read number .particleList left (.particles ps)) (h : Included before after (.particle q)) :
    Grafted number offset offset' graft content .particleList (left ++ before) after (.particles (ps ++ [q])) := by
  obtain ⟨rfl, path, close, rfl, hq⟩ := h
  cases hq
  refine ⟨path, close, [], rfl, fun rest' hrest' => ?_⟩
  obtain rfl := List.map_eq_nil_iff.mp hrest'
  rw [length_stretchesOf hlist, List.append_nil, List.append_nil]
  refine ⟨_, read_append hlist hgraft, .particles ?_⟩
  rw [movedAll_append, movedAll_append]
  have hhere := @Spliced.here (unquote path.text) (movedAll nowhere content) (movedAll nowhere ps) [] (nowhere path.span)
  rw [List.append_nil] at hhere
  exact hhere

/-- A particle with an include after a list of particles. -/
theorem Grafted.behind (hlist : Read number .particleList left (.particles ps))
    (h : Grafted number offset offset' graft content .particle before after (.particle q)) :
    Grafted number offset offset' graft content .particleList (left ++ before) after (.particles (ps ++ [q])) := by
  obtain ⟨path, close, rest, rfl, hgrafted⟩ := h
  refine ⟨path, close, rest, rfl, fun rest' hrest' => ?_⟩
  obtain ⟨_, hitem', hspliced⟩ := hgrafted rest' hrest'
  cases hspliced with
  | particle hspliced =>
    rw [length_stretchesOf hlist, List.append_assoc, List.append_assoc, ← List.append_assoc before]
    refine ⟨_, read_concat hlist hitem', .particles ?_⟩
    rw [movedAll_append, movedAll_append]
    exact .within hspliced

/-- A list of particles with one more particle. -/
theorem Grafts.concat (hgraft : Read number .particleList graft (.particles content))
    (hlist : Read number .particleList left (.particles ps)) (hitem : Read number .particle right (.particle q))
    (hgraftList : Grafts number offset offset' graft content .particleList left (.particles ps))
    (hgraftItem : Grafts number offset offset' graft content .particle right (.particle q)) :
    Grafts number offset offset' graft content .particleList (left ++ right) (.particles (ps ++ [q])) := by
  intro _ before after hinclude
  refine .inr ⟨rfl, ?_⟩
  rcases hinclude.append_cases with ⟨after, rfl, hstands⟩ | ⟨before, rfl, hstands⟩
  · rcases hgraftList rfl _ _ hstands with ⟨hsingle, -⟩ | ⟨-, hgrafted⟩
    · cases hsingle
    · exact hgrafted.concat hitem
  · rcases hgraftItem rfl _ _ hstands with ⟨-, hincluded⟩ | ⟨-, hgrafted⟩
    · exact hincluded.behind hgraft hlist
    · exact hgrafted.behind hlist

end Concat

/-- The numbers of the productions that includes may stand in, but for directives on one line. -/
theorem number_of_outer : ∀ entry ∈ productions.zipIdx, entry.1.head.holdsIncludes = true → entry.1.head.place = .outer →
    entry.2 = 3 ∨ entry.2 = 4 ∨ entry.2 = 5 ∨ (6 ≤ entry.2 ∧ entry.2 < 17) ∨ (41 ≤ entry.2 ∧ entry.2 < 52) := by decide

theorem exists_passRule (hle : 6 ≤ id) (hlt : id < 17) : ∃ name body head inner, rules[id]? = some (passRule name body) ∧
    productions[id]? = some ⟨head, [.node inner]⟩ ∧ head.isInclude = true ∧ head.place = .outer ∧ inner.holdsIncludes = true := by
  interval_cases id <;> exact ⟨_, _, _, _, rfl, rfl, rfl, rfl, rfl⟩

theorem broad_parts : ∀ p ∈ (productions.drop 41).take 11, ∀ word ∈ p.body, isBroad word = true := by decide

theorem getElem?_slice {α : Type} {l : List α} {i low count : Nat} (hlow : low ≤ i) (hhigh : i < low + count) :
    ((l.drop low).take count)[i - low]? = l[i]? := by
  rw [List.getElem?_take_of_lt (by omega), List.getElem?_drop, Nat.add_sub_cancel' hlow]

theorem buildsSpliced_of_part (hle : 41 ≤ id) (hlt : id < 52) (hr : rules[id]? = some r) (hp : productions[id]? = some p)
    (path : String) : BuildsSpliced path content r p := by
  have hparts : List.Forall₂ (BuildsSpliced path content) ((rules.drop 41).take 11) ((productions.drop 41).take 11) :=
    List.rel_append conditionals_spliced parts_spliced
  exact Alphabet.forall₂_getElem? hparts ((getElem?_slice hle hlt).trans hr) ((getElem?_slice hle hlt).trans hp)

/-- **What every production does with an include**, given what becomes of it in the nonterminals of its body. -/
theorem grafts_rule (hgraft : Read number .particleList graft (.particles content)) (hr : rules[id]? = some r)
    (hp : productions[id]? = some p) (hbody : alphabet.ReadsAll language number Opens id 0 p.body elements front)
    (hnode : r.build elements = .ok node) (hgrafts : GraftsAll number offset offset' graft content id 0 p.body elements front) :
    Grafts number offset offset' graft content p.head front node := by
  cases hplace : p.head.place with
  | inner =>
    intro hholds
    simp [Nonterminal.holdsIncludes, hplace] at hholds
  | line => exact Grafts.line hplace (.rule hr hp hbody hnode)
  | outer =>
    intro hholds before after hinclude
    rcases number_of_outer (p, id) (List.mem_zipIdx_iff_getElem?.mpr hp) hholds hplace with rfl | rfl | rfl | ⟨hle, hlt⟩ | ⟨hle, hlt⟩
    · -- an empty list
      obtain rfl := Option.some.inj hp
      exact absurd hgrafts hinclude.ne_nil
    · obtain rfl := Option.some.inj hr
      obtain rfl := Option.some.inj hp
      obtain ⟨list, left, _, _, rfl, rfl, hlist, hgraftList, -, item, right, _, _, rfl, rfl, hitem, hgraftItem, -, rfl⟩ := hgrafts
      dsimp only at hnode
      split at hnode <;> cases hnode
      rename_i heq
      cases heq
      rw [List.append_nil] at hinclude
      exact Grafts.concat hgraft hlist hitem hgraftList hgraftItem hholds before after hinclude
    · -- a run of text
      obtain rfl := Option.some.inj hp
      obtain ⟨token, _, _, -, rfl, hadmits, -, hrest⟩ := hbody.exists_token
      obtain ⟨-, rfl⟩ := hrest.eq_nil
      have hsymbol := hinclude.symbol_of_singleton
      exact absurd (id_injective ((symbol_of_admits (by decide) hadmits).symm.trans hsymbol)) (by decide)
    · obtain ⟨name, body, head, inner, hr', hp', hhead, houter, hinner⟩ := exists_passRule hle hlt
      obtain rfl := Option.some.inj (hr.symm.trans hr')
      obtain rfl := Option.some.inj (hp.symm.trans hp')
      exact Grafts.pass hr' hp' hhead houter hinner hgrafts hnode hholds before after hinclude
    · have hmem : p ∈ (productions.drop 41).take 11 := List.mem_of_getElem? ((getElem?_slice hle hlt).trans hp)
      exact Grafts.part (by omega) hr hp hplace (broad_parts p hmem) (buildsSpliced_of_part hle hlt hr hp) hgrafts hnode
        hholds before after hinclude

mutual

theorem Read.grafts (hgraft : Read number .particleList graft (.particles content)) : ∀ {head : Nonterminal}
    {front : List (TokenKind × Token)} {node : Node}, Read number head front node →
    Grafts number offset offset' graft content head front node
  | _, _, _, .rule hr hp hbody hnode => grafts_rule hgraft hr hp hbody hnode (ReadAll.grafts hgraft hbody)

theorem ReadAll.grafts (hgraft : Read number .particleList graft (.particles content)) : ∀ {id dot : Nat}
    {words : List (Word TokenKind Nonterminal)} {elements : List (Matched Node)} {front : List (TokenKind × Token)},
    alphabet.ReadsAll language number Opens id dot words elements front →
    GraftsAll number offset offset' graft content id dot words elements front
  | _, _, _, _, _, .nil => rfl
  | _, _, _, _, _, .token _ _ _ => trivial
  | _, _, _, _, _, .node hread _ hrest =>
    ⟨_, _, _, _, rfl, rfl, hread, Read.grafts hgraft hread, hrest, ReadAll.grafts hgraft hrest⟩

end

end Graft

/-- **What is read around an include is read around a list of particles in its place**, with these particles in the place of the
include; the tokens after it may stand elsewhere. -/
theorem Read.graft {graft : List (TokenKind × Token)} {content ps : List Particle} (offset offset' : Nat)
    (h : Read number .particleList front (.particles ps)) (hinclude : HasInclude front before after)
    (hgraft : Read number .particleList graft (.particles content)) :
    ∃ path close rest, after = (.string, path) :: (.newline, close) :: rest ∧
      ∀ rest', movedFront offset' rest' = movedFront offset rest → ∃ qs,
        Read number .particleList (before ++ graft ++ rest') (.particles qs) ∧
          Spliced (unquote path.text) (movedAll nowhere content) (stretchesOf before).length (movedAll nowhere ps)
            (movedAll nowhere qs) := by
  have hgrafts : Grafts number offset offset' graft content .particleList front (.particles ps) := Read.grafts hgraft h
  rcases hgrafts rfl before after hinclude with ⟨hsingle, -⟩ | ⟨-, path, close, rest, rfl, hgrafted⟩
  · cases hsingle
  refine ⟨path, close, rest, rfl, fun rest' hrest' => ?_⟩
  obtain ⟨_, hread, hspliced⟩ := hgrafted rest' hrest'
  cases hspliced with
  | particles hspliced => exact ⟨_, hread, hspliced⟩

end Directive

end ShaderFront
