import Mathlib
import ShaderFront.Proofs.Attributes
import ShaderFront.Proofs.Completeness

/-!
# Derivations behind a parse

What the engine accepts has a derivation through the states of the automaton: each node was built by a production that the state
below it holds with the dot in front, and a token that was taken as the wildcard has no transition of its own in the state where it
was shifted. An attribute says what a result is (`Grammar.WellFormed.parse_attribute`); here the derivation itself is kept
(`Grammar.Conflictless.parse_retraces`), with the states that decide between the wildcard and other terminals.

`Grammar.Retraced` is the invariant of the stack, `Grammar.Retracing.step` that of one move and `Grammar.Retracing.run` that of a
whole run.
-/

namespace ShaderFront.Grammar

open Engine

variable {g : Grammar} {c : Collection} {σ N : Type} {semantics : Semantics σ N}

/-- A state holds a production with its dot at a position. -/
def HasItem (c : Collection) (state : StateId) (id : ProductionId) (dot : Nat) : Prop :=
  ∃ S, c.states[state]? = some S ∧ ∃ item ∈ S, item.production = id ∧ item.dot = dot

/-! ## Derivations through states -/

mutual

/-- An element stands for a symbol after a state and covers some tokens. -/
inductive Retraces (g : Grammar) (c : Collection) (semantics : Semantics σ N) :
    StateId → SymbolId → Matched N → List Token → Prop
  | token {state : StateId} {symbol : SymbolId} {token : Token} : g.isTerminal symbol = true → g.Fits symbol token →
      (token.symbol ≠ symbol → c.target? state token.symbol = none) → Retraces g c semantics state symbol (.token token) [token]
  | node {state last : StateId} {id : ProductionId} {p : Production} {elements : List (Matched N)} {tokens : List Token}
      {memory : σ} {node : N} : g.production? id = some p → HasItem c state id 0 →
      RetracesAll g c semantics state last p.body elements tokens → (semantics id elements memory).1 = .ok node →
      Retraces g c semantics state p.head (.node p.head node) tokens

/-- Elements stand for the symbols of a list after a state, one for each, and lead to another state. -/
inductive RetracesAll (g : Grammar) (c : Collection) (semantics : Semantics σ N) :
    StateId → StateId → List SymbolId → List (Matched N) → List Token → Prop
  | nil {state : StateId} : RetracesAll g c semantics state state [] [] []
  | cons {state next last : StateId} {symbol : SymbolId} {element : Matched N} {front : List Token} {symbols : List SymbolId}
      {elements : List (Matched N)} {tokens : List Token} : Retraces g c semantics state symbol element front →
      c.target? state symbol = some next → RetracesAll g c semantics next last symbols elements tokens →
      RetracesAll g c semantics state last (symbol :: symbols) (element :: elements) (front ++ tokens)

end

theorem RetracesAll.concat : ∀ {state mid last : StateId} {symbols : List SymbolId} {elements : List (Matched N)}
    {tokens front : List Token} {symbol : SymbolId} {element : Matched N},
    g.RetracesAll c semantics state mid symbols elements tokens → g.Retraces c semantics mid symbol element front →
    c.target? mid symbol = some last →
    g.RetracesAll c semantics state last (symbols ++ [symbol]) (elements ++ [element]) (tokens ++ front)
  | _, _, _, _, _, _, _, _, _, .nil, helement, htarget => by simpa using RetracesAll.cons helement htarget .nil
  | _, _, _, _, _, _, _, _, _, .cons hfirst hnext hrest, helement, htarget => by
    rw [List.append_assoc]
    exact .cons hfirst hnext (RetracesAll.concat hrest helement htarget)

/-! ## Stacks -/

/-- The elements of a stack stand for the symbols of a trail after its states, and cover some tokens. -/
inductive Retraced (g : Grammar) (c : Collection) (semantics : Semantics σ N) : List (Frame N) → Trail → List Token → Prop
  | nil : Retraced g c semantics [] [] []
  | cons {frame : Frame N} {below : List (Frame N)} {trail : Trail} {tokens front : List Token} {symbol : SymbolId} :
      Retraced g c semantics below trail tokens → c.target? trail.state symbol = some frame.state →
      g.Retraces c semantics trail.state symbol frame.element front →
      Retraced g c semantics (frame :: below) ((symbol, frame.state) :: trail) (tokens ++ front)

variable {frames : List (Frame N)} {trail : Trail} {tokens : List Token}

theorem Retraced.isTrail (h : g.Retraced c semantics frames trail tokens) : IsTrail c trail := by
  induction h with
  | nil => exact .nil
  | cons _ htarget _ ih => exact .cons ih htarget

theorem Retraced.topState_eq (h : g.Retraced c semantics frames trail tokens) : topState frames = trail.state := by
  cases h <;> rfl

/-- The upper part of a stack covers the last tokens, after the state below it. -/
theorem Retraced.split : ∀ (n : Nat) {frames : List (Frame N)} {trail : Trail} {tokens : List Token},
    g.Retraced c semantics frames trail tokens → n ≤ trail.length → ∃ front back, tokens = front ++ back ∧
      g.Retraced c semantics (frames.drop n) (trail.drop n) front ∧
      g.RetracesAll c semantics (Trail.state (trail.drop n)) trail.state ((trail.take n).map Prod.fst).reverse
        (elements (frames.take n)) back
  | 0, _, _, tokens, h, _ => ⟨tokens, [], by simp, h, .nil⟩
  | n + 1, _, _, _, .nil, hle => absurd hle (Nat.not_succ_le_zero n)
  | n + 1, _, _, _, @Retraced.cons _ _ _ _ _ frame _ _ _ top _ hbelow htarget helement, hle => by
    obtain ⟨front, back, rfl, hdrop, hretraces⟩ := Retraced.split n hbelow (Nat.le_of_succ_le_succ hle)
    refine ⟨front, back ++ top, List.append_assoc _ _ _, hdrop, ?_⟩
    simpa [elements, Trail.state] using hretraces.concat helement htarget

/-- What a reduction of the table finds on a stack: the elements of its body, after a state that holds the production with its
dot in front. -/
theorem Retraced.reduce (wf : g.WellFormed) (hc : g.Automaton c) (h : g.Retraced c semantics frames trail tokens)
    {symbol : SymbolId} {id : ProductionId} (haction : (g.tableOf c).action (topState frames) symbol = .reduce id) :
    ∃ p front back, g.production? id = some p ∧ tokens = front ++ back ∧
      g.Retraced c semantics (frames.drop p.body.length) (trail.drop p.body.length) front ∧
      HasItem c (Trail.state (trail.drop p.body.length)) id 0 ∧
      g.RetracesAll c semantics (Trail.state (trail.drop p.body.length)) trail.state p.body
        (elements (frames.take p.body.length)) back := by
  obtain ⟨S, item, p, hS, hitem, rfl, hp, hdot⟩ := reduce_sound wf hc haction
  rw [h.topState_eq] at hS
  obtain ⟨hle, hbody, -, hbelow⟩ := h.isTrail.pop wf hc p.body.length hS hitem hdot hp
  obtain ⟨front, back, rfl, hdrop, hretraces⟩ := h.split p.body.length hle
  rw [hbody, List.take_length, List.reverse_reverse] at hretraces
  exact ⟨p, front, back, hp, rfl, hdrop, hbelow, hretraces⟩

/-! ## Runs -/

/-- In a table without conflicts, a token is shifted over its own transition if there is one. -/
theorem Conflictless.shift_own (h : g.Conflictless c) {i t : StateId} {token : Token} (hterminal : g.isTerminal token.symbol = true)
    (haction : (g.tableOf c).action i token.symbol = .shift t) : ∃ symbol, c.target? i symbol = some t ∧
      g.isTerminal symbol = true ∧ g.Fits symbol token ∧ token.symbol ≠ g.endOfInput ∧
      (token.symbol ≠ symbol → c.target? i token.symbol = none) := by
  obtain ⟨symbol, htarget, htree, hend⟩ := shift_sound h.augmented haction
  cases htree with
  | leaf hsymbol hfits =>
    cases hown : c.target? i token.symbol with
    | none => exact ⟨symbol, htarget, hsymbol, hfits, hend, fun _ => rfl⟩
    | some t' =>
      obtain ⟨S, -, hS, -, hnext, -⟩ := h.automaton.sound hown
      obtain ⟨item, hitem, hnext⟩ := mem_nextSymbols.mp hnext
      have hshift := action_of_demand h.conflicts hS hitem (demand?_shift hnext hterminal hown)
      obtain rfl : t' = t := by simpa [haction] using hshift.symm
      exact ⟨token.symbol, hown, hterminal, .inl rfl, hend, fun hne => absurd rfl hne⟩

/-- Between two moves: the stack covers the tokens before the input left. -/
def Retracing (g : Grammar) (c : Collection) (semantics : Semantics σ N) (tokens : List Token) (config : Config σ N) : Prop :=
  ∃ trail front lastEnd input, g.Retraced c semantics config.frames trail front ∧ front ++ input = tokens ∧
    nextToken (g.tableOf c).tables lastEnd input = (config.lookahead, config.rest, config.lastEnd)

/-- The invariant of one move. -/
theorem Retracing.step (h : g.Conflictless c) (hterminals : ∀ token ∈ tokens, g.isTerminal token.symbol = true)
    {config next : Config σ N} (hconfig : g.Retracing c semantics tokens config)
    (hstep : Engine.step (g.tableOf c).tables semantics config = .next next) : g.Retracing c semantics tokens next := by
  obtain ⟨trail, front, lastEnd, input, hstack, rfl, hread⟩ := hconfig
  rcases step_next hstep with ⟨target, haction, rfl⟩ | ⟨id, haction, hreduce⟩
  · obtain ⟨-, -, -, hend⟩ := shift_sound h.augmented haction
    obtain rfl := eq_cons_of_nextToken hread hend
    obtain ⟨symbol, htarget, hsymbol, hfits, -, hown⟩ := h.shift_own (hterminals _ (by simp)) haction
    rw [hstack.topState_eq] at htarget hown
    refine ⟨_, _, config.lastEnd, config.rest, .cons hstack htarget (.token hsymbol hfits hown), ?_, rfl⟩
    rw [List.append_assoc, List.singleton_append]
  · cases reducing hreduce with
    | @built p node memory target hp _ _ hnode hgoto =>
      obtain ⟨p', below, back, hp', rfl, hdrop, hitem, hretraces⟩ := hstack.reduce h.wellFormed h.automaton haction
      cases hp'.symm.trans hp
      have htarget := target?_of_goto hgoto
      rw [hdrop.topState_eq] at htarget
      exact ⟨_, _, lastEnd, input, .cons hdrop htarget (.node hp' hitem hretraces (congrArg Prod.fst hnode)), rfl, hread⟩

/-- What an accepted node retraces. -/
theorem Retracing.done (h : g.Conflictless c) (hends : ∀ token ∈ tokens, token.symbol ≠ g.endOfInput) {config : Config σ N}
    (hconfig : g.Retracing c semantics tokens config) {outcome : Outcome σ N}
    (hstep : Engine.step (g.tableOf c).tables semantics config = .done outcome) {node : N} (hnode : outcome.result = .ok node) :
    ∃ symbol symbol', g.IsRoot symbol ∧ g.Retraces c semantics startState symbol (.node symbol' node) tokens := by
  obtain ⟨trail, front, lastEnd, input, hstack, rfl, hread⟩ := hconfig
  obtain ⟨haction, state, nodeSymbol, below, hframes⟩ := step_done hstep hnode
  obtain ⟨hend, S, item, p, hS, hitem, hp, hhead, hdot⟩ := accept_sound h.wellFormed h.automaton haction
  obtain ⟨symbol, hbody, -⟩ := h.augmented.start_body hp hhead
  have hempty : input = [] := by
    cases input with
    | nil => rfl
    | cons token rest =>
      rw [← (Prod.mk.inj hread).1] at hend
      exact absurd hend (hends token (by simp))
  rw [hstack.topState_eq] at hS
  rw [hbody, List.length_singleton] at hdot
  obtain ⟨hle, hlabels, hdrop, S', hS', item', hitem', hproduction, hdot'⟩ :=
    hstack.isTrail.pop h.wellFormed h.automaton 1 hS hitem hdot hp
  rw [hframes] at hstack
  cases hstack with
  | @cons _ _ trail tokens _ label hbelow _ helement =>
    obtain rfl : trail = [] :=
      hdrop.eq_nil_of_start h.wellFormed h.augmented h.automaton hS' hitem' hdot' (hproduction ▸ hp) hhead
    have hlabel : label = symbol := by simpa [hbody] using hlabels
    cases hbelow
    refine ⟨label, nodeSymbol, ⟨item.production, p, hp, hhead, hlabel ▸ hbody⟩, ?_⟩
    simpa [hempty, Trail.state] using helement

/-- The invariant of a whole run. -/
theorem Retracing.run (h : g.Conflictless c) (hterminals : ∀ token ∈ tokens, g.isTerminal token.symbol = true)
    (hends : ∀ token ∈ tokens, token.symbol ≠ g.endOfInput) {node : N} :
    ∀ (fuel : Nat) {config : Config σ N}, g.Retracing c semantics tokens config →
      (Engine.run (g.tableOf c).tables semantics fuel config).result = .ok node →
      ∃ symbol symbol', g.IsRoot symbol ∧ g.Retraces c semantics startState symbol (.node symbol' node) tokens
  | 0, _, _, hnode => by cases hnode
  | fuel + 1, config, hconfig, hnode => by
    rw [Engine.run] at hnode
    split at hnode
    · rename_i next hstep
      exact Retracing.run h hterminals hends fuel (hconfig.step h hterminals hstep) hnode
    · rename_i outcome hstep
      exact hconfig.done h hends hstep hnode

/-- **A parse retraces a derivation** of all tokens, from the start state. -/
theorem Conflictless.parse_retraces (h : g.Conflictless c) (hterminals : ∀ token ∈ tokens, g.isTerminal token.symbol = true)
    (hends : ∀ token ∈ tokens, token.symbol ≠ g.endOfInput) {fuel : Nat} {memory : σ} {node : N}
    (hparse : (Engine.parse (g.tableOf c).tables semantics fuel tokens memory).result = .ok node) :
    ∃ symbol symbol', g.IsRoot symbol ∧ g.Retraces c semantics startState symbol (.node symbol' node) tokens :=
  Retracing.run h hterminals hends fuel ⟨[], [], 0, tokens, .nil, rfl, rfl⟩ hparse

end ShaderFront.Grammar
