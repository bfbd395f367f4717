import Mathlib
import ShaderFront.Proofs.Derivation
import ShaderFront.Proofs.Rows

/-!
# Soundness of the engine

What the engine accepts is derived. The states of the stack spell a path of the automaton, and each element of the stack
is a derivation tree of the symbol over which its state is entered (`Grammar.Path`). A state that holds an item
with its dot at `n` has the first `n` symbols of the body on top of the stack, and below them a state that holds the
item with its dot in front (`Grammar.Path.pop`). So a reduction finds the trees of its body, and an acceptance finds a
single tree on the stack.

`Engine.Moving` and `Engine.Reducing` say once what a move can do; `Grammar.Sound.step` is the invariant of one move and `Grammar.Sound.run` that of a whole run. Tables with conflicts are included: a conflict only drops actions.
-/

namespace ShaderFront

/-! ## Moves of the engine -/

namespace Engine

variable {σ N : Type} {t : Tables} {semantics : Semantics σ N}

/-- The elements of some frames, bottom first. -/
def elements (frames : List (Frame N)) : List (Matched N) := (frames.map (·.element)).reverse

theorem length_elements (frames : List (Frame N)) : (elements frames).length = frames.length := by
  rw [elements, List.length_reverse, List.length_map]

theorem elements_cons (frame : Frame N) (frames : List (Frame N)) : elements (frame :: frames) = elements frames ++ [frame.element] := by
  simp [elements]

/-- The elements of a stack from its lower and its upper part. -/
theorem elements_split (n : Nat) (frames : List (Frame N)) :
    elements frames = elements (frames.drop n) ++ elements (frames.take n) := by
  rw [elements, elements, elements, ← List.reverse_append, ← List.map_append, List.take_append_drop]

/-- The ways a reduction can go. -/
inductive Reducing (t : Tables) (semantics : Semantics σ N) (config : Config σ N) (id : ProductionId) : Move σ N → Prop
  | unknown : t.production? id = none → Reducing t semantics config id (fail (.unknownProduction id) [] config.memory)
  | short {p : Production} : t.production? id = some p → config.frames.length < p.body.length →
      Reducing t semantics config id
        (fail (.stackMismatch id s!"{p.body.length} symbols" s!"{config.frames.length} symbols") [] config.memory)
  | mismatched {p : Production} {expected found : SymbolId} : t.production? id = some p →
      mismatch? t p.body (elements (config.frames.take p.body.length)) = some (expected, found) →
      Reducing t semantics config id (fail (.stackMismatch id (t.symbolName expected) (t.symbolName found)) [] config.memory)
  | refused {p : Production} {e : ParseError} {memory : σ} : t.production? id = some p →
      semantics id (elements (config.frames.take p.body.length)) config.memory = (.error e, memory) →
      Reducing t semantics config id (fail e [] memory)
  | lost {p : Production} {node : N} {memory : σ} : t.production? id = some p →
      semantics id (elements (config.frames.take p.body.length)) config.memory = (.ok node, memory) →
      t.goto (topState (config.frames.drop p.body.length)) p.head = none →
      Reducing t semantics config id
        (fail (.missingGoto (topState (config.frames.drop p.body.length)) (t.symbolName p.head)) [] memory)
  | built {p : Production} {node : N} {memory : σ} {target : StateId} : t.production? id = some p →
      p.body.length ≤ config.frames.length → mismatch? t p.body (elements (config.frames.take p.body.length)) = none →
      semantics id (elements (config.frames.take p.body.length)) config.memory = (.ok node, memory) →
      t.goto (topState (config.frames.drop p.body.length)) p.head = some target →
      Reducing t semantics config id (.next { config with
        frames := ⟨target, .node p.head node⟩ :: config.frames.drop p.body.length
        memory := memory })

/-- **Every reduction goes one of these ways.** -/
theorem reducing {config : Config σ N} {id : ProductionId} {move : Move σ N} (h : reduce t semantics config id = move) :
    Reducing t semantics config id move := by
  subst h
  unfold reduce
  split
  · exact .unknown ‹_›
  rename_i p hp
  dsimp only
  split
  · exact .short hp ‹_›
  rename_i hlength
  split
  · exact .mismatched hp ‹_›
  rename_i hbody
  split
  · exact .refused hp ‹_›
  rename_i node memory hnode
  split
  · exact .lost hp hnode ‹_›
  · exact .built hp (Nat.le_of_not_lt hlength) hbody hnode ‹_›

/-- The ways a move can go. -/
inductive Moving (t : Tables) (semantics : Semantics σ N) (config : Config σ N) : Move σ N → Prop
  | shift {target : StateId} : t.action (topState config.frames) config.lookahead.symbol = .shift target →
      Moving t semantics config (.next { config with
        frames := ⟨target, .token config.lookahead⟩ :: config.frames
        lookahead := (nextToken t config.lastEnd config.rest).1
        rest := (nextToken t config.lastEnd config.rest).2.1
        lastEnd := (nextToken t config.lastEnd config.rest).2.2 })
  | reduce {id : ProductionId} {move : Move σ N} : t.action (topState config.frames) config.lookahead.symbol = .reduce id →
      reduce t semantics config id = move → Moving t semantics config move
  | accept {state : StateId} {symbol : SymbolId} {node : N} {below : List (Frame N)} :
      t.action (topState config.frames) config.lookahead.symbol = .accept →
      config.frames = ⟨state, .node symbol node⟩ :: below → Moving t semantics config (.done ⟨.ok node, [], config.memory⟩)
  | bare : t.action (topState config.frames) config.lookahead.symbol = .accept →
      (∀ state symbol node below, config.frames ≠ ⟨state, .node symbol node⟩ :: below) →
      Moving t semantics config (fail (.semantic "input accepted without a parse tree") [] config.memory)
  | refuse : t.action (topState config.frames) config.lookahead.symbol = .error →
      Moving t semantics config (fail (syntaxError t (topState config.frames) config.lookahead)
        [logEntry (syntaxError t (topState config.frames) config.lookahead) config.frames] config.memory)

/-- **Every move goes one of these ways.** -/
theorem moving {config : Config σ N} {move : Move σ N} (h : step t semantics config = move) : Moving t semantics config move := by
  subst h
  unfold step
  split
  · exact .shift ‹_›
  · exact .reduce ‹_› rfl
  · split
    · exact .accept ‹_› ‹_›
    · exact .bare ‹_› ‹_›
  · exact .refuse ‹_›

/-- **What a move leads to**: a shift or a reduction. -/
theorem step_next {config next : Config σ N}
    (h : step t semantics config = .next next) :
    (∃ target, t.action (topState config.frames) config.lookahead.symbol = .shift target ∧
      next = { config with
        frames := ⟨target, .token config.lookahead⟩ :: config.frames
        lookahead := (nextToken t config.lastEnd config.rest).1
        rest := (nextToken t config.lastEnd config.rest).2.1
        lastEnd := (nextToken t config.lastEnd config.rest).2.2 }) ∨
    ∃ id, t.action (topState config.frames) config.lookahead.symbol = .reduce id ∧
      reduce t semantics config id = .next next := by
  cases moving h with
  | shift haction => exact .inl ⟨_, haction, rfl⟩
  | reduce haction hreduce => exact .inr ⟨_, haction, hreduce⟩

/-- **How a parse ends with a node**: it is accepted, and the node is on top of the stack. -/
theorem step_done {config : Config σ N} {outcome : Outcome σ N} {node : N}
    (h : step t semantics config = .done outcome) (hnode : outcome.result = .ok node) :
    t.action (topState config.frames) config.lookahead.symbol = .accept ∧
      ∃ state symbol below, config.frames = ⟨state, .node symbol node⟩ :: below := by
  cases moving h with
  | reduce _ hreduce => cases reducing hreduce <;> cases hnode
  | accept haction hframes =>
    cases hnode
    exact ⟨haction, _, _, _, hframes⟩
  | bare | refuse => cases hnode

/-- A lookahead other than the end of the input is the first token of the input left. -/
theorem eq_cons_of_nextToken {lastEnd stop : Nat} {input rest : List Token} {lookahead : Token}
    (h : nextToken t lastEnd input = (lookahead, rest, stop)) (hend : lookahead.symbol ≠ t.endOfInput) :
    input = lookahead :: rest := by
  cases input with
  | nil =>
    rw [← (Prod.mk.inj h).1] at hend
    exact absurd rfl hend
  | cons token rest =>
    obtain ⟨hlookahead, hrest⟩ := Prod.mk.inj h
    rw [← hlookahead, ← (Prod.mk.inj hrest).1]

/-! ## Trees on the stack -/

/-- The trees of some frames, bottom first. -/
def stackTrees (frames : List (Frame Tree)) : List Tree := (elements frames).map Tree.ofMatched

theorem stackTrees_cons (frame : Frame Tree) (frames : List (Frame Tree)) :
    stackTrees (frame :: frames) = stackTrees frames ++ [Tree.ofMatched frame.element] := by
  rw [stackTrees, elements_cons, List.map_append]
  rfl

/-- A stack from its lower and its upper part. -/
theorem stackTrees_split (n : Nat) (frames : List (Frame Tree)) :
    stackTrees frames = stackTrees (frames.drop n) ++ stackTrees (frames.take n) := by
  rw [stackTrees, elements_split n, List.map_append]
  rfl

end Engine

namespace Grammar

open Engine

variable {g : Grammar} {c : Collection}

/-! ## Transitions and items -/

/-- The transition over the symbol after a dot leads to the item with its dot moved. -/
theorem Automaton.exists_target (wf : g.WellFormed) (hc : g.Automaton c) {i : StateId} {S : ItemSet} {item : Item}
    {symbol : SymbolId} (hS : c.states[i]? = some S) (hitem : item ∈ S) (hnext : g.nextSymbol item = some symbol) :
    ∃ t T, c.target? i symbol = some t ∧ c.states[t]? = some T ∧ item.advanced ∈ T := by
  obtain ⟨t, T, ht, hT, hsub⟩ := hc.complete hS (mem_nextSymbols.mpr ⟨item, hitem, hnext⟩)
  exact ⟨t, T, ht, hT, hsub _ (wf.advanced_mem_gotoNext hitem hnext)⟩

theorem Automaton.validItem (wf : g.WellFormed) (hc : g.Automaton c) {i : StateId} {S : ItemSet} {item : Item}
    (hS : c.states[i]? = some S) (hitem : item ∈ S) : g.ValidItem item :=
  ((hc.joined hS).isState wf).valid item hitem

/-- A state expands the symbol after a dot with every lookahead that can follow. -/
theorem Automaton.expansion_mem (wf : g.WellFormed) (hc : g.Automaton c) {i : StateId} {S : ItemSet} {item : Item}
    {p q : Production} {id : ProductionId} {a : SymbolId} (hS : c.states[i]? = some S) (hitem : item ∈ S)
    (hp : g.production? item.production = some p) (hnext : p.body[item.dot]? = some q.head)
    (hq : g.production? id = some q) (ha : a ∈ g.followers p item) : ⟨id, 0, a⟩ ∈ S := by
  obtain ⟨s, hs, hterminal⟩ := wf.head hq
  refine ((hc.joined hS).isState wf).closed item hitem _ (mem_demanded.mpr ?_)
  exact ⟨p, q.head, s, hp, hnext, hs, hterminal, (wf.alternatives hs id).mpr ⟨q, hq, rfl⟩, rfl, ha⟩

/-- A kernel item of a state is, up to its lookahead, in GOTO of every state that leads there. -/
theorem Automaton.exists_goto_item (hc : g.Automaton c) {i t : StateId} {symbol : SymbolId}
    (ht : c.target? i symbol = some t) {T : ItemSet} (hT : c.states[t]? = some T) {item : Item} (hitem : item ∈ T)
    (hkernel : g.isKernelItem item = true) : ∃ S, c.states[i]? = some S ∧
      ∃ x ∈ g.gotoNext S symbol, x.production = item.production ∧ x.dot = item.dot := by
  obtain ⟨S, T', hS, hT', -, hker⟩ := hc.sound ht
  cases hT.symm.trans hT'
  have hcore : item.core ∈ g.kernel (g.gotoNext S symbol) := by
    rw [← hker]
    exact mem_kernel.mpr ⟨item, hitem, hkernel, rfl⟩
  obtain ⟨x, hx, -, hxcore⟩ := mem_kernel.mp hcore
  exact ⟨S, hS, x, hx, core_eq_iff.mp hxcore⟩

/-- An item whose dot has moved comes from the item before, over the symbol of the transition. -/
theorem Automaton.exists_before (wf : g.WellFormed) (hc : g.Automaton c) {i t : StateId} {symbol : SymbolId}
    (ht : c.target? i symbol = some t) {T : ItemSet} (hT : c.states[t]? = some T) {item : Item} (hitem : item ∈ T)
    {dot : Nat} (hdot : item.dot = dot + 1) : ∃ S, c.states[i]? = some S ∧
      ∃ item' ∈ S, item'.production = item.production ∧ item'.dot = dot ∧ g.nextSymbol item' = some symbol := by
  obtain ⟨S, hS, x, hx, hproduction, hxdot⟩ := hc.exists_goto_item ht hT hitem (by simp [isKernelItem, hdot])
  obtain ⟨item', hitem', hnext, hyields⟩ := wf.mem_gotoNext.mp hx
  rcases hyields.eq_or_dot with rfl | hzero
  · refine ⟨S, hS, item', hitem', hproduction, ?_, hnext⟩
    have : item'.dot + 1 = item.dot := hxdot
    omega
  · omega

/-- In the start state all dots are in front. -/
theorem Automaton.dot_start (wf : g.WellFormed) (hc : g.Automaton c) {S : ItemSet}
    (hS : c.states[startState]? = some S) {item : Item} (hitem : item ∈ S) : item.dot = 0 := by
  obtain ⟨S', hS', hker, -⟩ := hc.start
  cases hS.symm.trans hS'
  by_contra hdot
  have hkernel : g.isKernelItem item = true := by simp [isKernelItem, Nat.pos_of_ne_zero hdot]
  have hcore : item.core ∈ g.kernel g.initialItemSet := by
    rw [← hker]
    exact mem_kernel.mpr ⟨item, hitem, hkernel, rfl⟩
  obtain ⟨x, hx, -, hxcore⟩ := mem_kernel.mp hcore
  exact hdot ((core_eq_iff.mp hxcore).2 ▸ wf.dot_of_mem_initial hx)

/-- Only the start state holds a start production with its dot in front. -/
theorem Automaton.dot_ne_zero_of_start (wf : g.WellFormed) (haug : g.Augmented) (hc : g.Automaton c) {i t : StateId}
    {symbol : SymbolId} (ht : c.target? i symbol = some t) {T : ItemSet} (hT : c.states[t]? = some T) {item : Item}
    (hitem : item ∈ T) {p : Production} (hp : g.production? item.production = some p) (hhead : p.head = g.start) :
    item.dot ≠ 0 := by
  intro hdot
  obtain ⟨S, -, x, hx, hproduction, hxdot⟩ := hc.exists_goto_item ht hT hitem (by simp [isKernelItem, hp, hhead])
  obtain ⟨item', -, -, hyields⟩ := wf.mem_gotoNext.mp hx
  cases hyields with
  | refl =>
    have : item'.dot + 1 = item.dot := hxdot
    omega
  | tail _ hstep =>
    -- the start production would have to be demanded by a body that contains the start symbol
    obtain ⟨q, next, s, hq, hnext, hs, -, halternative, -, -⟩ := mem_demanded.mp hstep
    obtain ⟨p', hp', hhead'⟩ := (wf.alternatives hs _).mp halternative
    rw [hproduction, hp] at hp'
    cases hp'
    rw [← hhead', hhead] at hnext
    exact haug.start_not_mem hq (List.mem_of_getElem? hnext)

/-! ## Paths -/

/-- The states of a stack spell a path of the automaton, and each element derives the symbol of its transition. -/
inductive Path (g : Grammar) (c : Collection) : List (Frame Tree) → Prop
  | nil : Path g c []
  | cons {frame : Frame Tree} {below : List (Frame Tree)} {symbol : SymbolId} : Path g c below →
      c.target? (topState below) symbol = some frame.state →
      g.Derives g.Fits symbol (Tree.ofMatched frame.element) → Path g c (frame :: below)

/-- **Below a dot stands its body**: the top of the stack derives the symbols before the dot, and the state below
holds the item with its dot in front. -/
theorem Path.pop (wf : g.WellFormed) (hc : g.Automaton c) : ∀ (dot : Nat) {frames : List (Frame Tree)} {S : ItemSet}
    {item : Item} {p : Production}, g.Path c frames → c.states[topState frames]? = some S → item ∈ S →
    item.dot = dot → g.production? item.production = some p →
    dot ≤ frames.length ∧ g.DerivesAll g.Fits (p.body.take dot) (stackTrees (frames.take dot)) ∧
      g.Path c (frames.drop dot) ∧ ∃ S', c.states[topState (frames.drop dot)]? = some S' ∧
        ∃ item' ∈ S', item'.production = item.production ∧ item'.dot = 0
  | 0, _, S, item, _, hpath, hS, hitem, hdot, _ => ⟨Nat.zero_le _, .nil, hpath, S, hS, item, hitem, rfl, hdot⟩
  | dot + 1, [], _, _, _, _, hS, hitem, hdot, _ => by
    rw [hc.dot_start wf hS hitem] at hdot
    cases hdot
  | dot + 1, frame :: below, S, item, p, .cons hpath htarget htree, hS, hitem, hdot, hp => by
    obtain ⟨S', hS', item', hitem', hproduction, hdot', hnext⟩ := hc.exists_before wf htarget hS hitem hdot
    have hp' : g.production? item'.production = some p := by rw [hproduction, hp]
    obtain ⟨hle, htrees, hdrop, S'', hS'', item'', hitem'', hproduction', hdot''⟩ :=
      Path.pop wf hc dot hpath hS' hitem' hdot' hp'
    obtain ⟨p', hp'', hsymbol⟩ := nextSymbol_eq_some.mp hnext
    cases hp'.symm.trans hp''
    rw [hdot'] at hsymbol
    refine ⟨Nat.succ_le_succ hle, ?_, hdrop, S'', hS'', item'', hitem'', hproduction'.trans hproduction, hdot''⟩
    rw [List.take_succ_cons, stackTrees_cons, List.take_add_one, hsymbol]
    exact htrees.concat htree

/-- Nothing lies on the stack where a start production has its dot in front. -/
theorem Path.eq_nil_of_start (wf : g.WellFormed) (haug : g.Augmented) (hc : g.Automaton c) {frames : List (Frame Tree)}
    (h : g.Path c frames) {S : ItemSet} (hS : c.states[topState frames]? = some S) {item : Item} (hitem : item ∈ S)
    (hdot : item.dot = 0) {p : Production} (hp : g.production? item.production = some p) (hhead : p.head = g.start) : frames = [] := by
  cases h with
  | nil => rfl
  | cons _ htarget _ => exact absurd hdot (hc.dot_ne_zero_of_start wf haug htarget hS hitem hp hhead)

/-! ## Actions of the table -/

theorem standsFor_iff {expected actual : SymbolId} : (g.tableOf c).standsFor expected actual = true ↔
    g.wildcard = some expected ∧ actual ≠ g.endOfInput ∧ ¬ actual ∈ g.exclusions := by
  have hstands : (g.tableOf c).standsFor expected actual = true ↔ (g.tableOf c).grammar.wildcard = some expected ∧
      actual ≠ (g.tableOf c).grammar.endOfInput ∧ ¬ actual ∈ (g.tableOf c).grammar.exclusions := by
    simp [Table.standsFor, Table.isExcluded]
  exact hstands

theorem standsFor_fits {expected : SymbolId} {token : Token}
    (h : expected = token.symbol ∨ (g.tableOf c).standsFor expected token.symbol = true) : g.Fits expected token :=
  h.imp Eq.symm standsFor_iff.mp

/-- A shift takes a transition over a terminal after a dot, for the symbol itself or for the wildcard in its place. -/
theorem shift_cases {i t : StateId} {symbol : SymbolId} (h : (g.tableOf c).action i symbol = .shift t) :
    ∃ item expected, g.nextSymbol item = some expected ∧ g.isTerminal expected = true ∧ c.target? i expected = some t ∧
      (expected = symbol ∨ (g.tableOf c).standsFor expected symbol = true) := by
  obtain ⟨S, item, expected, -, -, hdemand, hfits⟩ := action_cases h (by simp)
  rcases demand?_eq_act hdemand with ⟨t', hnext, hterminal, ht, haction⟩ | ⟨_, _, _, h | h⟩
  · cases haction
    exact ⟨item, expected, hnext, hterminal, ht, hfits⟩
  · simp at h
  · simp at h

/-- The end of the input is not shifted if it is in no body. -/
theorem shift_ne_end (hend : ∀ {id : ProductionId} {p : Production}, g.production? id = some p → g.endOfInput ∉ p.body)
    {i t : StateId} {symbol : SymbolId} (h : (g.tableOf c).action i symbol = .shift t) : symbol ≠ g.endOfInput := by
  rintro rfl
  obtain ⟨item, expected, hnext, -, -, rfl | hfits⟩ := shift_cases h
  · obtain ⟨p, hp, hsymbol⟩ := nextSymbol_eq_some.mp hnext
    exact hend hp (List.mem_of_getElem? hsymbol)
  · exact (standsFor_iff.mp hfits).2.1 rfl

/-- A shift takes a transition over a terminal that the token stands for, and never takes the end of the input. -/
theorem shift_sound (haug : g.Augmented) {i t : StateId} {token : Token}
    (h : (g.tableOf c).action i token.symbol = .shift t) : ∃ symbol, c.target? i symbol = some t ∧
      g.Derives g.Fits symbol (.leaf token) ∧ token.symbol ≠ g.endOfInput := by
  obtain ⟨item, symbol, -, hterminal, ht, hfits⟩ := shift_cases h
  exact ⟨symbol, ht, .leaf hterminal (standsFor_fits hfits), shift_ne_end haug.end_not_mem h⟩

/-- A reduction is demanded by an item with its dot at the end, and by none that an acceptance is demanded by. -/
theorem reduce_cases (wf : g.WellFormed) {i : StateId} {symbol : SymbolId} {id : ProductionId}
    (h : (g.tableOf c).action i symbol = .reduce id) : ∃ S item p, c.states[i]? = some S ∧ item ∈ S ∧
      item.production = id ∧ g.production? id = some p ∧ p.body[item.dot]? = none ∧
      ¬(p.head = g.start ∧ item.lookahead = g.endOfInput) := by
  obtain ⟨S, item, expected, hS, hitem, hdemand, -⟩ := action_cases h (by simp)
  rcases demand?_eq_act hdemand with ⟨_, _, _, _, haction⟩ | ⟨p, hp, hnone, h | ⟨hne, -, haction⟩⟩
  · simp at haction
  · simp at h
  · rw [wf.production_id hp, Action.reduce.injEq] at haction
    exact ⟨S, item, p, hS, hitem, haction.symm, haction ▸ hp, hnone, hne⟩

/-- A reduction has its whole body before a dot. -/
theorem reduce_sound (wf : g.WellFormed) (hc : g.Automaton c) {i : StateId} {symbol : SymbolId} {id : ProductionId}
    (h : (g.tableOf c).action i symbol = .reduce id) : ∃ S item p, c.states[i]? = some S ∧ item ∈ S ∧
      item.production = id ∧ g.production? id = some p ∧ item.dot = p.body.length := by
  obtain ⟨S, item, p, hS, hitem, rfl, hp, hnone, -⟩ := reduce_cases wf h
  obtain ⟨p', hp', hle⟩ := (((hc.joined hS).isState wf).valid item hitem).production
  cases hp.symm.trans hp'
  have hlength := List.getElem?_eq_none_iff.mp hnone
  exact ⟨S, item, p, hS, hitem, rfl, hp, by omega⟩

/-- An acceptance has the body of a start production before a dot, at the end of the input. -/
theorem accept_sound (wf : g.WellFormed) (hc : g.Automaton c) {i : StateId} {symbol : SymbolId}
    (h : (g.tableOf c).action i symbol = .accept) : symbol = g.endOfInput ∧ ∃ S item p, c.states[i]? = some S ∧
      item ∈ S ∧ g.production? item.production = some p ∧ p.head = g.start ∧ item.dot = p.body.length := by
  obtain ⟨S, item, expected, hS, hitem, hdemand, hfits⟩ := action_cases h (by simp)
  rcases demand?_eq_act hdemand with ⟨_, _, _, _, haction⟩ | ⟨p, hp, hnone, ⟨hhead, -, hexpected, -⟩ | h⟩
  · simp at haction
  · obtain ⟨p', hp', hle⟩ := (((hc.joined hS).isState wf).valid item hitem).production
    cases hp.symm.trans hp'
    have hlength := List.getElem?_eq_none_iff.mp hnone
    refine ⟨?_, S, item, p, hS, hitem, hp, hhead, by omega⟩
    rcases hfits with rfl | hfits
    · exact hexpected
    · -- the wildcard is not the end of the input
      exact absurd hexpected (wf.wildcard (standsFor_iff.mp hfits).1).2
  · simp at h

/-! ## Runs -/

/-- Between two moves: the stack spells a path, and its leaves followed by the input left are the tokens. -/
structure Sound (g : Grammar) (c : Collection) (tokens : List Token) (config : Config Unit Tree) : Prop where
  path : g.Path c config.frames
  input : ∃ lastEnd input, nextToken (g.tableOf c).tables lastEnd input =
      (config.lookahead, config.rest, config.lastEnd) ∧ Tree.leavesAll (stackTrees config.frames) ++ input = tokens

theorem Sound.start (tokens : List Token) : g.Sound c tokens (Engine.start (g.tableOf c).tables tokens ()) :=
  ⟨.nil, 0, tokens, rfl, rfl⟩

/-- The invariant of one move. -/
theorem Sound.step (wf : g.WellFormed) (haug : g.Augmented) (hc : g.Automaton c) {tokens : List Token}
    {config next : Config Unit Tree} (h : g.Sound c tokens config)
    (hstep : step (g.tableOf c).tables Tree.build config = .next next) : g.Sound c tokens next := by
  obtain ⟨lastEnd, input, hread, hinput⟩ := h.input
  rcases step_next hstep with ⟨target, haction, rfl⟩ | ⟨id, haction, hreduce⟩
  · obtain ⟨symbol, htarget, htree, hend⟩ := shift_sound haug haction
    refine ⟨.cons h.path htarget htree, config.lastEnd, config.rest, rfl, ?_⟩
    rw [stackTrees_cons, Tree.leavesAll_append, List.append_assoc, ← hinput, eq_cons_of_nextToken hread hend]
    rfl
  · cases reducing hreduce with
    | @built p tree memory target hp _ _ htree hgoto =>
      cases htree
      obtain ⟨S, item, p', hS, hitem, hproduction, hp', hdot⟩ := reduce_sound wf hc haction
      cases hp'.symm.trans hp
      obtain ⟨hle, htrees, hdrop, -⟩ := h.path.pop wf hc p.body.length hS hitem hdot (hproduction ▸ hp')
      rw [List.take_length] at htrees
      refine ⟨.cons hdrop (target?_of_goto hgoto) (.node hp' htrees), lastEnd, input, hread, ?_⟩
      rw [stackTrees_cons, Tree.leavesAll_append, ← hinput, stackTrees_split p.body.length config.frames,
        Tree.leavesAll_append]
      simp [stackTrees, Tree.ofMatched, Tree.leavesAll, Tree.leaves]

/-- What an accepted tree is. -/
theorem Sound.done (wf : g.WellFormed) (haug : g.Augmented) (hc : g.Automaton c) {tokens : List Token}
    (htokens : ∀ token ∈ tokens, token.symbol ≠ g.endOfInput) {config : Config Unit Tree} (h : g.Sound c tokens config)
    {outcome : Outcome Unit Tree} (hstep : Engine.step (g.tableOf c).tables Tree.build config = .done outcome)
    {tree : Tree} (htree : outcome.result = .ok tree) :
    ∃ symbol, g.IsRoot symbol ∧ g.Derives g.Fits symbol tree ∧ tree.leaves = tokens := by
  obtain ⟨haction, state, nodeSymbol, below, hframes⟩ := step_done hstep htree
  obtain ⟨hend, S, item, p, hS, hitem, hp, hhead, hdot⟩ := accept_sound wf hc haction
  obtain ⟨symbol, hbody, -⟩ := haug.start_body hp hhead
  obtain ⟨lastEnd, input, hread, hinput⟩ := h.input
  have hpath := h.path
  rw [hframes] at hS hpath hinput
  rw [hbody, List.length_singleton] at hdot
  obtain ⟨-, htrees, hdrop, S', hS', item', hitem', hproduction, hdot'⟩ := hpath.pop wf hc 1 hS hitem hdot hp
  rw [hbody] at htrees
  cases htrees with
  | cons hderives _ =>
    have hbelow : below = [] := hdrop.eq_nil_of_start wf haug hc hS' hitem' hdot' (hproduction ▸ hp) hhead
    have hempty : input = [] := by
      cases input with
      | nil => rfl
      | cons token rest =>
        rw [← (Prod.mk.inj hread).1] at hend
        refine absurd hend (htokens token ?_)
        rw [← hinput]
        exact List.mem_append_right _ List.mem_cons_self
    refine ⟨symbol, ⟨item.production, p, hp, hhead, hbody⟩, hderives, ?_⟩
    rw [← hinput, hempty, hbelow]
    simp [stackTrees, elements, Tree.ofMatched, Tree.leavesAll]

/-- The invariant of a whole run. -/
theorem Sound.run (wf : g.WellFormed) (haug : g.Augmented) (hc : g.Automaton c) {tokens : List Token}
    (htokens : ∀ token ∈ tokens, token.symbol ≠ g.endOfInput) {tree : Tree} :
    ∀ (fuel : Nat) {config : Config Unit Tree}, g.Sound c tokens config →
      (Engine.run (g.tableOf c).tables Tree.build fuel config).result = .ok tree →
      ∃ symbol, g.IsRoot symbol ∧ g.Derives g.Fits symbol tree ∧ tree.leaves = tokens
  | 0, _, _, htree => by cases htree
  | fuel + 1, config, h, htree => by
    rw [Engine.run] at htree
    split at htree
    · rename_i next hstep
      exact Sound.run wf haug hc htokens fuel (h.step wf haug hc hstep) htree
    · rename_i outcome hstep
      exact h.done wf haug hc htokens hstep htree

theorem WellFormed.parse_sound (wf : g.WellFormed) (haug : g.Augmented) (construction : Construction)
    {tokens : List Token} (htokens : ∀ token ∈ tokens, token.symbol ≠ g.endOfInput) {fuel : Nat} {tree : Tree}
    (h : (Engine.parse (g.table construction).tables Tree.build fuel tokens ()).result = .ok tree) :
    ∃ symbol, g.IsRoot symbol ∧ g.Derives g.Fits symbol tree ∧ tree.leaves = tokens :=
  Sound.run wf haug (wf.automaton construction) htokens fuel (Sound.start tokens) h

/-- **Soundness**: for every grammar a builder gives and every construction, a tree that the engine returns is a derivation
tree of the body of a start production, and its leaves are the tokens read. -/
theorem accepted_tree_derives {requests : List Builder.Request} {g : Grammar}
    (hbuild : (Builder.after requests).build = .ok g) (haug : g.Augmented) (construction : Construction)
    {tokens : List Token} (htokens : ∀ token ∈ tokens, token.symbol ≠ g.endOfInput) {fuel : Nat} {tree : Tree}
    (h : (Engine.parse (g.table construction).tables Tree.build fuel tokens ()).result = .ok tree) :
    ∃ symbol, g.IsRoot symbol ∧ g.Derives g.Fits symbol tree ∧ tree.leaves = tokens :=
  (wellFormed_of_build hbuild).parse_sound haug construction htokens h

/-- A tree of nested parentheses that the engine returns, and what follows for it. -/
theorem accepted_tree_derives_parentheses :
    (Engine.parse (parentheses.table .unioned).tables Tree.build 10 sampleTokens ()).result = .ok sampleTree ∧
      ∃ symbol, parentheses.IsRoot symbol ∧ parentheses.Derives parentheses.Fits symbol sampleTree ∧
        sampleTree.leaves = sampleTokens := by
  have hparse : (Engine.parse (parentheses.table .unioned).tables Tree.build 10 sampleTokens ()).result =
      .ok sampleTree := by decide +kernel
  exact ⟨hparse, accepted_tree_derives build_parentheses augmented_parentheses .unioned (by decide +kernel) hparse⟩

end Grammar

end ShaderFront
