import Mathlib
import ShaderFront.Proofs.Soundness

/-!
# Safety of the engine

The tables of an automaton are consistent: whatever the tokens are, the engine never finds a body missing from the
stack, a production it does not know, or a nonterminal without a goto. This holds of rejected inputs and of tables with
conflicts as well, and for any semantics.

The invariant is weaker than the one for accepted trees. The states of the stack spell a path of the automaton, a trail
(`Grammar.IsTrail`), and each element matches the symbol of its transition as the engine compares them
(`Grammar.Spelled`). A reduction then finds its body on the stack (`Grammar.IsTrail.pop`), and below it a state that holds
the production with its dot in front. Such an item is there because another one waits for its head
(`Grammar.IsState.exists_waiting`), unless the head is the start symbol; and a start production that no body asks for is
accepted, never reduced (`Grammar.Joined.lookahead_of_start`).
-/

namespace ShaderFront

/-- Whether an error reports an inconsistency of the tables. -/
def ParseError.isInternal : ParseError → Bool
  | .stackMismatch _ _ _ => true
  | .unknownProduction _ => true
  | .missingGoto _ _ => true
  | _ => false

/-! ## Moves with any semantics -/

namespace Engine

variable {σ N : Type} {t : Tables} {semantics : Semantics σ N}

/-- Elements that match their symbols one by one are no mismatch. -/
theorem mismatch?_eq_none : ∀ {symbols : List SymbolId} {body : List (Matched N)},
    List.Forall₂ (fun symbol element => symbol = element.symbol ∨ t.standsFor symbol element.symbol = true) symbols body →
      mismatch? t symbols body = none
  | _, _, .nil => rfl
  | _, _, .cons hfirst hrest => by
    rw [mismatch?, if_pos (by simpa using hfirst)]
    exact mismatch?_eq_none hrest

/-- A reduction that finds its body on the stack leaves the rest to the semantics and the goto. -/
theorem reduce_eq {config : Config σ N} {id : ProductionId} {p : Production} (hp : t.production? id = some p)
    (hlength : p.body.length ≤ config.frames.length)
    (hbody : mismatch? t p.body (elements (config.frames.take p.body.length)) = none) :
    reduce t semantics config id =
      match semantics id (elements (config.frames.take p.body.length)) config.memory with
      | (.error e, memory) => fail e [] memory
      | (.ok node, memory) =>
        match t.goto (topState (config.frames.drop p.body.length)) p.head with
        | none => fail (.missingGoto (topState (config.frames.drop p.body.length)) (t.symbolName p.head)) [] memory
        | some target =>
          .next { config with
            frames := ⟨target, .node p.head node⟩ :: config.frames.drop p.body.length, memory } := by
  rw [elements] at hbody ⊢
  simp only [reduce, hp, if_neg (Nat.not_lt.mpr hlength)]
  generalize mismatch? t p.body _ = wrong? at hbody
  subst hbody
  rfl

theorem isInternal_syntaxError (state : StateId) (lookahead : Token) :
    (syntaxError t state lookahead).isInternal = false := by
  rw [syntaxError]
  split <;> rfl

end Engine

namespace Grammar

open Engine

variable {g : Grammar} {c : Collection} {σ N : Type}

/-! ## Items of the start symbol -/

/-- No body contains a symbol. -/
def Avoids (g : Grammar) (symbol : SymbolId) : Prop := ∀ p ∈ g.productions.toList, symbol ∉ p.body

instance {symbol : SymbolId} : Decidable (g.Avoids symbol) :=
  inferInstanceAs (Decidable (∀ p ∈ g.productions.toList, symbol ∉ p.body))

theorem Avoids.not_mem {symbol : SymbolId} (h : g.Avoids symbol) {id : ProductionId} {p : Production}
    (hp : g.production? id = some p) : symbol ∉ p.body :=
  h p (Array.mem_toList_iff.mpr (Array.mem_of_getElem? hp))

/-- An item with its dot in front is in a state because another one waits for its head, or is there from the start. -/
theorem IsState.exists_waiting (wf : g.WellFormed) {S : ItemSet} (h : g.IsState S) {item : Item} (hitem : item ∈ S)
    (hdot : item.dot = 0) {p : Production} (hp : g.production? item.production = some p) (hhead : p.head ≠ g.start) :
    ∃ waiting ∈ S, g.nextSymbol waiting = some p.head := by
  obtain ⟨k, hk, hkernel, hyields⟩ := h.generated item hitem
  rcases hyields.cases_tail with rfl | ⟨waiting, hwaiting, hstep⟩
  · simp [isKernelItem, hdot, hp, hhead] at hkernel
  · obtain ⟨q, next, s, hq, hnext, hs, -, halternative, -, -⟩ := mem_demanded.mp hstep
    obtain ⟨p', hp', hhead'⟩ := (wf.alternatives hs _).mp halternative
    cases hp.symm.trans hp'
    refine ⟨waiting, h.yields hk hwaiting, nextSymbol_eq_some.mpr ⟨q, hq, ?_⟩⟩
    rw [hhead']
    exact hnext

/-- Where no body asks for the start symbol, the productions of the start symbol are not demanded by an item. -/
theorem WellFormed.eq_of_yields_start (wf : g.WellFormed) (hstart : g.Avoids g.start) {i j : Item}
    (h : g.Yields i j) {p : Production} (hp : g.production? j.production = some p) (hhead : p.head = g.start) :
    j = i := by
  rcases h.cases_tail with rfl | ⟨k, -, hstep⟩
  · rfl
  · obtain ⟨q, next, s, hq, hnext, hs, -, halternative, -, -⟩ := mem_demanded.mp hstep
    obtain ⟨p', hp', hhead'⟩ := (wf.alternatives hs _).mp halternative
    cases hp.symm.trans hp'
    rw [← hhead', hhead] at hnext
    exact absurd (List.mem_of_getElem? hnext) (hstart.not_mem hq)

/-- Start productions that no body asks for only ever look ahead to the end of the input. -/
theorem Reached.lookahead_of_start (wf : g.WellFormed) (hstart : g.Avoids g.start) {R : ItemSet}
    (h : g.Reached R) : ∀ item ∈ R, ∀ p, g.production? item.production = some p → p.head = g.start →
      item.lookahead = g.endOfInput := by
  induction h with
  | initial =>
    intro item hitem p hp hhead
    obtain ⟨id, q, -, -, hyields⟩ := wf.mem_initialItemSet.mp hitem
    rw [wf.eq_of_yields_start hstart hyields hp hhead]
  | goto _ _ ih =>
    intro item hitem p hp hhead
    obtain ⟨i, hi, -, hyields⟩ := wf.mem_gotoNext.mp hitem
    obtain rfl := wf.eq_of_yields_start hstart hyields hp hhead
    exact ih i hi p hp hhead

theorem Joined.lookahead_of_start (wf : g.WellFormed) (hstart : g.Avoids g.start) {K : Kernel}
    {S : ItemSet} (h : g.Joined K S) {item : Item} (hitem : item ∈ S) {p : Production}
    (hp : g.production? item.production = some p) (hhead : p.head = g.start) : item.lookahead = g.endOfInput := by
  obtain ⟨R, hR, -, -, hmem⟩ := h.cover item hitem
  exact hR.lookahead_of_start wf hstart item hmem p hp hhead

/-! ## Trails -/

/-- A stack of symbols with the states entered over them, top first. -/
abbrev Trail := List (SymbolId × StateId)

/-- The state on top of a trail. -/
def Trail.state : Trail → StateId
  | [] => startState
  | (_, state) :: _ => state

/-- The states of a trail spell a path of the automaton. -/
inductive IsTrail (c : Collection) : Trail → Prop
  | nil : IsTrail c []
  | cons {symbol : SymbolId} {state : StateId} {below : Trail} : IsTrail c below →
      c.target? below.state symbol = some state → IsTrail c ((symbol, state) :: below)

/-- A trail is empty where a start production has its dot in front. -/
theorem IsTrail.eq_nil_of_start (wf : g.WellFormed) (haug : g.Augmented) (hc : g.Automaton c) {trail : Trail} (h : IsTrail c trail)
    {S : ItemSet} (hS : c.states[trail.state]? = some S) {item : Item} (hitem : item ∈ S) (hdot : item.dot = 0) {p : Production}
    (hp : g.production? item.production = some p) (hhead : p.head = g.start) : trail = [] := by
  cases h with
  | nil => rfl
  | cons _ htarget => exact absurd hdot (hc.dot_ne_zero_of_start wf haug htarget hS hitem hp hhead)

/-- **Below a dot stands its body**: the symbols before the dot are on top of the trail, and the state below holds the item
with its dot in front. -/
theorem IsTrail.pop (wf : g.WellFormed) (hc : g.Automaton c) : ∀ (dot : Nat) {trail : Trail} {S : ItemSet} {item : Item}
    {p : Production}, IsTrail c trail → c.states[trail.state]? = some S → item ∈ S → item.dot = dot →
    g.production? item.production = some p →
    dot ≤ trail.length ∧ (trail.take dot).map Prod.fst = (p.body.take dot).reverse ∧ IsTrail c (trail.drop dot) ∧
      ∃ S', c.states[Trail.state (trail.drop dot)]? = some S' ∧
        ∃ item' ∈ S', item'.production = item.production ∧ item'.dot = 0
  | 0, _, S, item, _, htrail, hS, hitem, hdot, _ => ⟨Nat.zero_le _, rfl, htrail, S, hS, item, hitem, rfl, hdot⟩
  | dot + 1, [], _, _, _, _, hS, hitem, hdot, _ => by
    rw [hc.dot_start wf hS hitem] at hdot
    cases hdot
  | dot + 1, (symbol, state) :: below, S, item, p, .cons hbelow htarget, hS, hitem, hdot, hp => by
    obtain ⟨S', hS', item', hitem', hproduction, hdot', hnext⟩ := hc.exists_before wf htarget hS hitem hdot
    have hp' : g.production? item'.production = some p := by rw [hproduction, hp]
    obtain ⟨hle, hbody, hdrop, S'', hS'', item'', hitem'', hproduction', hdot''⟩ :=
      IsTrail.pop wf hc dot hbelow hS' hitem' hdot' hp'
    obtain ⟨p', hp'', hsymbol⟩ := nextSymbol_eq_some.mp hnext
    cases hp'.symm.trans hp''
    rw [hdot'] at hsymbol
    refine ⟨Nat.succ_le_succ hle, ?_, hdrop, S'', hS'', item'', hitem'', hproduction'.trans hproduction, hdot''⟩
    rw [List.take_succ_cons, List.map_cons, hbody, List.take_add_one, hsymbol]
    simp

/-! ## Stacks -/

/-- A frame of the engine stands for an entry of a trail. -/
def Stands (g : Grammar) (c : Collection) (frame : Frame N) (entry : SymbolId × StateId) : Prop :=
  frame.state = entry.2 ∧
    (entry.1 = frame.element.symbol ∨ (g.tableOf c).tables.standsFor entry.1 frame.element.symbol = true)

/-- The stack of the engine stands for a trail. -/
def Spelled (g : Grammar) (c : Collection) (frames : List (Frame N)) (trail : Trail) : Prop :=
  IsTrail c trail ∧ List.Forall₂ (g.Stands c) frames trail

theorem Spelled.topState_eq {frames : List (Frame N)} {trail : Trail} (h : g.Spelled c frames trail) :
    topState frames = trail.state := by
  cases h.2 with
  | nil => rfl
  | cons hframe _ => exact hframe.1

theorem Spelled.cons {frames : List (Frame N)} {trail : Trail} (h : g.Spelled c frames trail) {frame : Frame N}
    {symbol : SymbolId} (htarget : c.target? (topState frames) symbol = some frame.state)
    (hfits : symbol = frame.element.symbol ∨ (g.tableOf c).tables.standsFor symbol frame.element.symbol = true) :
    g.Spelled c (frame :: frames) ((symbol, frame.state) :: trail) :=
  ⟨.cons h.1 (h.topState_eq ▸ htarget), .cons ⟨rfl, hfits⟩ h.2⟩

/-- What a reduction of the table finds on a stack: its body, and below it the production with its dot in front. -/
theorem Spelled.reduce (wf : g.WellFormed) (hc : g.Automaton c) {frames : List (Frame N)} {trail : Trail}
    (h : g.Spelled c frames trail) {symbol : SymbolId} {id : ProductionId}
    (haction : (g.tableOf c).action (topState frames) symbol = .reduce id) :
    ∃ p, g.production? id = some p ∧ p.body.length ≤ frames.length ∧
      mismatch? (g.tableOf c).tables p.body (elements (frames.take p.body.length)) = none ∧
      g.Spelled c (frames.drop p.body.length) (trail.drop p.body.length) ∧
      ∃ S, c.states[topState (frames.drop p.body.length)]? = some S ∧ ∃ item ∈ S, item.production = id ∧ item.dot = 0 := by
  obtain ⟨S, item, p, hS, hitem, rfl, hp, hdot⟩ := reduce_sound wf hc haction
  rw [h.topState_eq] at hS
  obtain ⟨hle, hbody, hdrop, hbelow⟩ := h.1.pop wf hc p.body.length hS hitem hdot hp
  rw [List.take_length] at hbody
  have hspelled : g.Spelled c (frames.drop p.body.length) (trail.drop p.body.length) :=
    ⟨hdrop, List.forall₂_drop _ h.2⟩
  rw [← hspelled.topState_eq] at hbelow
  have hmatch : List.Forall₂ (fun symbol (element : Matched N) => symbol = element.symbol ∨
      (g.tableOf c).tables.standsFor symbol element.symbol = true) ((trail.take p.body.length).map Prod.fst)
      ((frames.take p.body.length).map (·.element)) := by
    rw [List.forall₂_map_left_iff, List.forall₂_map_right_iff]
    exact (List.forall₂_take _ h.2).flip.imp fun _ _ hstands => hstands.2
  rw [hbody, ← List.forall₂_reverse_iff, List.reverse_reverse] at hmatch
  exact ⟨p, hp, by rwa [h.2.length_eq], mismatch?_eq_none hmatch, hspelled, hbelow⟩

/-- What a reduction leads to: the head of the production in the place of its body. -/
theorem Spelled.reduce_next (wf : g.WellFormed) (hc : g.Automaton c) {semantics : Semantics σ N}
    {config next : Config σ N} {trail : Trail} (h : g.Spelled c config.frames trail) {symbol : SymbolId}
    {id : ProductionId} (haction : (g.tableOf c).action (topState config.frames) symbol = .reduce id)
    (hreduce : Engine.reduce (g.tableOf c).tables semantics config id = .next next) :
    ∃ p target, g.production? id = some p ∧ p.body.length ≤ trail.length ∧
      c.target? (Trail.state (trail.drop p.body.length)) p.head = some target ∧
      g.Spelled c next.frames ((p.head, target) :: trail.drop p.body.length) ∧
      next.lookahead = config.lookahead ∧ next.rest = config.rest := by
  obtain ⟨p, hp, hle, hmatch, hdrop, -⟩ := h.reduce wf hc haction
  rw [reduce_eq hp hle hmatch] at hreduce
  split at hreduce
  · cases hreduce
  · split at hreduce
    · cases hreduce
    · rename_i target hgoto
      cases hreduce
      have htarget := target?_of_goto hgoto
      refine ⟨p, target, hp, by rwa [← h.2.length_eq], ?_, hdrop.cons htarget (Or.inl rfl), rfl, rfl⟩
      rwa [← hdrop.topState_eq]

/-- **The invariant of one move**: the stack still stands for a trail. -/
theorem Spelled.step (wf : g.WellFormed) (hc : g.Automaton c) {semantics : Semantics σ N} {config next : Config σ N}
    {trail : Trail} (h : g.Spelled c config.frames trail)
    (hstep : Engine.step (g.tableOf c).tables semantics config = .next next) :
    ∃ trail', g.Spelled c next.frames trail' := by
  rcases step_next hstep with ⟨target, haction, rfl⟩ | ⟨id, haction, hreduce⟩
  · obtain ⟨_, symbol, -, -, htarget, hfits⟩ := shift_cases haction
    exact ⟨_, h.cons htarget hfits⟩
  · obtain ⟨p, target, -, -, -, hspelled, -⟩ := h.reduce_next wf hc haction hreduce
    exact ⟨_, hspelled⟩

/-! ## No internal errors -/

/-- A reduction of the table finds a goto for its head. -/
theorem Automaton.exists_goto (wf : g.WellFormed) (hc : g.Automaton c) {i : StateId} {S : ItemSet}
    (hS : c.states[i]? = some S) {item : Item} (hitem : item ∈ S) (hdot : item.dot = 0) {p : Production}
    (hp : g.production? item.production = some p) (hhead : p.head ≠ g.start) :
    ∃ target, (g.tableOf c).goto i p.head = some target := by
  obtain ⟨waiting, hwaiting, hnext⟩ := ((hc.joined hS).isState wf).exists_waiting wf hitem hdot hp hhead
  obtain ⟨target, -, htarget, -, -⟩ := hc.complete hS (mem_nextSymbols.mpr ⟨waiting, hwaiting, hnext⟩)
  obtain ⟨s, hs, hnone⟩ := wf.head hp
  have hterminal : g.isTerminal p.head = false := by simp [isTerminal, hs, hnone]
  exact ⟨target, goto_of_target? hS hwaiting hnext hterminal htarget⟩

/-- A start production that no body asks for is never reduced. -/
theorem Automaton.head_ne_start (wf : g.WellFormed) (hc : g.Automaton c) (hstart : g.Avoids g.start) {i : StateId}
    {symbol : SymbolId} {id : ProductionId} (h : (g.tableOf c).action i symbol = .reduce id) {p : Production}
    (hp : g.production? id = some p) : p.head ≠ g.start := by
  intro hhead
  obtain ⟨S, item, q, hS, hitem, rfl, hq, -, hne⟩ := reduce_cases wf h
  cases hp.symm.trans hq
  exact hne ⟨hhead, (hc.joined hS).lookahead_of_start wf hstart hitem hq hhead⟩

/-- The last move of a parse makes no internal error. -/
theorem Spelled.done (wf : g.WellFormed) (hc : g.Automaton c) (hstart : g.Avoids g.start)
    {semantics : Semantics σ N}
    (hsemantics : ∀ id body memory e, (semantics id body memory).1 = .error e → e.isInternal = false)
    {config : Config σ N} {trail : Trail} (h : g.Spelled c config.frames trail) {outcome : Outcome σ N} {e : ParseError}
    (hstep : Engine.step (g.tableOf c).tables semantics config = .done outcome) (he : outcome.result = .error e) :
    e.isInternal = false := by
  cases moving hstep with
  | accept => cases he
  | bare =>
    cases he
    rfl
  | refuse =>
    cases he
    exact isInternal_syntaxError _ _
  | reduce haction hreduce =>
    obtain ⟨p, hp, hle, hmatch, -, S, hS, item, hitem, rfl, hdot⟩ := h.reduce wf hc haction
    obtain ⟨target, hgoto⟩ := hc.exists_goto wf hS hitem hdot hp (hc.head_ne_start wf hstart haction hp)
    rw [reduce_eq hp hle hmatch] at hreduce
    split at hreduce
    · rename_i e' memory hfail
      cases hreduce
      cases he
      exact hsemantics _ _ _ _ (congrArg Prod.fst hfail)
    · have hgoto' : (g.tableOf c).tables.goto (topState (config.frames.drop p.body.length)) p.head = some target := hgoto
      rw [hgoto'] at hreduce
      cases hreduce

/-- A whole run makes no internal error. -/
theorem Spelled.run (wf : g.WellFormed) (hc : g.Automaton c) (hstart : g.Avoids g.start)
    {semantics : Semantics σ N}
    (hsemantics : ∀ id body memory e, (semantics id body memory).1 = .error e → e.isInternal = false)
    {e : ParseError} : ∀ (fuel : Nat) {config : Config σ N} {trail : Trail}, g.Spelled c config.frames trail →
      (Engine.run (g.tableOf c).tables semantics fuel config).result = .error e → e.isInternal = false
  | 0, _, _, _, he => by
    cases he
    rfl
  | fuel + 1, config, trail, h, he => by
    rw [Engine.run] at he
    split at he
    · rename_i next hstep
      obtain ⟨trail', h'⟩ := h.step wf hc hstep
      exact Spelled.run wf hc hstart hsemantics fuel h' he
    · rename_i outcome hstep
      exact h.done wf hc hstart hsemantics hstep he

/-- **Tables are consistent**: for every grammar a builder gives in which no body contains the start symbol, every
construction, every list of tokens and every semantics that makes no internal error itself, the engine ends without an
internal error. -/
theorem no_internal_error {requests : List Builder.Request} {g : Grammar}
    (hbuild : (Builder.after requests).build = .ok g) (hstart : g.Avoids g.start) (construction : Construction)
    {σ N : Type} (semantics : Semantics σ N)
    (hsemantics : ∀ id body memory e, (semantics id body memory).1 = .error e → e.isInternal = false)
    (fuel : Nat) (tokens : List Token) (memory : σ) (e : ParseError)
    (h : (Engine.parse (g.table construction).tables semantics fuel tokens memory).result = .error e) :
    e.isInternal = false :=
  have wf := wellFormed_of_build hbuild
  Spelled.run wf (wf.automaton construction) hstart hsemantics fuel ⟨.nil, .nil⟩ h

/-- Requests for an ambiguous grammar of sequences with a wildcard. -/
def sequenceRequests : List Builder.Request :=
  [.terminal "a" 1 .common, .terminal "any" 2 .wildcard, .terminal "stop" 3 .common, .exclude "stop",
    .symbols "$START$" ["S"], .symbols "S" ["S", "S"], .symbols "S" ["a"], .symbols "S" ["any"]]

/-- The table of the sequences has conflicts. An unknown token and the number of a nonterminal are taken by the wildcard,
and the token after them is a wrong input. -/
theorem no_internal_error_sequence :
    ((Builder.after sequenceRequests).freeze.table .merged).conflicts ≠ [] ∧
      ∃ e, (Engine.parse ((Builder.after sequenceRequests).freeze.table .merged).tables Tree.build 10
        [⟨99, "?", ⟨0, 1⟩⟩, ⟨4, "S", ⟨1, 2⟩⟩, ⟨3, ".", ⟨2, 3⟩⟩] ()).result = .error e ∧
        (∃ expected, e = .unexpectedToken "." expected ⟨2, 3⟩) ∧ e.isInternal = false := by
  have hbuild : (Builder.after sequenceRequests).build = .ok (Builder.after sequenceRequests).freeze :=
    Builder.build_of_isOk (by decide +kernel)
  have hparse : (Engine.parse ((Builder.after sequenceRequests).freeze.table .merged).tables Tree.build 10
      [⟨99, "?", ⟨0, 1⟩⟩, ⟨4, "S", ⟨1, 2⟩⟩, ⟨3, ".", ⟨2, 3⟩⟩] ()).result =
        .error (.unexpectedToken "." ["a", "any", "$END$"] ⟨2, 3⟩) := by decide +kernel
  refine ⟨by decide +kernel, _, hparse, ⟨_, rfl⟩, ?_⟩
  exact no_internal_error hbuild (by decide +kernel) .merged Tree.build (by simp [Tree.build]) 10 _ () _ hparse

end Grammar

end ShaderFront
