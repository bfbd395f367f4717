import Mathlib
import ShaderFront.Proofs.Soundness

/-!
# Completeness of the engine

A table without conflicts reads every derivation, whatever the semantics builds. A symbol is readable from some tokens
(`Grammar.Readable`) if from every state that expects it, and with input that may follow, the engine reads the tokens and
arrives at the state of the transition with an element for the symbol on top. Terminals are readable
(`Grammar.Conflictless.readable_token`), and a nonterminal is if the body of one of its productions is
(`Grammar.Conflictless.readable_node`), symbol by symbol.

A token need not be known by the terminal it is taken as: the wildcard stands in for others. Then it must have no action of its
own where it is taken (`Grammar.Alike`).

For derivation trees it follows that an ambiguous grammar has conflicts, and, with soundness, that the canonical table and the
table of unions parse the same trees.
-/

namespace ShaderFront

/-! ## Stack elements of trees -/

namespace Tree

/-- The stack element of a tree of a symbol. -/
def element (symbol : SymbolId) : Tree → Matched Tree
  | .leaf token => .token token
  | .node production children => .node symbol (.node production children)

@[simp]
theorem ofMatched_element (symbol : SymbolId) (tree : Tree) : ofMatched (tree.element symbol) = tree := by
  cases tree <;> rfl

end Tree

theorem Grammar.DerivesAll.map_ofMatched {g : Grammar} : ∀ {symbols : List SymbolId} {trees : List Tree},
    g.DerivesAll Exact symbols trees → (symbols.zipWith Tree.element trees).map Tree.ofMatched = trees
  | _, _, .nil => rfl
  | _, _, .cons _ htrees => by
    rw [List.zipWith_cons_cons, List.map_cons, Grammar.DerivesAll.map_ofMatched htrees, Tree.ofMatched_element]

/-! ## Tokens and terminals -/

/-- A token, taken as a terminal. -/
structure Taken where
  symbol : SymbolId
  token : Token

namespace Taken

/-- A token taken as the terminal it is known by. -/
def plain (token : Token) : Taken := ⟨token.symbol, token⟩

/-- The token that would be known by the terminal. -/
def known (r : Taken) : Token := { r.token with symbol := r.symbol }

@[simp]
theorem map_known_plain (tokens : List Token) : (tokens.map plain).map known = tokens := by
  rw [List.map_map]
  exact List.map_id tokens

@[simp]
theorem map_token_plain (tokens : List Token) : (tokens.map plain).map token = tokens := by
  rw [List.map_map]
  exact List.map_id tokens

end Taken

/-! ## Moves -/

namespace Engine

variable {N : Type} {t : Tables} {semantics : Semantics Unit N}

/-- The configuration with some frames and some input left. -/
def reading (t : Tables) (frames : List (Frame N)) (lastEnd : Nat) (input : List Token) : Config Unit N :=
  { frames
    lookahead := (nextToken t lastEnd input).1
    rest := (nextToken t lastEnd input).2.1
    lastEnd := (nextToken t lastEnd input).2.2
    memory := () }

theorem symbol_lookahead_reading (frames : List (Frame N)) (lastEnd : Nat) (input : List Token) :
    (reading t frames lastEnd input).lookahead.symbol = Grammar.leading t.endOfInput input := by
  cases input <;> rfl

/-- The first configuration gets to the second one in some number of moves. -/
def Leads (t : Tables) (semantics : Semantics Unit N) (c d : Config Unit N) : Prop :=
  ∃ n, ∀ fuel, run t semantics (fuel + n) c = run t semantics fuel d

theorem Leads.refl (c : Config Unit N) : Leads t semantics c c := ⟨0, fun _ => rfl⟩

theorem Leads.trans {c d e : Config Unit N} (h : Leads t semantics c d) (h' : Leads t semantics d e) :
    Leads t semantics c e := by
  obtain ⟨n, hn⟩ := h
  obtain ⟨n', hn'⟩ := h'
  refine ⟨n' + n, fun fuel => ?_⟩
  rw [← Nat.add_assoc, hn, hn']

theorem Leads.of_step {c d : Config Unit N} (h : step t semantics c = .next d) : Leads t semantics c d := by
  refine ⟨1, fun fuel => ?_⟩
  rw [run, h]

/-- A shift. -/
theorem leads_shift {frames : List (Frame N)} {lastEnd : Nat} {token : Token} {input : List Token} {target : StateId}
    (h : t.action (topState frames) token.symbol = .shift target) :
    Leads t semantics (reading t frames lastEnd (token :: input))
      (reading t (⟨target, .token token⟩ :: frames) token.span.stop input) := by
  apply Leads.of_step
  have haction : t.action (topState (reading t frames lastEnd (token :: input)).frames)
      (reading t frames lastEnd (token :: input)).lookahead.symbol = .shift target := h
  rw [step, haction]
  rfl

/-- A reduction. -/
theorem leads_reduce {top below : List (Frame N)} {lastEnd : Nat} {input : List Token} {id : ProductionId}
    {p : Production} {elements : List (Matched N)} {node : N} {target : StateId}
    (haction : t.action (topState (top ++ below)) (Grammar.leading t.endOfInput input) = .reduce id)
    (hp : t.production? id = some p) (hlength : top.length = p.body.length)
    (helements : (top.map (·.element)).reverse = elements) (hmismatch : mismatch? t p.body elements = none)
    (hnode : semantics id elements () = (.ok node, ())) (hgoto : t.goto (topState below) p.head = some target) :
    Leads t semantics (reading t (top ++ below) lastEnd input)
      (reading t (⟨target, .node p.head node⟩ :: below) lastEnd input) := by
  apply Leads.of_step
  rw [← symbol_lookahead_reading (top ++ below) lastEnd input] at haction
  rw [step, show (reading t (top ++ below) lastEnd input).frames = top ++ below from rfl, haction]
  simp only [reduce, hp]
  rw [show (reading t (top ++ below) lastEnd input).frames = top ++ below from rfl,
    if_neg (by rw [List.length_append]; omega), ← hlength, List.take_left, List.drop_left, helements]
  simp only [hmismatch, show (reading t (top ++ below) lastEnd input).memory = () from rfl, hnode, hgoto]
  rfl

end Engine

namespace Grammar

open Engine

variable {g : Grammar} {c : Collection} {N : Type} {semantics : Semantics Unit N}

/-- An automaton of a grammar, without conflicts in its table. -/
structure Conflictless (g : Grammar) (c : Collection) : Prop where
  wellFormed : g.WellFormed
  augmented : g.Augmented
  automaton : g.Automaton c
  conflicts : (g.tableOf c).conflicts = []

/-- The transition over the symbol after a dot leads to the item with its dot moved. -/
theorem Conflictless.exists_target (h : g.Conflictless c) {i : StateId} {S : ItemSet} {item : Item} {symbol : SymbolId}
    (hS : c.states[i]? = some S) (hitem : item ∈ S) (hnext : g.nextSymbol item = some symbol) :
    ∃ t T, c.target? i symbol = some t ∧ c.states[t]? = some T ∧ item.advanced ∈ T :=
  h.automaton.exists_target h.wellFormed hS hitem hnext

theorem Conflictless.validItem (h : g.Conflictless c) {i : StateId} {S : ItemSet} {item : Item}
    (hS : c.states[i]? = some S) (hitem : item ∈ S) : g.ValidItem item :=
  h.automaton.validItem h.wellFormed hS hitem

/-- A state expands the symbol after a dot with every lookahead that can follow. -/
theorem Conflictless.expansion_mem (h : g.Conflictless c) {i : StateId} {S : ItemSet} {item : Item} {p q : Production}
    {id : ProductionId} {a : SymbolId} (hS : c.states[i]? = some S) (hitem : item ∈ S)
    (hp : g.production? item.production = some p) (hnext : p.body[item.dot]? = some q.head)
    (hq : g.production? id = some q) (ha : a ∈ g.followers p item) : ⟨id, 0, a⟩ ∈ S :=
  h.automaton.expansion_mem h.wellFormed hS hitem hp hnext hq ha

/-! ## Where a token is treated like a terminal

A token may have an action of its own in a state where it could be taken as the wildcard. It can be taken as a terminal where it
has the same action as the terminal. -/

/-- In a state a token has the action of the terminal it is taken as. -/
def Alike (g : Grammar) (c : Collection) (i : StateId) (r : Taken) : Prop :=
  (g.tableOf c).action i r.token.symbol = (g.tableOf c).action i r.symbol

/-- A token can be taken as its terminal wherever a production has its dot at a place. -/
def Clear (g : Grammar) (c : Collection) (id : ProductionId) (dot : Nat) (r : Taken) : Prop :=
  ∀ {i : StateId} {S : ItemSet} {item : Item}, c.states[i]? = some S → item ∈ S → item.production = id → item.dot = dot →
    g.Alike c i r

/-- A token can be taken as its terminal wherever a production ends before the terminal. -/
def Closing (g : Grammar) (c : Collection) (r : Taken) : Prop :=
  ∀ {i : StateId} {S : ItemSet} {item : Item} {p : Production}, c.states[i]? = some S → item ∈ S →
    g.production? item.production = some p → item.dot = p.body.length → item.lookahead = r.symbol → g.Alike c i r

/-- A token stands for the terminal it is taken as, and can be taken as such where a production ends. -/
def Takes (g : Grammar) (c : Collection) (r : Taken) : Prop :=
  (r.symbol = r.token.symbol ∨ (g.tableOf c).standsFor r.symbol r.token.symbol = true) ∧ g.Closing c r

theorem alike_plain (i : StateId) (token : Token) : g.Alike c i (.plain token) := rfl

theorem clear_plain (id : ProductionId) (dot : Nat) (token : Token) : g.Clear c id dot (.plain token) :=
  fun {i _ _} _ _ _ _ => alike_plain i token

theorem takes_plain (token : Token) : g.Takes c (.plain token) :=
  ⟨.inl rfl, fun {i _ _ _} _ _ _ _ _ => alike_plain i token⟩

/-! ## Reading a symbol -/

/-- **The engine reads a symbol** from some tokens and has an element for it: from every state that expects the symbol, with
input that may follow, it arrives at the state after the symbol with the element on top of the stack. -/
structure Readable (g : Grammar) (c : Collection) (semantics : Semantics Unit N) (symbol : SymbolId) (element : Matched N)
    (front : List Taken) : Prop where
  tree : ∃ tree, g.Derives Exact symbol tree ∧ tree.leaves = front.map Taken.known
  fits : symbol = element.symbol ∨ (g.tableOf c).standsFor symbol element.symbol = true
  closing : ∀ r ∈ front, g.Closing c r
  leads : ∀ (frames : List (Frame N)) (lastEnd : Nat) {input : List Taken} {S : ItemSet} {item : Item} {p : Production}
    {target : StateId}, c.states[topState frames]? = some S → item ∈ S → g.production? item.production = some p →
    p.body[item.dot]? = some symbol → leading g.endOfInput (input.map Taken.known) ∈ g.followers p item →
    c.target? (topState frames) symbol = some target → (∀ r ∈ front.head?, g.Alike c (topState frames) r) →
    (∀ r ∈ input.head?, g.Closing c r) →
    ∃ lastEnd', Leads (g.tableOf c).tables semantics
      (reading (g.tableOf c).tables frames lastEnd ((front ++ input).map Taken.token))
      (reading (g.tableOf c).tables (⟨target, element⟩ :: frames) lastEnd' (input.map Taken.token))

/-- **The engine reads the rest of a body**: from every state with the dot of a production at a place, to a state with the dot at
the end. -/
structure ReadableFrom (g : Grammar) (c : Collection) (semantics : Semantics Unit N) (id : ProductionId) (p : Production)
    (dot : Nat) (elements : List (Matched N)) (front : List Taken) : Prop where
  trees : ∃ trees, g.DerivesAll Exact (p.body.drop dot) trees ∧ Tree.leavesAll trees = front.map Taken.known
  fits : mismatch? (g.tableOf c).tables (p.body.drop dot) elements = none
  closing : ∀ r ∈ front, g.Closing c r
  leads : ∀ (frames : List (Frame N)) (lastEnd : Nat) {input : List Taken} {S : ItemSet} {item : Item},
    c.states[topState frames]? = some S → item ∈ S → item.production = id → item.dot = dot →
    item.lookahead = leading g.endOfInput (input.map Taken.known) → (∀ r ∈ front.head?, g.Alike c (topState frames) r) →
    (∀ r ∈ input.head?, g.Closing c r) →
    ∃ top lastEnd', top.length = (p.body.drop dot).length ∧ (top.map (·.element)).reverse = elements ∧
      Leads (g.tableOf c).tables semantics
        (reading (g.tableOf c).tables frames lastEnd ((front ++ input).map Taken.token))
        (reading (g.tableOf c).tables (top ++ frames) lastEnd' (input.map Taken.token)) ∧
      ∃ S', c.states[topState (top ++ frames)]? = some S' ∧ { item with dot := p.body.length } ∈ S'

namespace Conflictless

variable (h : g.Conflictless c)

include h

/-- A terminal is read by a shift. -/
theorem readable_token {r : Taken} (hterminal : g.isTerminal r.symbol = true) (htakes : g.Takes c r) :
    g.Readable c semantics r.symbol (.token r.token) [r] where
  tree := ⟨.leaf r.known, .leaf hterminal rfl, rfl⟩
  fits := htakes.1
  closing := List.forall_mem_singleton.mpr htakes.2
  leads frames lastEnd input S item p target hS hitem hp hnext _ htarget halike _ := by
    have hdemand := demand?_shift (nextSymbol_eq_some.mpr ⟨p, hp, hnext⟩) hterminal htarget
    have haction : (g.tableOf c).action (topState frames) r.token.symbol = .shift target :=
      (halike r rfl).trans (action_of_demand h.conflicts hS hitem hdemand)
    exact ⟨r.token.span.stop, leads_shift haction⟩

/-- Nothing is left of a body after its end. -/
theorem readableFrom_nil {id : ProductionId} {p : Production} {dot : Nat} (hp : g.production? id = some p)
    (hdrop : p.body.drop dot = []) : g.ReadableFrom c semantics id p dot [] [] where
  trees := ⟨[], hdrop ▸ .nil, rfl⟩
  fits := by rw [hdrop]; rfl
  closing := List.forall_mem_nil _
  leads frames lastEnd input S item hS hitem hid hdot _ _ _ := by
    obtain ⟨p', hp', hle⟩ := (h.validItem hS hitem).production
    rw [hid, hp] at hp'
    cases hp'
    have hend : item.dot = p.body.length := by
      have := List.drop_eq_nil_iff.mp hdrop
      omega
    refine ⟨[], lastEnd, by rw [hdrop]; rfl, rfl, Leads.refl _, S, hS, ?_⟩
    rw [← hend]
    exact hitem

/-- What follows the symbol after a dot is read from the rest of the body, or else is the lookahead of the item. -/
theorem ahead_mem_followers {i : StateId} {S : ItemSet} {item : Item} {p : Production} {trees : List Tree} {input : List Token}
    (hS : c.states[i]? = some S) (hitem : item ∈ S) (hp : g.production? item.production = some p)
    (htrees : g.DerivesAll Exact (p.body.drop (item.dot + 1)) trees)
    (hlookahead : item.lookahead = leading g.endOfInput input) :
    leading g.endOfInput (Tree.leavesAll trees ++ input) ∈ g.followers p item := by
  have hvalid := h.validItem hS hitem
  have hne : ∀ x ∈ p.body.drop (item.dot + 1), x ≠ g.empty := fun x hx =>
    (h.wellFormed.body hp x (List.mem_of_mem_drop hx)).2
  rw [leading_append, ← hlookahead, mem_followers, Production.after]
  exact h.wellFormed.mem_first_ahead htrees hne hvalid.lookahead hvalid.nonempty

/-- One more symbol in front of the rest of a body. -/
theorem readableFrom_cons {id : ProductionId} {p : Production} {dot : Nat} {symbol : SymbolId} {element : Matched N}
    {elements : List (Matched N)} {front rest : List Taken} (hp : g.production? id = some p)
    (hnext : p.body[dot]? = some symbol) (hfirst : g.Readable c semantics symbol element front)
    (hrest : g.ReadableFrom c semantics id p (dot + 1) elements rest) (hclear : ∀ r ∈ rest.head?, g.Clear c id (dot + 1) r) :
    g.ReadableFrom c semantics id p dot (element :: elements) (front ++ rest) := by
  have hdrop : p.body.drop dot = symbol :: p.body.drop (dot + 1) := by
    obtain ⟨hlt, rfl⟩ := List.getElem?_eq_some_iff.mp hnext
    exact List.drop_eq_getElem_cons hlt
  refine ⟨?_, ?_, List.forall_mem_append.mpr ⟨hfirst.closing, hrest.closing⟩, ?_⟩
  · obtain ⟨tree, htree, hleaves⟩ := hfirst.tree
    obtain ⟨trees, htrees, hleavesAll⟩ := hrest.trees
    exact ⟨tree :: trees, hdrop ▸ .cons htree htrees, by rw [Tree.leavesAll, hleaves, hleavesAll, List.map_append]⟩
  · have hfits : (decide (symbol = element.symbol) || (g.tableOf c).tables.standsFor symbol element.symbol) = true :=
      (Bool.or_eq_true _ _).mpr (hfirst.fits.imp_left decide_eq_true)
    rw [hdrop, mismatch?, if_pos hfits]
    exact hrest.fits
  · rintro frames lastEnd input S item hS hitem rfl rfl hlookahead halike hclosing
    obtain ⟨trees, htrees, hleavesAll⟩ := hrest.trees
    have hfollowers := h.ahead_mem_followers hS hitem hp htrees hlookahead
    rw [hleavesAll, ← List.map_append] at hfollowers
    obtain ⟨target, T, htarget, hT, hadvanced⟩ := h.exists_target hS hitem (nextSymbol_eq_some.mpr ⟨p, hp, hnext⟩)
    have halike₁ : ∀ r ∈ front.head?, g.Alike c (topState frames) r := fun r hr =>
      halike r (by rw [List.head?_append, hr]; rfl)
    have hclosing₁ : ∀ r ∈ (rest ++ input).head?, g.Closing c r := by
      cases rest with
      | nil => exact hclosing
      | cons r rest => exact fun r' hr' => hrest.closing r' (by simp_all)
    obtain ⟨lastEnd₁, hleads₁⟩ :=
      hfirst.leads frames lastEnd hS hitem hp hnext hfollowers htarget halike₁ hclosing₁
    obtain ⟨top, lastEnd₂, hlength, helements, hleads₂, S', hS', hend⟩ :=
      hrest.leads (⟨target, element⟩ :: frames) lastEnd₁ hT hadvanced rfl rfl hlookahead
        (fun r hr => hclear r hr hT hadvanced rfl rfl) hclosing
    refine ⟨top ++ [⟨target, element⟩], lastEnd₂, ?_, ?_, ?_, S', ?_, hend⟩
    · rw [List.length_append, hlength, List.length_singleton, hdrop, List.length_cons]
    · rw [List.map_append, List.reverse_append, helements]
      rfl
    · rw [List.append_assoc, List.append_assoc]
      exact hleads₁.trans hleads₂
    · rw [List.append_assoc]
      exact hS'

/-- **A nonterminal is read by the body of a production**, if the semantics builds a node for it. -/
theorem readable_node {id : ProductionId} {q : Production} {elements : List (Matched N)} {front : List Taken} {node : N}
    (hq : g.production? id = some q) (hbody : g.ReadableFrom c semantics id q 0 elements front)
    (hnode : semantics id elements () = (.ok node, ())) : g.Readable c semantics q.head (.node q.head node) front := by
  refine ⟨?_, .inl rfl, hbody.closing, ?_⟩
  · obtain ⟨trees, htrees, hleaves⟩ := hbody.trees
    exact ⟨.node id trees, .node hq htrees, hleaves⟩
  · intro frames lastEnd input S item p target hS hitem hp hnext hfollowers htarget halike hclosing
    have hmem := h.expansion_mem hS hitem hp hnext hq hfollowers
    obtain ⟨top, lastEnd', hlength, helements, hleads, S', hS', hend⟩ :=
      hbody.leads frames lastEnd hS hmem rfl rfl rfl halike hclosing
    refine ⟨lastEnd', hleads.trans ?_⟩
    have hhead : q.head ≠ g.start := fun heq => h.augmented.start_not_mem hp (heq ▸ List.mem_of_getElem? hnext)
    have hreduce : (g.tableOf c).action (topState (top ++ frames)) (leading g.endOfInput (input.map Taken.known)) =
        .reduce id := by
      rw [← h.wellFormed.production_id hq]
      exact action_of_demand h.conflicts hS' hend (demand?_reduce hq (List.getElem?_length _) fun heq => hhead heq.1)
    have haction : (g.tableOf c).action (topState (top ++ frames)) (leading g.endOfInput (input.map Taken.token)) =
        .reduce id := by
      cases input with
      | nil => exact hreduce
      | cons r input => exact (hclosing r rfl hS' hend hq rfl rfl).trans hreduce
    obtain ⟨s, hs, hterminal⟩ := h.wellFormed.head hq
    have hgoto : (g.tableOf c).goto (topState frames) q.head = some target :=
      goto_of_target? hS hitem (nextSymbol_eq_some.mpr ⟨p, hp, hnext⟩) (by simp [isTerminal, hs, hterminal]) htarget
    exact leads_reduce haction hq hlength helements hbody.fits hnode hgoto

end Conflictless

/-! ## Whole parses -/

/-- The engine accepts a stack of one node at the end of the input. -/
theorem run_accept {t : Tables} {state : StateId} {symbol : SymbolId} {node : N} {lastEnd : Nat}
    (h : t.action state t.endOfInput = .accept) (fuel : Nat) :
    (Engine.run t semantics (fuel + 1) (reading t [⟨state, .node symbol node⟩] lastEnd [])).result = .ok node := by
  have haction : t.action (topState (reading t [⟨state, .node symbol node⟩] lastEnd []).frames)
      (reading t [⟨state, .node symbol node⟩] lastEnd []).lookahead.symbol = .accept := h
  rw [Engine.run, step, haction]
  rfl

/-- A table without conflicts parses what can be read as the body of a start production. -/
theorem Conflictless.parse_readable (h : g.Conflictless c) {symbol : SymbolId} {node : N} {front : List Taken}
    (hroot : g.IsRoot symbol) (hread : g.Readable c semantics symbol (.node symbol node) front)
    (hfirst : ∀ r ∈ front.head?, g.Alike c startState r) : ∃ n, ∀ fuel, n ≤ fuel →
      (Engine.parse (g.tableOf c).tables semantics fuel (front.map Taken.token) ()).result = .ok node := by
  obtain ⟨id, p, hp, hhead, hbody⟩ := hroot
  obtain ⟨S, hS, -, hsub⟩ := h.automaton.start
  have hitem : ⟨id, 0, g.endOfInput⟩ ∈ S :=
    hsub _ (h.wellFormed.mem_initialItemSet.mpr ⟨id, p, hp, hhead, Yields.refl _⟩)
  have hforest : g.ReadableFrom c semantics id p 0 [.node symbol node] (front ++ []) :=
    h.readableFrom_cons hp (by rw [hbody]; rfl) hread (h.readableFrom_nil hp (by rw [hbody]; rfl)) nofun
  obtain ⟨top, lastEnd, htop, helements, ⟨n, hleads⟩, S', hS', hend⟩ :=
    hforest.leads [] 0 hS hitem rfl rfl (show g.endOfInput = leading g.endOfInput (([] : List Taken).map Taken.known) from rfl)
      (by rw [List.append_nil]; exact hfirst) nofun
  obtain ⟨frame, rfl⟩ : ∃ frame, top = [frame] := List.length_eq_one_iff.mp (by rw [htop, hbody]; rfl)
  have hframe : frame = ⟨frame.state, .node symbol node⟩ := by
    have helement : frame.element = .node symbol node := by simpa using helements
    rw [← helement]
  have haction : (g.tableOf c).action frame.state g.endOfInput = .accept :=
    action_of_demand h.conflicts hS' hend (demand?_accept hp (List.getElem?_length _) hhead rfl)
  refine ⟨n + 1, fun fuel hfuel => ?_⟩
  obtain ⟨rest, rfl⟩ : ∃ rest, fuel = rest + 1 + n := ⟨fuel - (n + 1), by omega⟩
  have hrun := hleads (rest + 1)
  rw [List.append_nil, List.append_nil, hframe] at hrun
  rw [show Engine.parse (g.tableOf c).tables semantics (rest + 1 + n) (front.map Taken.token) () = _ from hrun]
  exact run_accept haction rest

/-! ## Trees -/

mutual

/-- **The engine reads a tree** and has the tree on top of the stack. -/
theorem Conflictless.tree_readable (h : g.Conflictless c) : ∀ (tree : Tree) {symbol : SymbolId},
    g.Derives Exact symbol tree →
    g.Readable c Tree.build symbol (tree.element symbol) (tree.leaves.map Taken.plain)
  | .leaf token, _, .leaf hterminal hfit => by
    cases hfit
    exact h.readable_token (r := Taken.plain token) hterminal (takes_plain token)
  | .node id children, _, @Derives.node _ _ _ q _ hq hchildren => by
    have hbody : g.ReadableFrom c Tree.build id q 0 (q.body.zipWith Tree.element children)
        ((Tree.leavesAll children).map Taken.plain) :=
      Conflictless.forest_readable h children hq hchildren
    refine h.readable_node hq hbody ?_
    rw [Tree.build, hchildren.map_ofMatched]

/-- **The engine reads a forest**: from a dot to the end of a body. -/
theorem Conflictless.forest_readable (h : g.Conflictless c) {id : ProductionId} {p : Production} : ∀ (trees : List Tree)
    {dot : Nat}, g.production? id = some p → g.DerivesAll Exact (p.body.drop dot) trees →
    g.ReadableFrom c Tree.build id p dot ((p.body.drop dot).zipWith Tree.element trees)
      ((Tree.leavesAll trees).map Taken.plain)
  | [], dot, hp, htrees => by
    generalize hdrop : p.body.drop dot = symbols at htrees ⊢
    cases htrees
    exact h.readableFrom_nil hp hdrop
  | tree :: trees, dot, hp, htrees => by
    generalize hdrop : p.body.drop dot = symbols at htrees ⊢
    cases htrees with
    | @cons symbol _ symbols _ htree htrees =>
      have hnext : p.body[dot]? = some symbol := by
        rw [← List.head?_drop, hdrop]
        rfl
      have hrest : p.body.drop (dot + 1) = symbols := by
        rw [← List.tail_drop, hdrop]
        rfl
      rw [← hrest] at htrees ⊢
      have hread := h.readableFrom_cons hp hnext (Conflictless.tree_readable h tree htree)
        (Conflictless.forest_readable h trees hp htrees) fun r hr => by
          obtain ⟨token, -, rfl⟩ := List.mem_map.mp (List.mem_of_mem_head? hr)
          exact clear_plain id (dot + 1) token
      rw [← List.map_append] at hread
      exact hread

end

/-- A table without conflicts parses every derivation tree. -/
theorem Conflictless.parse_complete (h : g.Conflictless c) {symbol : SymbolId} {tree : Tree} (hroot : g.IsRoot symbol)
    (htree : g.Derives Exact symbol tree) : ∃ n, ∀ fuel, n ≤ fuel →
      (Engine.parse (g.tableOf c).tables Tree.build fuel tree.leaves ()).result = .ok tree := by
  have hread := h.tree_readable tree htree
  have helement : tree.element symbol = .node symbol tree := by
    cases htree with
    | leaf hterminal _ =>
      -- the body of a start production is a nonterminal
      obtain ⟨id, p, hp, hhead, hbody⟩ := hroot
      obtain ⟨symbol', hbody', hnonterminal⟩ := h.augmented.start_body hp hhead
      rw [hbody, List.cons.injEq] at hbody'
      rw [hbody'.1, hnonterminal] at hterminal
      cases hterminal
    | node _ _ => rfl
  rw [helement] at hread
  have hfirst : ∀ r ∈ (tree.leaves.map Taken.plain).head?, g.Alike c startState r := by
    intro r hr
    obtain ⟨token, -, rfl⟩ := List.mem_map.mp (List.mem_of_mem_head? hr)
    exact alike_plain _ _
  obtain ⟨n, hn⟩ := h.parse_readable hroot hread hfirst
  rw [Taken.map_token_plain] at hn
  exact ⟨n, hn⟩

theorem WellFormed.conflictless (wf : g.WellFormed) (haug : g.Augmented) {construction : Construction} {t : Table}
    (h : g.parserTable construction = .ok t) : g.Conflictless (g.itemSets construction) ∧
      t = g.tableOf (g.itemSets construction) :=
  ⟨⟨wf, haug, wf.automaton construction, (parserTable_eq_ok.mp h).1⟩, (parserTable_eq_ok.mp h).2⟩

/-- Two derivation trees of the same tokens leave no table without conflicts. -/
theorem WellFormed.conflicts_of_ambiguous (wf : g.WellFormed) (haug : g.Augmented) {symbol symbol' : SymbolId}
    {tree tree' : Tree} (hroot : g.IsRoot symbol) (htree : g.Derives Exact symbol tree) (hroot' : g.IsRoot symbol')
    (htree' : g.Derives Exact symbol' tree') (hleaves : tree.leaves = tree'.leaves) (hne : tree ≠ tree')
    (construction : Construction) : (g.table construction).conflicts ≠ [] := by
  intro hnil
  have h : g.Conflictless (g.itemSets construction) := ⟨wf, haug, wf.automaton construction, hnil⟩
  obtain ⟨n, hn⟩ := h.parse_complete hroot htree
  obtain ⟨n', hn'⟩ := h.parse_complete hroot' htree'
  have hparse := hn (max n n') (le_max_left _ _)
  have hparse' := hn' (max n n') (le_max_right _ _)
  rw [hleaves, hparse'] at hparse
  exact hne (Except.ok.inj hparse).symm

/-- **Completeness and ambiguity**, for every grammar a builder gives: a table without conflicts parses every derivation tree
of the body of a start production, and if two different trees have the same tokens at their leaves, no construction has a
table without conflicts. -/
theorem derivation_tree_parsed {requests : List Builder.Request} {g : Grammar}
    (hbuild : (Builder.after requests).build = .ok g) (haug : g.Augmented) :
    (∀ construction t, g.parserTable construction = .ok t → ∀ symbol tree, g.IsRoot symbol →
      g.Derives Exact symbol tree → ∀ tokens, tree.leaves = tokens →
      ∃ n, ∀ fuel, n ≤ fuel → (Engine.parse t.tables Tree.build fuel tokens ()).result = .ok tree) ∧
    ∀ symbol tree symbol' tree', g.IsRoot symbol → g.Derives Exact symbol tree → g.IsRoot symbol' →
      g.Derives Exact symbol' tree' → tree.leaves = tree'.leaves → tree ≠ tree' →
      ∀ construction, ∃ conflicts, conflicts ≠ [] ∧ g.parserTable construction = .error (.conflicts conflicts) := by
  have wf := wellFormed_of_build hbuild
  constructor
  · rintro construction t ht symbol tree hroot htree tokens rfl
    obtain ⟨h, rfl⟩ := wf.conflictless haug ht
    exact h.parse_complete hroot htree
  · intro symbol tree symbol' tree' hroot htree hroot' htree' hleaves hne construction
    have hconflicts := wf.conflicts_of_ambiguous haug hroot htree hroot' htree' hleaves hne construction
    exact ⟨_, hconflicts, parserTable_of_conflicts hconflicts⟩

/-- Requests for a grammar with two readings of one token. -/
def choiceRequests : List Builder.Request :=
  [.terminal "a" 1 .common, .symbols "$START$" ["A"], .symbols "$START$" ["B"], .symbols "A" ["a"], .symbols "B" ["a"]]

/-- A pair of parentheses is parsed, and a grammar with two readings of one token has conflicts. -/
theorem derivation_tree_parsed_samples :
    (∃ n, ∀ fuel, n ≤ fuel → (Engine.parse (parentheses.table .unioned).tables Tree.build fuel sampleTokens ()).result =
      .ok sampleTree) ∧
    ∃ conflicts, conflicts ≠ [] ∧
      (Builder.after choiceRequests).freeze.parserTable .canonical = .error (.conflicts conflicts) := by
  constructor
  · have hroot : parentheses.IsRoot 3 := ⟨0, ⟨0, 0, [3]⟩, by decide +kernel, by decide +kernel, rfl⟩
    have hone : parentheses.production? 1 = some ⟨1, 3, [1, 3, 2]⟩ := by decide +kernel
    have htwo : parentheses.production? 2 = some ⟨2, 3, []⟩ := by decide +kernel
    have htree : parentheses.Derives Exact 3 sampleTree :=
      .node hone (.cons (.leaf (by decide +kernel) rfl) (.cons (.node htwo .nil) (.cons (.leaf (by decide +kernel) rfl) .nil)))
    have htable := parserTable_eq_ok.mpr ⟨(by decide +kernel : (parentheses.table .unioned).conflicts = []), rfl⟩
    exact (derivation_tree_parsed build_parentheses augmented_parentheses).1 _ _ htable 3 sampleTree hroot htree _ rfl
  · have hbuild : (Builder.after choiceRequests).build = .ok (Builder.after choiceRequests).freeze :=
      Builder.build_of_isOk (by decide +kernel)
    have haug : (Builder.after choiceRequests).freeze.Augmented := augmented_of_forall (by decide +kernel)
    have hrootA : (Builder.after choiceRequests).freeze.IsRoot 2 :=
      ⟨0, ⟨0, 0, [2]⟩, by decide +kernel, by decide +kernel, rfl⟩
    have hrootB : (Builder.after choiceRequests).freeze.IsRoot 3 :=
      ⟨1, ⟨1, 0, [3]⟩, by decide +kernel, by decide +kernel, rfl⟩
    have hA : (Builder.after choiceRequests).freeze.production? 2 = some ⟨2, 2, [1]⟩ := by decide +kernel
    have hB : (Builder.after choiceRequests).freeze.production? 3 = some ⟨3, 3, [1]⟩ := by decide +kernel
    have hleaf : (Builder.after choiceRequests).freeze.Derives Exact 1 (.leaf ⟨1, "a", ⟨0, 1⟩⟩) :=
      .leaf (by decide +kernel) rfl
    exact (derivation_tree_parsed hbuild haug).2 2 _ 3 _ hrootA (.node hA (.cons hleaf .nil)) hrootB
      (.node hB (.cons hleaf .nil)) rfl (by simp) .canonical

/-! ## The canonical table and the table of unions -/

/-- Without a wildcard, every tree parsed by one table is parsed by each other table that has no conflicts. -/
theorem WellFormed.parse_transfer (wf : g.WellFormed) (haug : g.Augmented) (hwildcard : g.wildcard = none)
    (source target : Construction) (htarget : (g.table target).conflicts = []) {tokens : List Token}
    (htokens : ∀ token ∈ tokens, token.symbol ≠ g.endOfInput) {fuel : Nat} {tree : Tree}
    (h : (Engine.parse (g.table source).tables Tree.build fuel tokens ()).result = .ok tree) :
    ∃ fuel', (Engine.parse (g.table target).tables Tree.build fuel' tokens ()).result = .ok tree := by
  obtain ⟨symbol, hroot, htree, hleaves⟩ := wf.parse_sound haug source htokens h
  have hconflictless : g.Conflictless (g.itemSets target) := ⟨wf, haug, wf.automaton target, htarget⟩
  obtain ⟨n, hn⟩ := hconflictless.parse_complete hroot (htree.exact_of_wildcard hwildcard)
  rw [hleaves] at hn
  exact ⟨n, hn n (Nat.le_refl n)⟩

/-- **The canonical table and the table of unions parse alike**: if the table of unions has no conflicts, the canonical one
has none, and the engine returns the same trees with both. -/
theorem canonical_parses_like_unioned {requests : List Builder.Request} {g : Grammar}
    (hbuild : (Builder.after requests).build = .ok g) (haug : g.Augmented) (hwildcard : g.wildcard = none)
    {unioned : Table} (h : g.parserTable .unioned = .ok unioned) :
    ∃ canonical, g.parserTable .canonical = .ok canonical ∧
      ∀ tokens : List Token, (∀ token ∈ tokens, token.symbol ≠ g.endOfInput) → ∀ tree,
        ((∃ fuel, (Engine.parse canonical.tables Tree.build fuel tokens ()).result = .ok tree) ↔
          ∃ fuel, (Engine.parse unioned.tables Tree.build fuel tokens ()).result = .ok tree) := by
  have wf := wellFormed_of_build hbuild
  obtain ⟨hunioned, rfl⟩ := parserTable_eq_ok.mp h
  have hcanonical := wf.canonical_conflicts_of_unioned hunioned
  refine ⟨g.table .canonical, parserTable_eq_ok.mpr ⟨hcanonical, rfl⟩, fun tokens htokens tree => ⟨?_, ?_⟩⟩
  · rintro ⟨fuel, hparse⟩
    exact wf.parse_transfer haug hwildcard .canonical .unioned hunioned htokens hparse
  · rintro ⟨fuel, hparse⟩
    exact wf.parse_transfer haug hwildcard .unioned .canonical hcanonical htokens hparse

/-- Nested parentheses have a table of unions without conflicts, so the canonical one parses the same trees. -/
theorem canonical_parses_like_unioned_parentheses :
    ∃ canonical, parentheses.parserTable .canonical = .ok canonical ∧
      ∃ fuel, (Engine.parse canonical.tables Tree.build fuel sampleTokens ()).result = .ok sampleTree := by
  have htable := parserTable_eq_ok.mpr ⟨(by decide +kernel : (parentheses.table .unioned).conflicts = []), rfl⟩
  obtain ⟨canonical, hok, hparse⟩ :=
    canonical_parses_like_unioned build_parentheses augmented_parentheses (by decide +kernel) htable
  refine ⟨canonical, hok, (hparse sampleTokens (by decide +kernel) sampleTree).mpr ⟨10, ?_⟩⟩
  decide +kernel

end Grammar

end ShaderFront
