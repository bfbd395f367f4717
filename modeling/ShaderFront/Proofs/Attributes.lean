import Mathlib
import ShaderFront.Proofs.Cursors
import ShaderFront.Proofs.Rules
import ShaderFront.Proofs.Safety

/-!
# Attributes

What every rule preserves holds of the result of a parse. An attribute relates a symbol, the tokens it stands for and the
node that was built for them. If the semantics keeps an attribute from the elements of a body to its head, then the node
that the engine returns has the attribute with all of the tokens (`Grammar.WellFormed.parse_attribute`).

The invariant is on the stack: its elements stand for the symbols of a trail, and together they cover the tokens that were
shifted (`Grammar.Stacked`). For the rules of a language the same is said with names (`Language.parse_attribute`).
-/

namespace ShaderFront

namespace Grammar

open Engine

variable {g : Grammar} {c : Collection} {σ N : Type} {P : SymbolId → List Token → N → Prop}

/-! ## Elements -/

/-- An element stands for a symbol and covers some tokens. -/
inductive Bears (g : Grammar) (P : SymbolId → List Token → N → Prop) : SymbolId → Matched N → List Token → Prop
  | token {symbol : SymbolId} {token : Token} :
      g.isTerminal symbol = true → g.Fits symbol token → Bears g P symbol (.token token) [token]
  | node {symbol : SymbolId} {tokens : List Token} {node : N} :
      P symbol tokens node → Bears g P symbol (.node symbol node) tokens

/-- Elements stand for the symbols of a list, one for each, and cover some tokens together. -/
inductive BearsAll (g : Grammar) (P : SymbolId → List Token → N → Prop) :
    List SymbolId → List (Matched N) → List Token → Prop
  | nil : BearsAll g P [] [] []
  | cons {symbol : SymbolId} {element : Matched N} {front : List Token} {symbols : List SymbolId}
      {elements : List (Matched N)} {tokens : List Token} : Bears g P symbol element front →
      BearsAll g P symbols elements tokens → BearsAll g P (symbol :: symbols) (element :: elements) (front ++ tokens)

theorem BearsAll.concat {symbols : List SymbolId} {elements : List (Matched N)} {tokens front : List Token}
    {symbol : SymbolId} {element : Matched N} (h : g.BearsAll P symbols elements tokens)
    (helement : g.Bears P symbol element front) :
    g.BearsAll P (symbols ++ [symbol]) (elements ++ [element]) (tokens ++ front) := by
  induction h with
  | nil => simpa using BearsAll.cons helement .nil
  | cons hfirst _ ih =>
    rw [List.append_assoc]
    exact .cons hfirst ih

/-! ## Stacks -/

/-- The elements of a stack stand for the symbols of a trail and cover some tokens. -/
inductive Stacked (g : Grammar) (c : Collection) (P : SymbolId → List Token → N → Prop) :
    List (Frame N) → Trail → List Token → Prop
  | nil : Stacked g c P [] [] []
  | cons {frame : Frame N} {below : List (Frame N)} {trail : Trail} {tokens front : List Token} {symbol : SymbolId} :
      Stacked g c P below trail tokens → c.target? trail.state symbol = some frame.state →
      g.Bears P symbol frame.element front →
      Stacked g c P (frame :: below) ((symbol, frame.state) :: trail) (tokens ++ front)

variable {frames : List (Frame N)} {trail : Trail} {tokens : List Token}

theorem Stacked.isTrail (h : g.Stacked c P frames trail tokens) : IsTrail c trail := by
  induction h with
  | nil => exact .nil
  | cons _ htarget _ ih => exact .cons ih htarget

theorem Stacked.topState_eq (h : g.Stacked c P frames trail tokens) : topState frames = trail.state := by
  cases h <;> rfl

/-- The upper part of a stack covers the last tokens. -/
theorem Stacked.split : ∀ (n : Nat) {frames : List (Frame N)} {trail : Trail} {tokens : List Token},
    g.Stacked c P frames trail tokens → n ≤ trail.length → ∃ front back, tokens = front ++ back ∧
      g.Stacked c P (frames.drop n) (trail.drop n) front ∧
      g.BearsAll P ((trail.take n).map Prod.fst).reverse (elements (frames.take n)) back
  | 0, _, _, tokens, h, _ => ⟨tokens, [], by simp, h, .nil⟩
  | n + 1, _, _, _, .nil, hle => absurd hle (Nat.not_succ_le_zero n)
  | n + 1, _, _, _, @Stacked.cons _ _ _ _ frame _ _ _ top _ hbelow _ helement, hle => by
    obtain ⟨front, back, rfl, hdrop, hbears⟩ := Stacked.split n hbelow (Nat.le_of_succ_le_succ hle)
    refine ⟨front, back ++ top, List.append_assoc _ _ _, hdrop, ?_⟩
    simpa [elements] using hbears.concat helement

/-- What a reduction of the table finds on a stack: the elements of its body, which cover the last tokens. -/
theorem Stacked.reduce (wf : g.WellFormed) (hc : g.Automaton c) (h : g.Stacked c P frames trail tokens) {symbol : SymbolId}
    {id : ProductionId} (haction : (g.tableOf c).action (topState frames) symbol = .reduce id) :
    ∃ p front back, g.production? id = some p ∧ tokens = front ++ back ∧
      g.Stacked c P (frames.drop p.body.length) (trail.drop p.body.length) front ∧
      g.BearsAll P p.body (elements (frames.take p.body.length)) back := by
  obtain ⟨S, item, p, hS, hitem, rfl, hp, hdot⟩ := reduce_sound wf hc haction
  rw [h.topState_eq] at hS
  obtain ⟨hle, hbody, -, -⟩ := h.isTrail.pop wf hc p.body.length hS hitem hdot hp
  obtain ⟨front, back, rfl, hdrop, hbears⟩ := h.split p.body.length hle
  rw [hbody, List.take_length, List.reverse_reverse] at hbears
  exact ⟨p, front, back, hp, rfl, hdrop, hbears⟩

/-! ## Runs -/

/-- Between two moves: the stack covers the tokens before the input left. -/
def Attributed (g : Grammar) (c : Collection) (P : SymbolId → List Token → N → Prop) (tokens : List Token)
    (config : Config σ N) : Prop :=
  ∃ trail front lastEnd input, g.Stacked c P config.frames trail front ∧ front ++ input = tokens ∧
    nextToken (g.tableOf c).tables lastEnd input = (config.lookahead, config.rest, config.lastEnd)

/-- A semantics keeps an attribute from the elements of a body to its head. -/
def Keeps (g : Grammar) (semantics : Semantics σ N) (P : SymbolId → List Token → N → Prop) : Prop :=
  ∀ {id : ProductionId} {p : Production} {elements : List (Matched N)} {tokens : List Token} {memory : σ} {node : N},
    g.production? id = some p → g.BearsAll P p.body elements tokens → (semantics id elements memory).1 = .ok node →
    P p.head tokens node

variable {semantics : Semantics σ N}

/-- The invariant of one move. -/
theorem Attributed.step (wf : g.WellFormed) (haug : g.Augmented) (hc : g.Automaton c) (hkeeps : g.Keeps semantics P)
    {config next : Config σ N} (h : g.Attributed c P tokens config)
    (hstep : Engine.step (g.tableOf c).tables semantics config = .next next) : g.Attributed c P tokens next := by
  obtain ⟨trail, front, lastEnd, input, hstack, rfl, hread⟩ := h
  rcases step_next hstep with ⟨target, haction, rfl⟩ | ⟨id, haction, hreduce⟩
  · obtain ⟨symbol, htarget, htree, hend⟩ := shift_sound haug haction
    rw [hstack.topState_eq] at htarget
    cases htree with
    | leaf hterminal hfits =>
      refine ⟨_, _, config.lastEnd, config.rest, .cons hstack htarget (.token hterminal hfits), ?_, rfl⟩
      rw [eq_cons_of_nextToken hread hend, List.append_assoc, List.singleton_append]
  · cases reducing hreduce with
    | @built p node memory target hp _ _ hnode hgoto =>
      obtain ⟨p', below, back, hp', rfl, hdrop, hbears⟩ := hstack.reduce wf hc haction
      cases hp'.symm.trans hp
      have htarget := target?_of_goto hgoto
      rw [hdrop.topState_eq] at htarget
      have hhead : P p.head back node := hkeeps hp' hbears (congrArg Prod.fst hnode)
      exact ⟨_, _, lastEnd, input, .cons hdrop htarget (.node hhead), rfl, hread⟩

/-- What an accepted node is. -/
theorem Attributed.done (wf : g.WellFormed) (haug : g.Augmented) (hc : g.Automaton c)
    (htokens : ∀ token ∈ tokens, token.symbol ≠ g.endOfInput) {config : Config σ N} (h : g.Attributed c P tokens config)
    {outcome : Outcome σ N} (hstep : Engine.step (g.tableOf c).tables semantics config = .done outcome) {node : N}
    (hnode : outcome.result = .ok node) : ∃ symbol, g.IsRoot symbol ∧ P symbol tokens node := by
  obtain ⟨trail, front, lastEnd, input, hstack, rfl, hread⟩ := h
  obtain ⟨haction, state, nodeSymbol, below, hframes⟩ := step_done hstep hnode
  obtain ⟨hend, S, item, p, hS, hitem, hp, hhead, hdot⟩ := accept_sound wf hc haction
  obtain ⟨symbol, hbody, -⟩ := haug.start_body hp hhead
  have hempty : input = [] := by
    cases input with
    | nil => rfl
    | cons token rest =>
      rw [← (Prod.mk.inj hread).1] at hend
      exact absurd hend (htokens token (by simp))
  rw [hstack.topState_eq] at hS
  rw [hbody, List.length_singleton] at hdot
  obtain ⟨hle, hlabels, hdrop, S', hS', item', hitem', hproduction, hdot'⟩ := hstack.isTrail.pop wf hc 1 hS hitem hdot hp
  rw [hframes] at hstack
  cases hstack with
  | @cons _ _ trail tokens _ label hbelow _ helement =>
    obtain rfl : trail = [] := hdrop.eq_nil_of_start wf haug hc hS' hitem' hdot' (hproduction ▸ hp) hhead
    have hlabel : label = symbol := by simpa [hbody] using hlabels
    cases hbelow
    cases helement with
    | node hattribute =>
      refine ⟨_, ⟨item.production, p, hp, hhead, hlabel ▸ hbody⟩, ?_⟩
      simpa [hempty] using hattribute

/-- The invariant of a whole run. -/
theorem Attributed.run (wf : g.WellFormed) (haug : g.Augmented) (hc : g.Automaton c) (hkeeps : g.Keeps semantics P)
    (htokens : ∀ token ∈ tokens, token.symbol ≠ g.endOfInput) {node : N} :
    ∀ (fuel : Nat) {config : Config σ N}, g.Attributed c P tokens config →
      (Engine.run (g.tableOf c).tables semantics fuel config).result = .ok node →
      ∃ symbol, g.IsRoot symbol ∧ P symbol tokens node
  | 0, _, _, hnode => by cases hnode
  | fuel + 1, config, h, hnode => by
    rw [Engine.run] at hnode
    split at hnode
    · rename_i next hstep
      exact Attributed.run wf haug hc hkeeps htokens fuel (h.step wf haug hc hkeeps hstep) hnode
    · rename_i outcome hstep
      exact h.done wf haug hc htokens hstep hnode

/-- **What the semantics keeps holds of the result**, for the body of a start production and all of the tokens. -/
theorem WellFormed.parse_attribute (wf : g.WellFormed) (haug : g.Augmented) (construction : Construction)
    (hkeeps : g.Keeps semantics P) (htokens : ∀ token ∈ tokens, token.symbol ≠ g.endOfInput) {fuel : Nat} {memory : σ}
    {node : N} (h : (Engine.parse (g.table construction).tables semantics fuel tokens memory).result = .ok node) :
    ∃ symbol, g.IsRoot symbol ∧ P symbol tokens node :=
  Attributed.run wf haug (wf.automaton construction) hkeeps htokens fuel ⟨[], [], 0, tokens, .nil, rfl, rfl⟩ h

end Grammar

/-! ## Rules of a language -/

namespace Language

variable {N : Type} {l : Language N}

/-- No terminal stands for the empty string or the end of the input, no body contains the names for the empty string and
the start, and the body of a start rule is a single nonterminal. -/
structure Augmented (l : Language N) : Prop where
  role : ∀ t ∈ l.terminals, t.role ≠ .empty ∧ t.role ≠ .endOfInput
  body : ∀ r ∈ l.rules, Symbol.emptyName ∉ Text.words r.body ∧ Symbol.startName ∉ Text.words r.body
  start : ∀ r ∈ l.rules, r.head = Symbol.startName →
    (Text.words r.body).length = 1 ∧ ∀ name ∈ Text.words r.body, ∀ t ∈ l.terminals, t.name ≠ name

/-- A token may stand for a terminal: it is known by its number, or that is the number of the wildcard, which stands in for
the token. -/
def Admits (l : Language N) (t : Terminal) (token : Token) : Prop :=
  token.symbol = t.id ∨
    (∃ u ∈ l.terminals, u.role = .wildcard ∧ u.id = t.id) ∧ ∀ u ∈ l.terminals, u.id = token.symbol → u.wild = true

/-- Elements stand for the names of a list, one for each, and cover some tokens together. -/
inductive Spells (l : Language N) (P : String → List Token → N → Prop) :
    List String → List (Matched N) → List Token → Prop
  | nil : Spells l P [] [] []
  | token {t : Terminal} {token : Token} {names : List String} {elements : List (Matched N)} {tokens : List Token} :
      t ∈ l.terminals → l.Admits t token → Spells l P names elements tokens →
      Spells l P (t.name :: names) (.token token :: elements) (token :: tokens)
  | node {name : String} {symbol : SymbolId} {front : List Token} {node : N} {names : List String}
      {elements : List (Matched N)} {tokens : List Token} :
      (∀ t ∈ l.terminals, t.name ≠ name) → P name front node → Spells l P names elements tokens →
      Spells l P (name :: names) (.node symbol node :: elements) (front ++ tokens)

/-- What stands for names is of their kinds. -/
theorem Spells.kinds {P : String → List Token → N → Prop} {names : List String} {elements : List (Matched N)} {tokens : List Token}
    (h : l.Spells P names elements tokens) : elements.map Matched.kind = l.kinds names := by
  induction h with
  | nil => rfl
  | token ht _ _ ih => rw [List.map_cons, ih, kinds_cons_of_mem ht, Matched.kind]
  | node hname _ _ ih => rw [List.map_cons, ih, kinds_cons_of_forall_ne hname, Matched.kind]

/-- A rule keeps an attribute from the elements of its body to its head. -/
def Preserves (l : Language N) (P : String → List Token → N → Prop) (r : Rule N) : Prop :=
  ∀ {elements : List (Matched N)} {tokens : List Token} {node : N}, l.Spells P (Text.words r.body) elements tokens →
    r.build elements = .ok node → P r.head tokens node

variable {g : Grammar} {number : String → SymbolId}

theorem Augmented.numbered (haug : l.Augmented) {g : Grammar} (h : l.grammar = .ok g) : ∃ number, l.Numbered g number :=
  Language.numbered haug.role (fun r hr => (haug.body r hr).1) h

theorem Numbered.exists_rule (h : l.Numbered g number) {id : ProductionId} {p : Production}
    (hp : g.production? id = some p) : ∃ r, l.rules[id]? = some r ∧ r ∈ l.rules ∧
      p.head = number r.head ∧ p.body = (Text.words r.body).map number := by
  obtain ⟨r, hr⟩ : ∃ r, l.rules[id]? = some r := ⟨_, List.getElem?_eq_getElem (h.production hp)⟩
  obtain rfl := Option.some.inj (hp.symm.trans (h.rule hr))
  exact ⟨r, hr, List.mem_of_getElem? hr, rfl, rfl⟩

theorem uses_of_mem_body {r : Rule N} (hr : r ∈ l.rules) {name : String} (hname : name ∈ Text.words r.body) :
    l.Uses name :=
  Or.inr (Or.inr ⟨r, hr, Or.inr hname⟩)

theorem uses_head {r : Rule N} (hr : r ∈ l.rules) : l.Uses r.head := Or.inr (Or.inr ⟨r, hr, Or.inl rfl⟩)

/-- The head of a rule is no terminal. -/
theorem Numbered.head_ne (h : l.Numbered g number) {r : Rule N} (hr : r ∈ l.rules) : ∀ t ∈ l.terminals, t.name ≠ r.head := by
  intro t ht hname
  obtain ⟨k, hk⟩ := List.mem_iff_getElem?.mp hr
  obtain ⟨s, hs, hkind⟩ := h.wellFormed.head (h.rule hk)
  have hterminal := (h.isTerminal (uses_head hr)).mpr ⟨t, ht, hname⟩
  simp [Grammar.isTerminal, hs, hkind] at hterminal

theorem Numbered.not_isTerminal (h : l.Numbered g number) {name : String} (huses : l.Uses name)
    (hname : ∀ t ∈ l.terminals, t.name ≠ name) : g.isTerminal (number name) = false := by
  rw [Bool.eq_false_iff]
  intro hterminal
  obtain ⟨t, ht, htname⟩ := (h.isTerminal huses).mp hterminal
  exact hname t ht htname

theorem Numbered.augmented (h : l.Numbered g number) (haug : l.Augmented) : g.Augmented := by
  refine ⟨fun hp hstart => ?_, fun hp hend => ?_, fun hp hhead => ?_⟩
  · obtain ⟨r, -, hr, -, hbody⟩ := h.exists_rule hp
    rw [hbody, h.start] at hstart
    obtain ⟨name, hname, heq⟩ := List.mem_map.mp hstart
    rw [h.injective (uses_of_mem_body hr hname) (Or.inl rfl) heq] at hname
    exact (haug.body r hr).2 hname
  · obtain ⟨r, -, hr, -, hbody⟩ := h.exists_rule hp
    rw [hbody] at hend
    obtain ⟨name, hname, heq⟩ := List.mem_map.mp hend
    exact h.endOfInput (uses_of_mem_body hr hname) heq
  · obtain ⟨r, -, hr, hhead', hbody⟩ := h.exists_rule hp
    rw [hhead', h.start] at hhead
    have hstart := h.injective (uses_head hr) (Or.inl rfl) hhead
    obtain ⟨hlength, hterminal⟩ := haug.start r hr hstart
    obtain ⟨name, hname⟩ := List.length_eq_one_iff.mp hlength
    have hmem : name ∈ Text.words r.body := by simp [hname]
    exact ⟨number name, by rw [hbody, hname]; rfl, h.not_isTerminal (uses_of_mem_body hr hmem) (hterminal name hmem)⟩

/-- An attribute of names is one of the symbols with their numbers. -/
def byNumber (l : Language N) (number : String → SymbolId) (P : String → List Token → N → Prop) (symbol : SymbolId)
    (tokens : List Token) (node : N) : Prop :=
  ∃ r ∈ l.rules, number r.head = symbol ∧ P r.head tokens node

/-- The elements of a body stand for its names. -/
theorem Numbered.spells (h : l.Numbered g number) {P : String → List Token → N → Prop} : ∀ {names : List String}
    {elements : List (Matched N)} {tokens : List Token}, (∀ name ∈ names, l.Uses name) →
    g.BearsAll (l.byNumber number P) (names.map number) elements tokens → l.Spells P names elements tokens
  | [], _, _, _, .nil => .nil
  | name :: names, _, _, huses, .cons hfirst hrest => by
    have hname := huses name List.mem_cons_self
    have hrest' := h.spells (fun other hother => huses other (List.mem_cons_of_mem name hother)) hrest
    cases hfirst with
    | token hterminal hfits =>
      obtain ⟨t, ht, rfl⟩ := (h.isTerminal hname).mp hterminal
      refine .token ht ?_ hrest'
      rw [h.terminal t ht] at hfits
      refine hfits.imp id fun ⟨hwildcard, hend, hexcluded⟩ => ?_
      refine ⟨h.wildcard hwildcard, fun u hu hid => ?_⟩
      rw [← hid] at hexcluded
      by_contra hwild
      exact hexcluded (h.excluded u hu (by simpa using hwild))
    | node hattribute =>
      obtain ⟨r, hr, hnumber, hP⟩ := hattribute
      obtain rfl := h.injective (uses_head hr) hname hnumber
      exact .node (h.head_ne hr) hP hrest'

theorem Numbered.keeps (h : l.Numbered g number) {P : String → List Token → N → Prop}
    (hrules : ∀ r ∈ l.rules, l.Preserves P r) : g.Keeps l.semantics (l.byNumber number P) := by
  intro id p elements tokens memory node hp hbears hnode
  obtain ⟨r, hget, hr, hhead, hbody⟩ := h.exists_rule hp
  rw [hbody] at hbears
  have hspells := h.spells (fun name hname => uses_of_mem_body hr hname) hbears
  rw [semantics_of_kinds hget hspells.kinds] at hnode
  exact ⟨r, hr, hhead.symm, hrules r hr hspells hnode⟩

/-- A parse that succeeds runs on the table of the grammar. -/
theorem parse_eq_ok {tokens : List Token} {node : N} (h : l.parse l.table tokens = .ok node) : ∃ g, l.grammar = .ok g ∧
    ∃ fuel, (Engine.parse (g.table .unioned).tables l.semantics fuel tokens ()).result = .ok node := by
  unfold Language.parse at h
  split at h
  · cases h
  · rename_i t htable
    unfold Language.table at htable
    split at htable
    · rename_i g hgrammar
      obtain ⟨-, rfl⟩ := Grammar.parserTable_eq_ok.mp htable
      refine ⟨g, hgrammar, (g.table .unioned).moveBound tokens.length, ?_⟩
      split at h
      · rename_i hnode
        cases h
        exact hnode
      · cases h
    · cases htable

/-- **What the rules preserve holds of the result**, for the body of a start rule and all of the tokens. -/
theorem parse_attribute (haug : l.Augmented) {P : String → List Token → N → Prop} (hrules : ∀ r ∈ l.rules, l.Preserves P r)
    {tokens : List Token} (htokens : ∀ token ∈ tokens, ∃ t ∈ l.terminals, t.id = token.symbol) {node : N}
    (h : l.parse l.table tokens = .ok node) :
    ∃ r ∈ l.rules, r.head = Symbol.startName ∧ ∃ name, Text.words r.body = [name] ∧ P name tokens node := by
  obtain ⟨g, hgrammar, fuel, hnode⟩ := parse_eq_ok h
  obtain ⟨number, hnumber⟩ := haug.numbered hgrammar
  have hends : ∀ token ∈ tokens, token.symbol ≠ g.endOfInput := by
    intro token htoken
    obtain ⟨t, ht, hid⟩ := htokens token htoken
    rw [← hid, ← hnumber.terminal t ht]
    exact hnumber.endOfInput (Or.inr (Or.inl ⟨t, ht, rfl⟩))
  obtain ⟨symbol, ⟨id, p, hp, hhead, hbody⟩, r', hr', rfl, hP⟩ :=
    hnumber.wellFormed.parse_attribute (hnumber.augmented haug) .unioned (hnumber.keeps hrules) hends hnode
  obtain ⟨r, -, hr, hhead', hbody'⟩ := hnumber.exists_rule hp
  rw [hhead', hnumber.start] at hhead
  have hstart := hnumber.injective (uses_head hr) (Or.inl rfl) hhead
  obtain ⟨name, hname⟩ := List.length_eq_one_iff.mp (haug.start r hr hstart).1
  refine ⟨r, hr, hstart, name, hname, ?_⟩
  have hnumbers : number name = number r'.head := by simpa [hbody', hname] using hbody
  rwa [hnumber.injective (uses_of_mem_body hr (by simp [hname])) (uses_head hr') hnumbers]

end Language

end ShaderFront
