import Mathlib
import ShaderFront.Proofs.Completeness
import ShaderFront.Proofs.Halting

/-!
# Syntax errors at the first wrong token

A sentence is the list of leaves of a derivation tree of the body of a start production. What the engine has shifted is
always the beginning of a sentence, if every nonterminal derives a string of terminals: each item of the state on top tells
how the stack can go on (`Grammar.Path.begins`), by induction on the height of the stack and, inside a state, along the
demands that put the item there. States with merged lookaheads are included, because lookaheads play no part in it.

The other half is completeness. The moves before a token is shifted do not depend on what comes after it
(`Engine.steps_of_prefix`), so a token that no move shifts is shifted in no sentence that begins in the same way.

Main statement: `Grammar.error_at_first_wrong_token`.
-/

namespace ShaderFront

/-! ## Runs as sequences of moves -/

namespace Engine

variable {σ N : Type} {t : Tables} {semantics : Semantics σ N}

/-- The first configuration gets to the second one by moves. -/
def Steps (t : Tables) (semantics : Semantics σ N) : Config σ N → Config σ N → Prop :=
  Relation.ReflTransGen fun config next => step t semantics config = .next next

/-- A run goes through all configurations that its moves lead to. -/
theorem Steps.run_eq {config last : Config σ N} (h : Steps t semantics config last) :
    ∃ n, ∀ fuel, run t semantics (fuel + n) config = run t semantics fuel last := by
  induction h with
  | refl => exact ⟨0, fun _ => rfl⟩
  | tail _ hstep ih =>
    obtain ⟨n, hn⟩ := ih
    refine ⟨n + 1, fun fuel => ?_⟩
    rw [show fuel + (n + 1) = (fuel + 1) + n by omega, hn, run, hstep]

/-- A run that is not cut short ends with a last move. -/
theorem exists_last_move {outcome : Outcome σ N} (hne : outcome.result ≠ .error .stepLimit) :
    ∀ (fuel : Nat) {config : Config σ N}, run t semantics fuel config = outcome →
      ∃ last, Steps t semantics config last ∧ step t semantics last = .done outcome
  | 0, _, h => absurd (congrArg Outcome.result h).symm hne
  | fuel + 1, config, h => by
    rw [run] at h
    split at h
    · rename_i next hstep
      obtain ⟨last, hsteps, hlast⟩ := exists_last_move hne fuel h
      exact ⟨last, .head hstep hsteps, hlast⟩
    · rename_i outcome' hstep
      exact ⟨config, .refl, h ▸ hstep⟩

/-! ## Moves before a token is shifted -/

/-- A reduction does not depend on the input. -/
theorem reduce_reading {frames : List (Frame Tree)} {lastEnd : Nat} {input : List Token} {id : ProductionId}
    {next : Config Unit Tree} (h : reduce t Tree.build (reading t frames lastEnd input) id = .next next) :
    ∃ frames', next = reading t frames' lastEnd input ∧
      ∀ input', reduce t Tree.build (reading t frames lastEnd input') id = .next (reading t frames' lastEnd input') := by
  cases reducing h with
  | built hp hle hbody hnode hgoto =>
    refine ⟨_, rfl, fun input' => ?_⟩
    cases hnode
    have hreduce := @reduce_eq _ _ t Tree.build (reading t frames lastEnd input') id _ hp hle hbody
    simp only [reading, Tree.build] at hgoto hreduce ⊢
    rw [hreduce, hgoto]

/-- **A move with a token ahead** shifts it, or leaves the input alone; what comes after the token does not matter. -/
theorem step_reading {frames : List (Frame Tree)} {lastEnd : Nat} {token : Token} {rest : List Token}
    {next : Config Unit Tree} (h : step t Tree.build (reading t frames lastEnd (token :: rest)) = .next next) :
    (∃ frames', next = reading t frames' token.span.stop rest ∧ ∀ rest',
      step t Tree.build (reading t frames lastEnd (token :: rest')) = .next (reading t frames' token.span.stop rest')) ∨
    ∃ frames', next = reading t frames' lastEnd (token :: rest) ∧ ∀ rest',
      step t Tree.build (reading t frames lastEnd (token :: rest')) = .next (reading t frames' lastEnd (token :: rest')) := by
  rcases step_next h with ⟨target, haction, rfl⟩ | ⟨id, haction, hreduce⟩
  · exact Or.inl ⟨_, rfl, fun rest' => step_shift haction⟩
  · obtain ⟨frames', rfl, hreduce'⟩ := reduce_reading hreduce
    refine Or.inr ⟨frames', rfl, fun rest' => ?_⟩
    have haction' : t.action (topState (reading t frames lastEnd (token :: rest')).frames)
        (reading t frames lastEnd (token :: rest')).lookahead.symbol = .reduce id := haction
    rw [step, haction']
    exact hreduce' _

/-- At the end of the input only reductions are made, if the end of the input is not shifted. -/
theorem step_reading_nil (hend : ∀ state target, t.action state t.endOfInput ≠ .shift target)
    {frames : List (Frame Tree)} {lastEnd : Nat} {next : Config Unit Tree}
    (h : step t Tree.build (reading t frames lastEnd []) = .next next) :
    ∃ frames', next = reading t frames' lastEnd [] := by
  rcases step_next h with ⟨target, haction, rfl⟩ | ⟨id, -, hreduce⟩
  · exact absurd haction (hend _ target)
  · obtain ⟨frames', rfl, -⟩ := reduce_reading hreduce
    exact ⟨frames', rfl⟩

/-- **Moves before a token is shifted** do not depend on what comes after it. A configuration on the way has the token
still ahead, and is reached with any other continuation as well, or it has only tokens after it left. -/
theorem steps_of_prefix (hend : ∀ state target, t.action state t.endOfInput ≠ .shift target) (front : List Token)
    (token : Token) (rest rest' : List Token) {config : Config Unit Tree}
    (h : Steps t Tree.build (reading t [] 0 (front ++ token :: rest)) config) :
    (∃ frames lastEnd middle, config = reading t frames lastEnd (middle ++ token :: rest) ∧
      Steps t Tree.build (reading t [] 0 (front ++ token :: rest')) (reading t frames lastEnd (middle ++ token :: rest'))) ∨
    ∃ frames lastEnd input, config = reading t frames lastEnd input ∧ input.length ≤ rest.length := by
  induction h with
  | refl => exact Or.inl ⟨[], 0, front, rfl, .refl⟩
  | tail _ hstep ih =>
    rcases ih with ⟨frames, lastEnd, middle, rfl, hsteps⟩ | ⟨frames, lastEnd, input, rfl, hle⟩
    · cases middle with
      | nil =>
        rcases step_reading hstep with ⟨frames', rfl, -⟩ | ⟨frames', rfl, hother⟩
        · exact Or.inr ⟨frames', _, rest, rfl, le_rfl⟩
        · exact Or.inl ⟨frames', lastEnd, [], rfl, hsteps.tail (hother rest')⟩
      | cons first middle =>
        rcases step_reading hstep with ⟨frames', rfl, hother⟩ | ⟨frames', rfl, hother⟩
        · exact Or.inl ⟨frames', _, middle, rfl, hsteps.tail (hother _)⟩
        · exact Or.inl ⟨frames', lastEnd, first :: middle, rfl, hsteps.tail (hother _)⟩
    · cases input with
      | nil =>
        obtain ⟨frames', rfl⟩ := step_reading_nil hend hstep
        exact Or.inr ⟨frames', lastEnd, [], rfl, hle⟩
      | cons first input =>
        rcases step_reading hstep with ⟨frames', rfl, -⟩ | ⟨frames', rfl, -⟩
        · exact Or.inr ⟨frames', _, input, rfl, Nat.le_of_succ_le hle⟩
        · exact Or.inr ⟨frames', lastEnd, first :: input, rfl, hle⟩

/-- An error with a token ahead does not depend on what comes after it. -/
theorem step_reading_error {frames : List (Frame Tree)} {lastEnd : Nat} {token : Token} {rest : List Token}
    (haction : t.action (topState frames) token.symbol = .error) :
    step t Tree.build (reading t frames lastEnd (token :: rest)) =
      .done ⟨.error (syntaxError t (topState frames) token), [logEntry (syntaxError t (topState frames) token) frames], ()⟩ := by
  have haction' : t.action (topState (reading t frames lastEnd (token :: rest)).frames)
      (reading t frames lastEnd (token :: rest)).lookahead.symbol = .error := haction
  rw [step, haction']
  rfl

end Engine

namespace Grammar

open Engine

variable {g : Grammar} {c : Collection}

/-! ## Sentences -/

/-- The tokens are the leaves of a derivation tree of the body of a start production. -/
def IsSentence (g : Grammar) (tokens : List Token) : Prop :=
  ∃ symbol tree, g.IsRoot symbol ∧ g.Derives Exact symbol tree ∧ tree.leaves = tokens

/-- The tokens are the beginning of a sentence. -/
def BeginsSentence (g : Grammar) (tokens : List Token) : Prop := ∃ rest, g.IsSentence (tokens ++ rest)

theorem DerivesAll.append {fits : SymbolId → Token → Prop} : ∀ {as bs : List SymbolId} {ts us : List Tree},
    g.DerivesAll fits as ts → g.DerivesAll fits bs us → g.DerivesAll fits (as ++ bs) (ts ++ us)
  | _, _, _, _, .nil, h => h
  | _, _, _, _, .cons hfirst hrest, h => .cons hfirst (hrest.append h)

/-- After the leaves of a stack the leaves of any trees for the rest of an item's body can follow. -/
def Continues (g : Grammar) (frames : List (Frame Tree)) (item : Item) : Prop :=
  ∀ p, g.production? item.production = some p → ∀ trees, g.DerivesAll Exact (p.body.drop item.dot) trees →
    g.BeginsSentence (Tree.leavesAll (stackTrees frames) ++ Tree.leavesAll trees)

/-- What an item demands can continue a stack if the item can. -/
theorem Continues.demands (wf : g.WellFormed) (hproductive : g.Productive) {frames : List (Frame Tree)} {i j : Item}
    (h : g.Continues frames i) (hdemands : g.Demands i j) : g.Continues frames j := by
  obtain ⟨p, symbol, s, hp, hnext, hs, -, hq, hdot, -⟩ := mem_demanded.mp hdemands
  obtain ⟨q, hq, hhead⟩ := (wf.alternatives hs j.production).mp hq
  intro q' hq' trees htrees
  cases hq.symm.trans hq'
  rw [hdot, List.drop_zero] at htrees
  -- the rest of the body after the head derives something, and that can follow
  obtain ⟨others, hothers⟩ := hproductive.exists_trees (l := p.body.drop (i.dot + 1))
    fun x hx => (wf.body hp x (List.mem_of_mem_drop hx)).1
  have hall : g.DerivesAll Exact (p.body.drop i.dot) (.node j.production trees :: others) := by
    rw [drop_eq_cons hnext, ← hhead]
    exact .cons (.node hq htrees) hothers
  obtain ⟨rest, hrest⟩ := h p hp _ hall
  refine ⟨Tree.leavesAll others ++ rest, ?_⟩
  rw [Tree.leavesAll, Tree.leaves] at hrest
  simpa only [List.append_assoc] using hrest

theorem Continues.yields (wf : g.WellFormed) (hproductive : g.Productive) {frames : List (Frame Tree)} {i j : Item}
    (h : g.Continues frames i) (hyields : g.Yields i j) : g.Continues frames j := by
  induction hyields with
  | refl => exact h
  | tail _ hdemands ih => exact ih.demands wf hproductive hdemands

/-- **Every item of the state on top can continue the stack.** -/
theorem Path.continues (wf : g.WellFormed) (haug : g.Augmented) (hc : g.Automaton c) (hwildcard : g.wildcard = none)
    (hproductive : g.Productive) (n : Nat) : ∀ {frames : List (Frame Tree)} {S : ItemSet} {item : Item},
      frames.length = n → g.Path c frames → c.states[topState frames]? = some S → item ∈ S → g.Continues frames item := by
  induction n using Nat.strong_induction_on with
  | _ n ih =>
    rintro frames S item rfl hpath hS hitem
    obtain ⟨k, hk, hkernel, hyields⟩ := ((hc.joined hS).isState wf).generated item hitem
    refine Continues.yields wf hproductive ?_ hyields
    intro p hp trees htrees
    obtain ⟨hle, htop, hdrop, S', hS', k', hk', hproduction, hdot'⟩ := hpath.pop wf hc k.dot hS hk rfl hp
    have htop : g.DerivesAll Exact (p.body.take k.dot) (stackTrees (frames.take k.dot)) :=
      DerivesAll.mono (fun symbol token hfit => hfit.resolve_right (by simp [hwildcard])) _ htop
    have hbody : g.DerivesAll Exact p.body (stackTrees (frames.take k.dot) ++ trees) := by
      rw [← List.take_append_drop k.dot p.body]
      exact htop.append htrees
    have hleaves : Tree.leavesAll (stackTrees frames) ++ Tree.leavesAll trees =
        Tree.leavesAll (stackTrees (frames.drop k.dot)) ++
          Tree.leavesAll (stackTrees (frames.take k.dot) ++ trees) := by
      rw [stackTrees_split k.dot frames, Tree.leavesAll_append, Tree.leavesAll_append, List.append_assoc]
    rw [hleaves]
    by_cases hdot : k.dot = 0
    · -- an item of the start symbol, and the stack is empty
      have hhead : p.head = g.start := by simpa [isKernelItem, hdot, hp] using hkernel
      obtain ⟨symbol, hsymbol, -⟩ := haug.start_body hp hhead
      have hempty : frames = [] := hpath.eq_nil_of_start wf haug hc hS hk hdot hp hhead
      have hnil : stackTrees (frames.take k.dot) = [] := by
        rw [hdot]
        rfl
      rw [hnil, List.nil_append] at hbody ⊢
      rw [hsymbol] at hbody
      subst hempty
      cases hbody with
      | @cons _ tree _ _ htree hrest =>
        cases hrest
        exact ⟨[], symbol, tree, ⟨k.production, p, hp, hhead, hsymbol⟩, htree, by simp [stackTrees, elements, Tree.leavesAll]⟩
    · have hlength : (frames.drop k.dot).length < frames.length := by
        rw [List.length_drop]
        omega
      have hp' : g.production? k'.production = some p := by rw [hproduction, hp]
      refine ih _ hlength rfl hdrop hS' hk' p hp' _ ?_
      rwa [hdot', List.drop_zero]

/-- The state on top of a stack holds an item. -/
theorem Path.exists_item (wf : g.WellFormed) (hc : g.Automaton c) (hproductive : g.Productive)
    {frames : List (Frame Tree)} (hpath : g.Path c frames) : ∃ S, c.states[topState frames]? = some S ∧ ∃ item, item ∈ S := by
  cases hpath with
  | nil =>
    obtain ⟨S, hS, -, hsub⟩ := hc.start
    obtain ⟨s, hs, hterminal⟩ := wf.start
    obtain ⟨tree, htree⟩ := hproductive g.start (by simp [hs]) (by simp [isTerminal, hs, hterminal])
    generalize hstart : g.start = start at htree
    cases htree with
    | leaf h _ => simp [← hstart, isTerminal, hs, hterminal] at h
    | @node id p _ hp _ => exact ⟨S, hS, _, hsub _ (wf.mem_initialItemSet.mpr ⟨id, p, hp, hstart.symm, Yields.refl _⟩)⟩
  | cons _ htarget _ =>
    obtain ⟨S, T, hS, hT, hnext, -⟩ := hc.sound htarget
    obtain ⟨item, hitem, hsymbol⟩ := mem_nextSymbols.mp hnext
    obtain ⟨t, T', ht, hT', hadvanced⟩ := hc.exists_target wf hS hitem hsymbol
    cases htarget.symm.trans ht
    exact ⟨T', hT', _, hadvanced⟩

/-- **What is on a stack begins a sentence.** -/
theorem Path.begins (wf : g.WellFormed) (haug : g.Augmented) (hc : g.Automaton c) (hwildcard : g.wildcard = none)
    (hproductive : g.Productive) {frames : List (Frame Tree)} (hpath : g.Path c frames) :
    g.BeginsSentence (Tree.leavesAll (stackTrees frames)) := by
  obtain ⟨S, hS, item, hitem⟩ := hpath.exists_item wf hc hproductive
  obtain ⟨p, hp, -⟩ := (hc.validItem wf hS hitem).production
  obtain ⟨trees, htrees⟩ := hproductive.exists_trees (l := p.body.drop item.dot)
    fun x hx => (wf.body hp x (List.mem_of_mem_drop hx)).1
  obtain ⟨rest, hrest⟩ := hpath.continues wf haug hc hwildcard hproductive _ rfl hS hitem p hp trees htrees
  exact ⟨Tree.leavesAll trees ++ rest, by rwa [← List.append_assoc]⟩

/-! ## Errors -/

theorem Augmented.avoids_start (h : g.Augmented) : g.Avoids g.start := by
  intro p hp
  obtain ⟨id, hid⟩ := Array.getElem?_of_mem (Array.mem_toList_iff.mp hp)
  exact h.start_not_mem hid

theorem Augmented.avoids_end (h : g.Augmented) : g.Avoids g.endOfInput := by
  intro p hp
  obtain ⟨id, hid⟩ := Array.getElem?_of_mem (Array.mem_toList_iff.mp hp)
  exact h.end_not_mem hid

theorem Sound.steps (wf : g.WellFormed) (haug : g.Augmented) (hc : g.Automaton c) {tokens : List Token}
    {config last : Config Unit Tree} (h : g.Sound c tokens config)
    (hsteps : Steps (g.tableOf c).tables Tree.build config last) : g.Sound c tokens last := by
  induction hsteps with
  | refl => exact h
  | tail _ hstep ih => exact ih.step wf haug hc hstep

/-- An acceptance finds a node on the stack. -/
theorem Path.exists_node (wf : g.WellFormed) (haug : g.Augmented) (hc : g.Automaton c) {frames : List (Frame Tree)}
    (hpath : g.Path c frames) {symbol : SymbolId} (haction : (g.tableOf c).action (topState frames) symbol = .accept) :
    ∃ state symbol node below, frames = ⟨state, .node symbol node⟩ :: below := by
  obtain ⟨-, S, item, p, hS, hitem, hp, hhead, hdot⟩ := accept_sound wf hc haction
  obtain ⟨root, hbody, hnonterminal⟩ := haug.start_body hp hhead
  rw [hbody, List.length_singleton] at hdot
  obtain ⟨hle, htrees, -⟩ := hpath.pop wf hc 1 hS hitem hdot hp
  cases frames with
  | nil => cases hle
  | cons frame below =>
    obtain ⟨state, element⟩ := frame
    cases element with
    | node symbol node => exact ⟨state, symbol, node, below, rfl⟩
    | token token =>
      -- the body of a start production is no terminal, so no token stands for it
      rw [hbody] at htrees
      cases htrees with
      | cons htree _ =>
        cases htree with
        | leaf hterminal _ =>
          rw [hnonterminal] at hterminal
          cases hterminal

/-- Where an error is: the token it reports is the first one that no sentence has at its place, or it is the end of a list
that begins a sentence and is none. -/
def EarliestError (g : Grammar) (tokens : List Token) (e : ParseError) : Prop :=
  (∃ front token rest expected, tokens = front ++ token :: rest ∧ g.BeginsSentence front ∧
    ¬ g.BeginsSentence (front ++ [token]) ∧ e = .unexpectedToken token.text expected token.span) ∨
  g.BeginsSentence tokens ∧ ¬ g.IsSentence tokens ∧ ∃ expected span, e = .unexpectedEnd expected span

/-- The last move of a failed parse reports the lookahead. -/
theorem Sound.error (wf : g.WellFormed) (haug : g.Augmented) (hc : g.Automaton c) {tokens : List Token}
    {config : Config Unit Tree} (h : g.Sound c tokens config) {outcome : Outcome Unit Tree}
    (hstep : Engine.step (g.tableOf c).tables Tree.build config = .done outcome) {e : ParseError}
    (he : outcome.result = .error e) (hinternal : e.isInternal = false) :
    (g.tableOf c).action (topState config.frames) config.lookahead.symbol = .error ∧
      e = syntaxError (g.tableOf c).tables (topState config.frames) config.lookahead := by
  cases moving hstep with
  | accept => cases he
  | refuse haction =>
    cases he
    exact ⟨haction, rfl⟩
  | bare haccept hframes =>
    obtain ⟨state, symbol, node, below, heq⟩ := h.path.exists_node wf haug hc haccept
    exact absurd heq (hframes state symbol node below)
  | reduce _ hreduce =>
    -- the error of a reduction is internal, and building a tree never fails
    cases reducing hreduce with
    | unknown | short | mismatched | lost =>
      cases he
      cases hinternal
    | refused _ hfail => cases hfail

/-- A list of tokens on which the engine fails is no sentence. -/
theorem Conflictless.not_isSentence (h : g.Conflictless c) {tokens : List Token} {last : Config Unit Tree}
    (hsteps : Steps (g.tableOf c).tables Tree.build (reading (g.tableOf c).tables [] 0 tokens) last)
    {outcome : Outcome Unit Tree} (hlast : Engine.step (g.tableOf c).tables Tree.build last = .done outcome)
    {e : ParseError} (he : outcome.result = .error e) : ¬ g.IsSentence tokens := by
  rintro ⟨symbol, tree, hroot, htree, rfl⟩
  obtain ⟨n, hparse⟩ := h.parse_complete hroot htree
  obtain ⟨m, hrun⟩ := hsteps.run_eq
  have hok := hparse (n + 1 + m) (by omega)
  have hfail : Engine.parse (g.tableOf c).tables Tree.build (n + 1 + m) tree.leaves () = outcome := by
    rw [show Engine.parse (g.tableOf c).tables Tree.build (n + 1 + m) tree.leaves () = _ from hrun (n + 1), run, hlast]
  rw [hfail, he] at hok
  cases hok

/-- A token without an action is wrong in every sentence that begins with the tokens before it. -/
theorem Conflictless.not_beginsSentence (h : g.Conflictless c) {front rest : List Token} {token : Token}
    (htoken : token.symbol ≠ g.endOfInput) {frames : List (Frame Tree)} (lastEnd : Nat)
    (hsteps : Steps (g.tableOf c).tables Tree.build (reading (g.tableOf c).tables [] 0 (front ++ token :: rest))
      (reading (g.tableOf c).tables frames lastEnd (token :: rest)))
    (haction : (g.tableOf c).action (topState frames) token.symbol = .error) :
    ¬ g.BeginsSentence (front ++ [token]) := by
  rintro ⟨rest', hsentence⟩
  rw [List.append_assoc, List.singleton_append] at hsentence
  have hend : ∀ state target, (g.tableOf c).tables.action state (g.tableOf c).tables.endOfInput ≠ .shift target :=
    fun state target hshift => shift_ne_end h.augmented.end_not_mem hshift rfl
  rcases steps_of_prefix hend front token rest rest' hsteps with ⟨frames', lastEnd', middle, heq, hsteps'⟩ |
    ⟨frames', lastEnd', input, heq, hle⟩
  · -- the token is still ahead, and the engine fails on the sentence as well
    obtain rfl : frames = frames' := congrArg Config.frames heq
    have hmiddle : middle = [] := by
      cases middle with
      | nil => rfl
      | cons first middle =>
        have hlength := congrArg (fun config => config.rest.length) heq
        simp [reading, nextToken] at hlength
        omega
    subst hmiddle
    exact h.not_isSentence hsteps' (step_reading_error haction) rfl hsentence
  · -- otherwise more than the token is ahead, or it is the end of the input
    cases input with
    | nil => exact htoken (congrArg (fun config => config.lookahead.symbol) heq)
    | cons first input =>
      have hlength := congrArg (fun config => config.rest.length) heq
      simp only [reading, nextToken] at hlength
      rw [List.length_cons] at hle
      omega

/-- **Syntax errors are reported at the first wrong token**: for every grammar a builder gives without a wildcard, in which
every nonterminal derives a string of terminals, and every construction without conflicts, a parse ends, and if it fails,
it reports the first token that no sentence has at its place, or the end of a list that begins a sentence and is none. -/
theorem error_at_first_wrong_token {requests : List Builder.Request} {g : Grammar}
    (hbuild : (Builder.after requests).build = .ok g) (haug : g.Augmented) (hwildcard : g.wildcard = none)
    (hproductive : g.Productive) {construction : Construction} {t : Table} (ht : g.parserTable construction = .ok t)
    {tokens : List Token} (htokens : ∀ token ∈ tokens, token.symbol ≠ g.endOfInput) :
    ∃ n, ∀ fuel, n ≤ fuel → ∀ e, (Engine.parse t.tables Tree.build fuel tokens ()).result = .error e →
      g.EarliestError tokens e := by
  have wf := wellFormed_of_build hbuild
  obtain ⟨h, rfl⟩ := wf.conflictless haug ht
  set c := g.itemSets construction
  have horderly : g.Orderly c := ⟨wf, h.automaton, h.conflicts, hproductive, haug.avoids_end⟩
  have hspelled : g.Spelled c (Engine.start (g.tableOf c).tables tokens () : Config Unit Tree).frames [] := ⟨.nil, .nil⟩
  have hbuilds : ∀ id body memory, ∃ node, (Tree.build id body memory).1 = .ok node := fun _ _ _ => ⟨_, rfl⟩
  obtain ⟨n, outcome, hrun, hne⟩ := horderly.ends hbuilds _ rfl hspelled
  refine ⟨n, fun fuel hfuel e he => ?_⟩
  have hinternal := Spelled.run wf h.automaton haug.avoids_start (by simp [Tree.build]) fuel hspelled he
  rw [show Engine.parse (g.tableOf c).tables Tree.build fuel tokens () = outcome from hrun fuel hfuel] at he
  obtain ⟨last, hsteps, hlast⟩ := exists_last_move hne n (hrun n le_rfl)
  have hsound := (Sound.start tokens).steps wf haug h.automaton hsteps
  obtain ⟨haction, rfl⟩ := hsound.error wf haug h.automaton hlast he hinternal
  have hbegins := hsound.path.begins wf haug h.automaton hwildcard hproductive
  obtain ⟨frames, lookahead, left, stop, ⟨⟩⟩ := last
  obtain ⟨lastEnd, input, hread, rfl⟩ := hsound.input
  cases input with
  | nil =>
    obtain ⟨rfl, -⟩ := Prod.mk.inj hread
    refine Or.inr ⟨by simpa using hbegins, h.not_isSentence hsteps hlast he, _, _, if_pos rfl⟩
  | cons token rest =>
    obtain ⟨rfl, hrest⟩ := Prod.mk.inj hread
    obtain ⟨rfl, rfl⟩ := Prod.mk.inj hrest
    have htoken : token.symbol ≠ g.endOfInput := htokens token (by simp)
    exact Or.inl ⟨_, token, rest, _, rfl, hbegins, h.not_beginsSentence htoken lastEnd hsteps haction, if_neg htoken⟩

/-- Tokens with a closing parenthesis too many. -/
def overclosedTokens : List Token := [⟨1, "(", ⟨0, 1⟩⟩, ⟨2, ")", ⟨1, 2⟩⟩, ⟨2, ")", ⟨2, 3⟩⟩]

/-- The engine reports the closing parenthesis that is too many, and no nesting of parentheses has one there. -/
theorem error_at_first_wrong_token_parentheses :
    (Engine.parse (parentheses.table .unioned).tables Tree.build 20 overclosedTokens ()).result =
      .error (.unexpectedToken ")" ["$END$"] ⟨2, 3⟩) ∧
    ∃ n, ∀ fuel, n ≤ fuel → ∀ e,
      (Engine.parse (parentheses.table .unioned).tables Tree.build fuel overclosedTokens ()).result = .error e →
        parentheses.EarliestError overclosedTokens e := by
  have htable := parserTable_eq_ok.mpr ⟨(by decide +kernel : (parentheses.table .unioned).conflicts = []), rfl⟩
  refine ⟨by decide +kernel, ?_⟩
  exact error_at_first_wrong_token build_parentheses augmented_parentheses (by decide +kernel) productive_parentheses htable
    (by decide +kernel)

end Grammar

end ShaderFront
