import Mathlib
import ShaderFront.Proofs.Acyclic

/-!
# Termination of the engine

A table without conflicts always halts, if its grammar is productive and has the end of the input in no body. The end of the
input is then never shifted, so there are no more shifts than tokens, and it is left to show that reductions with one
symbol ahead come to an end (`Grammar.Orderly.stops`).

The symbol ahead may be unknown to the grammar and taken by the wildcard in some states only, so a run can follow the
actions of two terminals in turn. The proof therefore looks at the trail alone. What is pushed on a trail since the last shift
vanishes. As long as the trail itself is not touched, the reductions above it end because gliding does; a reduction
that takes the top entry away wraps its symbol, which ends as well; and after a deeper reduction the trail is shorter.

Neither condition can be dropped (`Grammar.parse_loops`).
-/

namespace ShaderFront

/-! ## Runs that end -/

namespace Engine

variable {σ N : Type} {t : Tables} {semantics : Semantics σ N} {config next : Config σ N}

/-- A run ends: from some number of moves on, more of them change nothing, and it is not their number that ended it. -/
def Ends (t : Tables) (semantics : Semantics σ N) (config : Config σ N) : Prop :=
  ∃ n outcome, (∀ fuel, n ≤ fuel → run t semantics fuel config = outcome) ∧ outcome.result ≠ .error .stepLimit

theorem Ends.of_next (hstep : step t semantics config = .next next) (h : Ends t semantics next) :
    Ends t semantics config := by
  obtain ⟨n, outcome, hrun, hne⟩ := h
  refine ⟨n + 1, outcome, fun fuel hfuel => ?_, hne⟩
  cases fuel with
  | zero => cases hfuel
  | succ fuel =>
    rw [run, hstep]
    exact hrun fuel (Nat.succ_le_succ_iff.mp hfuel)

theorem Ends.of_done {outcome : Outcome σ N} (hstep : step t semantics config = .done outcome)
    (hne : outcome.result ≠ .error .stepLimit) : Ends t semantics config := by
  refine ⟨1, outcome, fun fuel hfuel => ?_, hne⟩
  cases fuel with
  | zero => cases hfuel
  | succ fuel => rw [run, hstep]

/-- A move with a semantics that never fails does not end at a limit. -/
theorem step_ne_stepLimit (hsemantics : ∀ id body memory, ∃ node, (semantics id body memory).1 = .ok node)
    {outcome : Outcome σ N} (h : step t semantics config = .done outcome) : outcome.result ≠ .error .stepLimit := by
  cases moving h with
  | accept | bare => simp
  | refuse =>
    rw [syntaxError]
    split <;> simp
  | reduce _ hreduce =>
    cases reducing hreduce with
    | unknown | short | mismatched | lost => simp
    | refused _ hfail =>
      obtain ⟨node, hnode⟩ := hsemantics _ _ _
      rw [hfail] at hnode
      cases hnode

/-- A run that can always go on reaches every limit. -/
theorem run_stepLimit {P : Config σ N → Prop}
    (hP : ∀ config, P config → ∃ next, step t semantics config = .next next ∧ P next) :
    ∀ (fuel : Nat) {config : Config σ N}, P config → (run t semantics fuel config).result = .error .stepLimit
  | 0, _, _ => rfl
  | fuel + 1, config, h => by
    obtain ⟨next, hstep, hnext⟩ := hP config h
    rw [run, hstep]
    exact run_stepLimit hP fuel hnext

theorem step_shift {target : StateId}
    (haction : t.action (topState config.frames) config.lookahead.symbol = .shift target) :
    step t semantics config = .next { config with
      frames := ⟨target, .token config.lookahead⟩ :: config.frames
      lookahead := (nextToken t config.lastEnd config.rest).1
      rest := (nextToken t config.lastEnd config.rest).2.1
      lastEnd := (nextToken t config.lastEnd config.rest).2.2 } := by
  rw [step, haction]

theorem step_reduce {config : Config Unit Tree} {id : ProductionId} {p : Production} {target : StateId}
    (haction : t.action (topState config.frames) config.lookahead.symbol = .reduce id)
    (hp : t.production? id = some p) (hlength : p.body.length ≤ config.frames.length)
    (hbody : mismatch? t p.body (elements (config.frames.take p.body.length)) = none)
    (hgoto : t.goto (topState (config.frames.drop p.body.length)) p.head = some target) :
    step t Tree.build config = .next { config with
      frames := ⟨target, .node p.head
        (.node id ((elements (config.frames.take p.body.length)).map Tree.ofMatched))⟩ ::
          config.frames.drop p.body.length } := by
  rw [step, haction]
  simp only [reduce_eq hp hlength hbody, Tree.build, hgoto]

/-- The tokens that can still be shifted. -/
def pending (t : Tables) (config : Config σ N) : Nat :=
  config.rest.length + if config.lookahead.symbol = t.endOfInput then 0 else 1

end Engine

namespace Grammar

open Engine

variable {g : Grammar} {c : Collection} {a : SymbolId}

/-! ## What a reduction does to a trail -/

/-- A reduction of the table has a head that can be reduced to. -/
theorem Automaton.reducible (wf : g.WellFormed) (hc : g.Automaton c) {s : StateId} {id : ProductionId}
    (h : (g.tableOf c).action s a = .reduce id) {p : Production} (hp : g.production? id = some p) :
    g.Reducible p.head := by
  intro hhead
  obtain ⟨S, item, q, hS, hitem, rfl, hq, -, hne⟩ := reduce_cases wf h
  cases hp.symm.trans hq
  obtain ⟨R, hR, -, -, hmem⟩ := (hc.joined hS).cover item hitem
  exact ⟨R, hR, item, hmem, fun hend => hne ⟨hhead, hend⟩, _, hq, hhead⟩

/-- **What a reduction does**: the body of its production is on top of the trail, the state below holds the production with
its dot in front, and the head takes the place of the body. -/
theorem Reduces.spec (wf : g.WellFormed) (hc : g.Automaton c) {F G : Trail} (hF : IsTrail c F) (h : g.Reduces c a F G) :
    ∃ id p target, g.production? id = some p ∧ g.Reducible p.head ∧ p.body.length ≤ F.length ∧
      (F.take p.body.length).map Prod.fst = p.body.reverse ∧ G = (p.head, target) :: F.drop p.body.length ∧ IsTrail c G ∧
      ∃ S, c.states[Trail.state (F.drop p.body.length)]? = some S ∧ ∃ i ∈ S, i.production = id ∧ i.dot = 0 := by
  obtain ⟨id, p, target, haction, hp, hle, htarget, rfl⟩ := h
  obtain ⟨S, item, p', hS, hitem, rfl, hp', hdot⟩ := reduce_sound wf hc haction
  cases hp.symm.trans hp'
  obtain ⟨-, hbody, hdrop, hbelow⟩ := hF.pop wf hc p.body.length hS hitem hdot hp
  rw [List.take_length] at hbody
  exact ⟨_, p, target, hp, hc.reducible wf haction hp, hle, hbody, rfl, .cons hdrop htarget, hbelow⟩

theorem Wraps.vanishes {symbol head : SymbolId} (h : g.Wraps c symbol head) (hsymbol : g.Vanishes g.Reducible [symbol]) :
    g.Vanishes g.Reducible [head] := by
  obtain ⟨-, -, i, p, β, -, -, -, hp, rfl, hbody, hβ, hreducible⟩ := h
  refine .cons hp hreducible ?_ .nil
  rw [hbody]
  exact hsymbol.append hβ

/-! ## Reductions come to an end -/

/-- Whatever vanishing symbols are pushed on a trail: once a reduction takes something of the trail itself away, the
reductions come to an end. -/
def Shallow (g : Grammar) (c : Collection) (a : SymbolId) (F : Trail) : Prop :=
  ∀ H G : Trail, IsTrail c (H ++ F) → (∀ entry ∈ H, g.Vanishes g.Reducible [entry.1]) → g.Reduces c a (H ++ F) G →
    G.length ≤ F.length → g.Stops c a 0 G

/-- One more entry on a trail, by induction on how often its symbol can be wrapped. -/
theorem Orderly.shallow_cons (h : g.Orderly c) {F : Trail} {Q : SymbolId → Prop}
    (hwraps : ∀ {symbol head : SymbolId}, Q symbol → g.Wraps c symbol head → Q head)
    (hbelow : ∀ {symbol : SymbolId} {t : StateId} {H G : Trail}, Q symbol → IsTrail c (H ++ (symbol, t) :: F) →
      (∀ entry ∈ H, g.Vanishes g.Reducible [entry.1]) → g.Reduces c a (H ++ (symbol, t) :: F) G →
      G.length ≤ F.length → g.Stops c a 0 G)
    (hstops : ∀ {symbol : SymbolId} {t : StateId}, Q symbol → IsTrail c ((symbol, t) :: F) →
      g.Shallow c a ((symbol, t) :: F) → g.Stops c a 0 ((symbol, t) :: F)) (symbol : SymbolId) :
    ∀ {t : StateId}, Q symbol → g.Shallow c a ((symbol, t) :: F) := by
  induction symbol using h.wellFounded_wraps.induction with
  | _ symbol ih =>
    intro t hQ H G hH hvanishes hreduces hlength
    by_cases hle : G.length ≤ F.length
    · exact hbelow hQ hH hvanishes hreduces hle
    · obtain ⟨id, p, target, hp, hreducible, hbody, htake, rfl, hG, S, hS, i, hi, rfl, hdot⟩ :=
        hreduces.spec h.wellFormed h.automaton hH
      -- the body is the new symbol with the vanishing ones after it
      have hcount : p.body.length = H.length + 1 := by
        simp only [List.length_cons, List.length_drop, List.length_append] at hlength hle hbody
        omega
      have hsplit : H ++ (symbol, t) :: F = (H ++ [(symbol, t)]) ++ F := by simp
      have hlast : (H ++ [(symbol, t)]).length = p.body.length := by simp [hcount]
      rw [hsplit, ← hlast, List.drop_left] at hS hG ⊢
      rw [hsplit, ← hlast, List.take_left] at htake
      have hsymbols : p.body = symbol :: (H.map Prod.fst).reverse := by
        rw [← List.reverse_reverse p.body, ← htake]
        simp
      have hrest : g.Vanishes g.Reducible (H.map Prod.fst).reverse := by
        refine Vanishes.of_forall fun x hx => ?_
        obtain ⟨entry, hentry, rfl⟩ := List.mem_map.mp (List.mem_reverse.mp hx)
        exact hvanishes entry hentry
      have hwrap : g.Wraps c symbol p.head :=
        ⟨_, S, i, p, _, hS, hi, hdot, hp, rfl, hsymbols, hrest, hreducible⟩
      exact hstops (hwraps hQ hwrap) hG (ih p.head hwrap (hwraps hQ hwrap))

/-- By induction on how far one can glide from the top of the trail. -/
theorem Orderly.stops_of_shallow (h : g.Orderly c) (s : StateId) : ∀ {F : Trail}, F.state = s → IsTrail c F →
    g.Shallow c a F → g.Stops c a 0 F := by
  induction s using h.wellFounded_glides.induction with
  | _ s ih =>
    rintro F rfl hF hshallow
    refine Acc.intro _ fun G ⟨hreduces, _⟩ => ?_
    by_cases hle : G.length ≤ F.length
    · exact hshallow [] G hF (by simp) hreduces hle
    · obtain ⟨id, p, target, hp, hreducible, hbody, -, rfl, hG, -⟩ := hreduces.spec h.wellFormed h.automaton hF
      have hempty : p.body = [] := by
        rw [List.length_cons, List.length_drop] at hle
        exact List.length_eq_zero_iff.mp (by omega)
      rw [hempty, List.length_nil, List.drop_zero] at hG ⊢
      have hhead : g.Vanishes g.Reducible [p.head] := .cons hp hreducible (hempty ▸ .nil) .nil
      have hstops : ∀ {symbol : SymbolId} {t : StateId}, g.Vanishes g.Reducible [symbol] →
          IsTrail c ((symbol, t) :: F) → g.Shallow c a ((symbol, t) :: F) → g.Stops c a 0 ((symbol, t) :: F) := by
        intro symbol t hsymbol ht hshallow'
        have htarget : c.target? F.state symbol = some t := by
          cases ht with
          | cons _ htarget => exact htarget
        exact ih t ⟨symbol, htarget, hsymbol⟩ rfl ht hshallow'
      refine hstops hhead hG (h.shallow_cons (fun hsymbol hwraps => hwraps.vanishes hsymbol) ?_ hstops p.head hhead)
      intro symbol t H G hsymbol hH hvanishes hreduces' hlength
      refine hshallow (H ++ [(symbol, t)]) G (by simpa using hH) ?_ (by simpa using hreduces') hlength
      intro entry hentry
      rcases List.mem_append.mp hentry with hentry | hentry
      · exact hvanishes entry hentry
      · rw [List.mem_singleton.mp hentry]
        exact hsymbol

/-- **Reductions with one symbol ahead come to an end**, from every trail. -/
theorem Orderly.stops (h : g.Orderly c) : ∀ (n : Nat) {F : Trail}, F.length ≤ n → IsTrail c F → g.Stops c a 0 F
  | _, [], _, hF => by
    refine h.stops_of_shallow _ rfl hF fun H G hH _ hreduces hlength => ?_
    obtain ⟨_, _, _, -, -, -, -, rfl, -⟩ := hreduces.spec h.wellFormed h.automaton hH
    cases hlength
  | 0, _ :: _, hn, _ => by cases hn
  | n + 1, (symbol, t) :: F, hn, hF => by
    refine h.stops_of_shallow _ rfl hF ?_
    refine h.shallow_cons (Q := fun _ => True) (fun _ _ => trivial) ?_ (fun _ ht => h.stops_of_shallow _ rfl ht) symbol
      trivial
    intro symbol' t' H G _ hH _ hreduces hlength
    obtain ⟨_, _, _, -, -, -, -, -, hG, -⟩ := hreduces.spec h.wellFormed h.automaton hH
    refine Orderly.stops h n ?_ hG
    have := Nat.succ_le_succ_iff.mp hn
    omega

/-! ## Parses come to an end -/

variable {σ N : Type} {semantics : Semantics σ N}

/-- **What a move does**: it shifts one of the tokens left, or it makes a reduction. -/
theorem Spelled.step_cases (wf : g.WellFormed) (hc : g.Automaton c) (hend : g.Avoids g.endOfInput)
    {config next : Config σ N} {trail : Trail} (h : g.Spelled c config.frames trail)
    (hstep : Engine.step (g.tableOf c).tables semantics config = .next next) :
    ∃ trail', g.Spelled c next.frames trail' ∧
      (pending (g.tableOf c).tables next < pending (g.tableOf c).tables config ∨
        next.lookahead = config.lookahead ∧ next.rest = config.rest ∧
          g.Reduces c config.lookahead.symbol trail trail') := by
  rcases step_next hstep with ⟨target, haction, rfl⟩ | ⟨id, haction, hreduce⟩
  · obtain ⟨_, symbol, -, -, htarget, hfits⟩ := shift_cases haction
    have hne : config.lookahead.symbol ≠ (g.tableOf c).tables.endOfInput := shift_ne_end hend.not_mem haction
    refine ⟨_, h.cons htarget hfits, Or.inl ?_⟩
    simp only [pending, if_neg hne]
    cases config.rest with
    | nil => simp [nextToken]
    | cons token rest =>
      simp only [nextToken, List.length_cons]
      by_cases htoken : token.symbol = (g.tableOf c).tables.endOfInput <;> simp [htoken]
  · obtain ⟨p, target, hp, hle, htarget, hspelled, hlookahead, hrest⟩ := h.reduce_next wf hc haction hreduce
    have haction' : (g.tableOf c).action trail.state config.lookahead.symbol = .reduce id := by
      rw [← h.topState_eq]
      exact haction
    exact ⟨_, hspelled, Or.inr ⟨hlookahead, hrest, id, p, target, haction', hp, hle, htarget, rfl⟩⟩

/-- A run ends, by induction on the tokens left and then on the reductions left. -/
theorem Orderly.ends (h : g.Orderly c)
    (hsemantics : ∀ id body memory, ∃ node, (semantics id body memory).1 = .ok node) (n : Nat) :
    ∀ {config : Config σ N} {trail : Trail}, pending (g.tableOf c).tables config = n → g.Spelled c config.frames trail →
      Ends (g.tableOf c).tables semantics config := by
  induction n using Nat.strong_induction_on with
  | _ n ihn =>
    intro config trail hpending hspelled
    have hstops := h.stops (a := config.lookahead.symbol) trail.length le_rfl hspelled.1
    generalize hahead : config.lookahead.symbol = a at hstops
    induction hstops generalizing config with
    | intro trail _ ih =>
      cases hstep : Engine.step (g.tableOf c).tables semantics config with
      | done outcome => exact Ends.of_done hstep (step_ne_stepLimit hsemantics hstep)
      | next next =>
        obtain ⟨trail', hspelled', hless | ⟨hlookahead, hrest, hreduces⟩⟩ :=
          hspelled.step_cases h.wellFormed h.automaton h.avoids_end hstep
        · exact Ends.of_next hstep (ihn _ (hpending ▸ hless) rfl hspelled')
        · have hpending' : pending (g.tableOf c).tables next = n := by
            rw [← hpending, pending, pending, hlookahead, hrest]
          have hheight : 0 < trail'.length := by
            obtain ⟨_, _, _, _, _, _, _, rfl⟩ := hreduces
            exact Nat.succ_pos _
          refine Ends.of_next hstep (ih trail' ⟨hahead ▸ hreduces, hheight⟩ hpending' hspelled' ?_)
          rw [hlookahead, hahead]

/-- **A table without conflicts always halts**: for every grammar a builder gives in which every nonterminal derives a string
of terminals and no body contains the end of the input, and every construction without conflicts, the engine ends on
every list of tokens, with any semantics that never fails. -/
theorem parse_halts {requests : List Builder.Request} {g : Grammar} (hbuild : (Builder.after requests).build = .ok g)
    (hproductive : g.Productive) (hend : g.Avoids g.endOfInput) {construction : Construction} {t : Table}
    (ht : g.parserTable construction = .ok t) {σ N : Type} (semantics : Semantics σ N)
    (hsemantics : ∀ id body memory, ∃ node, (semantics id body memory).1 = .ok node) (tokens : List Token) (memory : σ) :
    ∃ n outcome, (∀ fuel, n ≤ fuel → Engine.parse t.tables semantics fuel tokens memory = outcome) ∧
      outcome.result ≠ .error .stepLimit := by
  have wf := wellFormed_of_build hbuild
  obtain ⟨hconflicts, rfl⟩ := parserTable_eq_ok.mp ht
  have h : g.Orderly (g.itemSets construction) := ⟨wf, wf.automaton construction, hconflicts, hproductive, hend⟩
  exact h.ends hsemantics _ rfl ⟨.nil, .nil⟩

theorem productive_parentheses : parentheses.Productive := by
  have hnested : parentheses.production? 0 = some ⟨0, 0, [3]⟩ := by decide +kernel
  have hempty : parentheses.production? 2 = some ⟨2, 3, []⟩ := by decide +kernel
  have hnone : parentheses.Derives Exact 3 (.node 2 []) := .node hempty .nil
  have hnonterminals : ∀ symbol < parentheses.slots.size, parentheses.isTerminal symbol = false →
      symbol = 0 ∨ symbol = 3 := by decide +kernel
  intro symbol hsome hterminal
  have hlt : symbol < parentheses.slots.size := by
    obtain ⟨s, hs⟩ := Option.isSome_iff_exists.mp hsome
    exact (Array.getElem?_eq_some_iff.mp (Option.join_eq_some_iff.mp hs)).1
  rcases hnonterminals symbol hlt hterminal with rfl | rfl
  · exact ⟨_, .node hnested (.cons hnone .nil)⟩
  · exact ⟨_, hnone⟩

/-- The engine ends on nested parentheses that are not closed. -/
theorem parse_halts_parentheses : ∃ n outcome, (∀ fuel, n ≤ fuel →
    Engine.parse (parentheses.table .merged).tables Tree.build fuel [⟨1, "(", ⟨0, 1⟩⟩, ⟨1, "(", ⟨1, 2⟩⟩] () = outcome) ∧
      outcome.result ≠ .error .stepLimit := by
  have htable := parserTable_eq_ok.mpr ⟨(by decide +kernel : (parentheses.table .merged).conflicts = []), rfl⟩
  exact parse_halts build_parentheses productive_parentheses (by decide +kernel) htable Tree.build
    (fun _ _ _ => ⟨_, rfl⟩) _ _

/-! ## Tables that loop -/

/-- Requests for a grammar in which `U` derives no string of terminals. After any number of `N`, the state holds no item
that takes the terminal, since nothing can follow `M`. -/
def barrenRequests : List Builder.Request :=
  [.terminal "m" 1 .common, .symbols "$START$" ["A"], .symbols "A" ["N", "A"], .symbols "A" ["M", "U"], .symbols "N" [],
    .symbols "M" ["m"], .symbols "U" ["U", "m"]]

/-- Requests for a grammar with the end of the input in a body. -/
def endlessRequests : List Builder.Request :=
  [.terminal "x" 1 .common, .terminal "$END$" 2 .endOfInput, .symbols "$START$" ["L", "x"],
    .symbols "L" ["L", "$END$"], .symbols "L" []]

/-- In the grammar with a barren nonterminal, the engine reduces `N` out of nothing forever. -/
theorem barren_loops (fuel : Nat) :
    (Engine.parse ((Builder.after barrenRequests).freeze.table .canonical).tables Tree.build fuel [⟨1, "m", ⟨0, 1⟩⟩] ()).result =
      .error .stepLimit := by
  set t := ((Builder.after barrenRequests).freeze.table .canonical).tables with ht
  obtain ⟨hstart, hgrown, hp⟩ : (t.action 0 1 = .reduce 3 ∧ t.goto 0 3 = some 2) ∧
      (t.action 2 1 = .reduce 3 ∧ t.goto 2 3 = some 2) ∧ t.production? 3 = some ⟨3, 3, []⟩ := by decide +kernel
  have haction : ∀ s, s = 0 ∨ s = 2 → t.action s 1 = .reduce 3 ∧ t.goto s 3 = some 2 := by
    rintro s (rfl | rfl)
    · exact hstart
    · exact hgrown
  refine run_stepLimit (P := fun config => config.lookahead.symbol = 1 ∧
    (topState config.frames = 0 ∨ topState config.frames = 2)) ?_ fuel ⟨rfl, Or.inl rfl⟩
  rintro config ⟨hlookahead, htop⟩
  obtain ⟨hreduce, hgoto⟩ := haction _ htop
  rw [← hlookahead] at hreduce
  exact ⟨_, step_reduce hreduce hp (Nat.zero_le _) rfl hgoto, hlookahead, Or.inr rfl⟩

/-- In the grammar with the end of the input in a body, the engine shifts it forever. -/
theorem endless_loops (fuel : Nat) :
    (Engine.parse ((Builder.after endlessRequests).freeze.table .canonical).tables Tree.build fuel [] ()).result =
      .error .stepLimit := by
  set t := ((Builder.after endlessRequests).freeze.table .canonical).tables with ht
  have hend : t.endOfInput = 2 := by decide +kernel
  have hempty : t.production? 2 = some ⟨2, 3, []⟩ := by decide +kernel
  have hpair : t.production? 1 = some ⟨1, 3, [3, 2]⟩ := by decide +kernel
  have hstart : t.action 0 2 = .reduce 2 := by decide +kernel
  have hshift : t.action 1 2 = .shift 3 := by decide +kernel
  have hreduce : t.action 3 2 = .reduce 1 := by decide +kernel
  have hgoto : t.goto 0 3 = some 1 := by decide +kernel
  refine run_stepLimit (P := fun config => config.lookahead.symbol = 2 ∧ config.rest = [] ∧
    (config.frames = [] ∨ ∃ node, config.frames = [⟨1, .node 3 node⟩] ∨
      ∃ token : Token, token.symbol = 2 ∧ config.frames = [⟨3, .token token⟩, ⟨1, .node 3 node⟩])) ?_ fuel
    ⟨hend, rfl, Or.inl rfl⟩
  rintro ⟨frames, lookahead, rest, lastEnd, memory⟩ ⟨hlookahead, rfl, hframes⟩
  rcases hframes with rfl | ⟨node, rfl | ⟨token, htoken, rfl⟩⟩
  · exact ⟨_, step_reduce (hlookahead ▸ hstart) hempty (Nat.zero_le _) rfl hgoto, hlookahead, rfl,
      Or.inr ⟨_, Or.inl rfl⟩⟩
  · exact ⟨_, step_shift (hlookahead ▸ hshift), hend, rfl, Or.inr ⟨node, Or.inr ⟨lookahead, hlookahead, rfl⟩⟩⟩
  · refine ⟨_, step_reduce (hlookahead ▸ hreduce) hpair le_rfl ?_ hgoto, hlookahead, rfl, Or.inr ⟨_, Or.inl rfl⟩⟩
    simp [mismatch?, elements, Matched.symbol, htoken]

/-- **Without the two conditions a table without conflicts can loop**: on a terminal that only stands before a nonterminal
without strings, and at the end of the input where a body contains it. -/
theorem parse_loops :
    ((∃ g t, (Builder.after barrenRequests).build = .ok g ∧ g.parserTable .canonical = .ok t ∧ ∀ fuel,
      (Engine.parse t.tables Tree.build fuel [⟨1, "m", ⟨0, 1⟩⟩] ()).result = .error .stepLimit)) ∧
    ∃ g t, (Builder.after endlessRequests).build = .ok g ∧ g.parserTable .canonical = .ok t ∧ ∀ fuel,
      (Engine.parse t.tables Tree.build fuel [] ()).result = .error .stepLimit := by
  constructor
  · have hconflicts : ((Builder.after barrenRequests).freeze.table .canonical).conflicts = [] := by decide +kernel
    exact ⟨_, _, Builder.build_of_isOk (by decide +kernel), parserTable_eq_ok.mpr ⟨hconflicts, rfl⟩, barren_loops⟩
  · have hconflicts : ((Builder.after endlessRequests).freeze.table .canonical).conflicts = [] := by decide +kernel
    exact ⟨_, _, Builder.build_of_isOk (by decide +kernel), parserTable_eq_ok.mpr ⟨hconflicts, rfl⟩, endless_loops⟩

end Grammar

end ShaderFront
