import Mathlib
import ShaderFront.Proofs.Viable

/-!
# The two stacks of a parse

A parser keeps its states and its elements on two stacks, and a reduction cuts both: first the elements, to compare them with the
body, and then the states (`Engine.Stacks.reduce`). A cut that takes more than there is has no result (`Engine.cutOff?`). The engine keeps
both in one list of frames; the two go in step (`Engine.Stacks.step_stacksOf`), so no cut takes too much.

Nothing is asked of the tables. `Engine.Tracks` is what a move keeps, whatever they say: the leaves on the stack are the tokens that were
shifted, and each node was built from a production of the tables with a body that fits (`Tables.Builds`).

Main statement: `Engine.parse_on_stacks`.
-/

namespace ShaderFront

/-! ## Trees over tables -/

namespace Tables

mutual

/-- A tree of a symbol in which every node has a production of the tables, and a child for each symbol of the body. -/
inductive Builds (t : Tables) : SymbolId → Tree → Prop
  | leaf {token : Token} : Builds t token.symbol (.leaf token)
  | node {id : ProductionId} {p : Production} {children : List Tree} : t.production? id = some p → BuildsAll t p.body children →
      Builds t p.head (.node id children)

/-- Trees for the symbols of a body. A symbol is that of its tree, or the tree's symbol is taken in its place. -/
inductive BuildsAll (t : Tables) : List SymbolId → List Tree → Prop
  | nil : BuildsAll t [] []
  | cons {expected symbol : SymbolId} {symbols : List SymbolId} {child : Tree} {children : List Tree} :
      expected = symbol ∨ t.standsFor expected symbol = true → Builds t symbol child → BuildsAll t symbols children →
      BuildsAll t (expected :: symbols) (child :: children)

end

end Tables

namespace Engine

variable {σ N : Type} {t : Tables} {semantics : Semantics σ N}

/-! ## Two stacks -/

/-- The last elements of a stack cut off: what is left, and what was cut off. A stack that is too short cannot be cut. -/
def cutOff? {α : Type} (n : Nat) (stack : List α) : Option (List α × List α) :=
  if stack.length < n then none else some (stack.splitAt (stack.length - n))

theorem cutOff?_append {α : Type} (below top : List α) : cutOff? top.length (below ++ top) = some (below, top) := by
  have hle : ¬(below ++ top).length < top.length := by
    rw [List.length_append]
    omega
  rw [cutOff?, if_neg hle, List.length_append, Nat.add_sub_cancel, List.splitAt_eq, List.take_left, List.drop_left]

/-- The parser between two moves. Both stacks are kept bottom first. -/
structure Stacks (σ N : Type) where
  states : List StateId
  elements : List (Matched N)
  lookahead : Token
  rest : List Token
  /-- The end of the last token read. -/
  lastEnd : Nat
  memory : σ

/-- What one move leads to. -/
inductive Effect (σ N : Type) where
  | next (s : Stacks σ N)
  | done (outcome : Outcome σ N)
  /-- A cut takes more than there is. -/
  | underflow

namespace Stacks

/-- The state on top. -/
def top (states : List StateId) : StateId := states.getLast?.getD startState

/-- The parser before the first move. -/
def start (t : Tables) (tokens : List Token) (memory : σ) : Stacks σ N :=
  let (lookahead, rest, lastEnd) := nextToken t 0 tokens
  { states := [startState], elements := [], lookahead, rest, lastEnd, memory }

/-- Ends a parse with an error. -/
def fail (e : ParseError) (log : List String) (memory : σ) : Effect σ N := .done ⟨.error e, log, memory⟩

/-- Replaces the body of a production on the stacks by its head. The elements are cut off before they are compared with the body, and the
states after that. -/
def reduce (t : Tables) (semantics : Semantics σ N) (s : Stacks σ N) (id : ProductionId) : Effect σ N :=
  match t.production? id with
  | none => fail (.unknownProduction id) [] s.memory
  | some p =>
    let length := p.body.length
    if s.elements.length < length then
      fail (.stackMismatch id s!"{length} symbols" s!"{s.elements.length} symbols") [] s.memory
    else
      match cutOff? length s.elements with
      | none => .underflow
      | some (elements, body) =>
        match mismatch? t p.body body with
        | some (expected, found) => fail (.stackMismatch id (t.symbolName expected) (t.symbolName found)) [] s.memory
        | none =>
          match cutOff? length s.states with
          | none => .underflow
          | some (states, _) =>
            match semantics id body s.memory with
            | (.error e, memory) => fail e [] memory
            | (.ok node, memory) =>
              match t.goto (top states) p.head with
              | none => fail (.missingGoto (top states) (t.symbolName p.head)) [] memory
              | some target =>
                .next { s with states := states ++ [target], elements := elements ++ [.node p.head node], memory }

/-- One move. -/
def step (t : Tables) (semantics : Semantics σ N) (s : Stacks σ N) : Effect σ N :=
  match t.action (top s.states) s.lookahead.symbol with
  | .shift target =>
    let (lookahead, rest, lastEnd) := nextToken t s.lastEnd s.rest
    .next { s with states := s.states ++ [target], elements := s.elements ++ [.token s.lookahead], lookahead, rest, lastEnd }
  | .reduce id => reduce t semantics s id
  | .accept =>
    match s.elements.getLast? with
    | some (.node _ node) => .done ⟨.ok node, [], s.memory⟩
    | _ => fail (.semantic "input accepted without a parse tree") [] s.memory
  | .error =>
    let e := syntaxError t (top s.states) s.lookahead
    fail e [e.message ++ " (state stack: " ++ " ".intercalate (s.states.map toString) ++ ")"] s.memory

/-- Moves until the parse ends, at most `fuel` times. There is no result if a cut takes more than there is. -/
def run (t : Tables) (semantics : Semantics σ N) : Nat → Stacks σ N → Option (Outcome σ N)
  | 0, s => some ⟨.error .stepLimit, [], s.memory⟩
  | fuel + 1, s =>
    match step t semantics s with
    | .next s => run t semantics fuel s
    | .done outcome => some outcome
    | .underflow => none

/-- **The states of a parse between its moves**, each with the tokens that were shifted before, in order. -/
inductive Reaches (t : Tables) (tokens : List Token) : List Token → Stacks Unit Tree → Prop
  | start : Reaches t tokens [] (Stacks.start t tokens ())
  | shift {shifted : List Token} {s next : Stacks Unit Tree} {target : StateId} : Reaches t tokens shifted s →
      t.action (top s.states) s.lookahead.symbol = .shift target → step t Tree.build s = .next next →
      Reaches t tokens (shifted ++ [s.lookahead]) next
  | reduce {shifted : List Token} {s next : Stacks Unit Tree} {id : ProductionId} : Reaches t tokens shifted s →
      t.action (top s.states) s.lookahead.symbol = .reduce id → step t Tree.build s = .next next → Reaches t tokens shifted next

end Stacks

/-! ## One list of frames -/

/-- The two stacks of some frames. -/
def stacksOf (config : Config σ N) : Stacks σ N :=
  { states := stateStack config.frames
    elements := elements config.frames
    lookahead := config.lookahead
    rest := config.rest
    lastEnd := config.lastEnd
    memory := config.memory }

/-- A move of the engine on two stacks. -/
def Move.effect : Move σ N → Effect σ N
  | .next config => .next (stacksOf config)
  | .done outcome => .done outcome

theorem Move.effect_eq_next {move : Move σ N} {s : Stacks σ N} (h : move.effect = .next s) :
    ∃ config, move = .next config ∧ s = stacksOf config := by
  cases move with
  | next config => exact ⟨config, rfl, (Effect.next.inj h).symm⟩
  | done outcome => cases h

theorem stateStack_cons (frame : Frame N) (frames : List (Frame N)) :
    stateStack (frame :: frames) = stateStack frames ++ [frame.state] := by
  simp [stateStack]

theorem length_stateStack (frames : List (Frame N)) : (stateStack frames).length = (elements frames).length + 1 := by
  simp [stateStack, elements]

/-- The start state is never cut off, so there always is a state on top. -/
theorem top_stateStack (frames : List (Frame N)) : Stacks.top (stateStack frames) = topState frames := by
  cases frames with
  | nil => rfl
  | cons frame frames =>
    rw [stateStack_cons, Stacks.top, List.getLast?_concat]
    rfl

/-- The elements of the frames on top are cut off. -/
theorem cutOff?_elements {n : Nat} {frames : List (Frame N)} (h : n ≤ frames.length) :
    cutOff? n (elements frames) = some (elements (frames.drop n), elements (frames.take n)) := by
  have hlength : (elements (frames.take n)).length = n := by rw [length_elements, List.length_take, Nat.min_eq_left h]
  have hcut := cutOff?_append (elements (frames.drop n)) (elements (frames.take n))
  rwa [hlength, ← elements_split] at hcut

/-- The states of the frames on top are cut off. -/
theorem cutOff?_stateStack {n : Nat} {frames : List (Frame N)} (h : n ≤ frames.length) :
    cutOff? n (stateStack frames) = some (stateStack (frames.drop n), ((frames.take n).map (·.state)).reverse) := by
  have hsplit : stateStack frames = stateStack (frames.drop n) ++ ((frames.take n).map (·.state)).reverse := by
    rw [stateStack, stateStack, List.cons_append, ← List.reverse_append, ← List.map_append, List.take_append_drop]
  have hlength : ((frames.take n).map (·.state)).reverse.length = n := by
    rw [List.length_reverse, List.length_map, List.length_take, Nat.min_eq_left h]
  have hcut := cutOff?_append (stateStack (frames.drop n)) ((frames.take n).map (·.state)).reverse
  rwa [hlength, ← hsplit] at hcut

namespace Stacks

/-- A reduction cuts both stacks where the engine cuts its frames: once the elements are enough, so are the states. -/
theorem reduce_stacksOf (config : Config σ N) (id : ProductionId) :
    reduce t semantics (stacksOf config) id = (Engine.reduce t semantics config id).effect := by
  unfold reduce Engine.reduce
  cases t.production? id with
  | none => rfl
  | some p =>
    simp only [stacksOf, length_elements]
    split
    · rfl
    · rename_i hlength
      have hle : p.body.length ≤ config.frames.length := Nat.le_of_not_lt hlength
      simp only [cutOff?_elements hle, cutOff?_stateStack hle, top_stateStack]
      change _ = Move.effect (match mismatch? t p.body (Engine.elements (config.frames.take p.body.length)) with
        | some (expected, found) => _
        | none => _)
      cases mismatch? t p.body (Engine.elements (config.frames.take p.body.length)) with
      | some wrong => rfl
      | none =>
        change _ = Move.effect (match semantics id (Engine.elements (config.frames.take p.body.length)) config.memory with
          | (.error e, memory) => _
          | (.ok node, memory) => _)
        obtain ⟨result, memory⟩ := semantics id (Engine.elements (config.frames.take p.body.length)) config.memory
        cases result with
        | error e => rfl
        | ok node =>
          dsimp only
          cases t.goto (topState (config.frames.drop p.body.length)) p.head with
          | none => rfl
          | some target => simp only [Move.effect, stacksOf, stateStack_cons, elements_cons]

/-- **The two stacks and the frames go in step**, whatever the tables are. -/
theorem step_stacksOf (config : Config σ N) : step t semantics (stacksOf config) = (Engine.step t semantics config).effect := by
  have htop : top (stacksOf config).states = topState config.frames := top_stateStack config.frames
  unfold step Engine.step
  rw [htop]
  change (match t.action (topState config.frames) config.lookahead.symbol with
    | .shift target => _
    | .reduce id => _
    | .accept => _
    | .error => _) = _
  cases t.action (topState config.frames) config.lookahead.symbol with
  | shift target => simp only [Move.effect, stacksOf, stateStack_cons, elements_cons]
  | reduce id => exact reduce_stacksOf config id
  | accept =>
    dsimp only [stacksOf]
    cases config.frames with
    | nil => rfl
    | cons frame below =>
      rw [elements_cons, List.getLast?_concat]
      cases frame with
      | mk state element => cases element <;> rfl
  | error => rfl

theorem start_eq (tokens : List Token) (memory : σ) : (start t tokens memory : Stacks σ N) = stacksOf (Engine.start t tokens memory) :=
  rfl

/-- A parse on two stacks never cuts off too much, and ends as the engine does. -/
theorem run_stacksOf (fuel : Nat) (config : Config σ N) :
    run t semantics fuel (stacksOf config) = some (Engine.run t semantics fuel config) := by
  induction fuel generalizing config with
  | zero => rfl
  | succ fuel ih =>
    rw [run, Engine.run, step_stacksOf]
    cases Engine.step t semantics config with
    | next config => exact ih config
    | done outcome => rfl

end Stacks

/-! ## What a move keeps -/

/-- Elements that are no mismatch, one for each symbol, are the trees of a body. -/
theorem buildsAll_of_mismatch? : ∀ {symbols : List SymbolId} {body : List (Matched Tree)}, symbols.length = body.length →
    mismatch? t symbols body = none → (∀ element ∈ body, t.Builds element.symbol (Tree.ofMatched element)) →
      t.BuildsAll symbols (body.map Tree.ofMatched)
  | [], [], _, _, _ => .nil
  | expected :: symbols, element :: body, hlength, h, hbuilds => by
    obtain ⟨helement, hbody⟩ := List.forall_mem_cons.mp hbuilds
    rw [mismatch?] at h
    split at h
    · rename_i hfits
      exact .cons (by simpa using hfits) helement (buildsAll_of_mismatch? (Nat.succ.inj hlength) h hbody)
    · cases h

/-- The end of the last token. -/
def endOf (tokens : List Token) : Nat := (tokens.getLast?.map (·.span.stop)).getD 0

/-- The token that the engine reads after the last one. -/
def endToken (t : Tables) (tokens : List Token) : Token := ⟨t.endOfInput, "", .emptyAt (endOf tokens)⟩

/-- Where a parse is in its tokens: the lookahead is one of them, or it is an end token after all of them. -/
def IsAt (t : Tables) (tokens shifted : List Token) (lookahead : Token) (rest : List Token) (lastEnd : Nat) : Prop :=
  shifted ++ lookahead :: rest = tokens ∧ lastEnd = lookahead.span.stop ∨
  rest = [] ∧ lookahead = endToken t tokens ∧ lastEnd = endOf tokens ∧ ∃ n, shifted = tokens ++ List.replicate n (endToken t tokens)

variable {tokens shifted rest : List Token} {lookahead : Token} {lastEnd : Nat}

theorem isAt_start (t : Tables) (tokens : List Token) :
    IsAt t tokens [] (nextToken t 0 tokens).1 (nextToken t 0 tokens).2.1 (nextToken t 0 tokens).2.2 := by
  cases tokens with
  | nil => exact .inr ⟨rfl, rfl, rfl, 0, rfl⟩
  | cons token rest => exact .inl ⟨rfl, rfl⟩

theorem IsAt.shift (h : IsAt t tokens shifted lookahead rest lastEnd) : IsAt t tokens (shifted ++ [lookahead])
    (nextToken t lastEnd rest).1 (nextToken t lastEnd rest).2.1 (nextToken t lastEnd rest).2.2 := by
  rcases h with ⟨rfl, rfl⟩ | ⟨rfl, rfl, rfl, n, rfl⟩
  · cases rest with
    | nil =>
      have hend : endOf (shifted ++ [lookahead]) = lookahead.span.stop := by simp [endOf]
      exact .inr ⟨rfl, by rw [endToken, hend]; rfl, hend.symm, 0, by simp⟩
    | cons token rest => exact .inl ⟨by simp [nextToken], rfl⟩
  · exact .inr ⟨rfl, rfl, rfl, n + 1, by rw [List.append_assoc, List.replicate_succ']⟩

/-- What was shifted, the lookahead and the rest are the tokens with end tokens after them. -/
theorem IsAt.exists_replicate (h : IsAt t tokens shifted lookahead rest lastEnd) :
    ∃ n, shifted ++ lookahead :: rest = tokens ++ List.replicate n (endToken t tokens) := by
  rcases h with ⟨h, -⟩ | ⟨rfl, rfl, -, n, rfl⟩
  · exact ⟨0, by simpa using h⟩
  · exact ⟨n + 1, by rw [List.append_assoc, List.replicate_succ']⟩

/-- **What a move keeps, whatever the tables are**: the leaves on the stack are the tokens that were shifted, and the trees on the
stack are built from the tables. -/
structure Tracks (t : Tables) (tokens shifted : List Token) (config : Config Unit Tree) : Prop where
  leaves : Tree.leavesAll (stackTrees config.frames) = shifted
  builds : ∀ element ∈ elements config.frames, t.Builds element.symbol (Tree.ofMatched element)
  position : IsAt t tokens shifted config.lookahead config.rest config.lastEnd

theorem Tracks.start (t : Tables) (tokens : List Token) : Tracks t tokens [] (Engine.start t tokens ()) :=
  ⟨rfl, List.forall_mem_nil _, isAt_start t tokens⟩

theorem Tracks.shift {config : Config Unit Tree} (h : Tracks t tokens shifted config) (target : StateId) :
    Tracks t tokens (shifted ++ [config.lookahead])
      { config with
        frames := ⟨target, .token config.lookahead⟩ :: config.frames
        lookahead := (nextToken t config.lastEnd config.rest).1
        rest := (nextToken t config.lastEnd config.rest).2.1
        lastEnd := (nextToken t config.lastEnd config.rest).2.2 } := by
  refine ⟨?_, ?_, h.position.shift⟩
  · rw [stackTrees_cons, Tree.leavesAll_append, h.leaves]
    rfl
  · rw [elements_cons]
    exact List.forall_mem_append.mpr ⟨h.builds, List.forall_mem_singleton.mpr .leaf⟩

/-- A reduction builds its node from trees that are on the stack, and leaves the leaves as they are. -/
theorem Tracks.reduce {config next : Config Unit Tree} {id : ProductionId} (h : Tracks t tokens shifted config)
    (hreduce : Engine.reduce t Tree.build config id = .next next) : Tracks t tokens shifted next := by
  cases reducing hreduce with
  | @built p tree memory target hp hle hmismatch htree =>
    cases htree
    have hbuilds := h.builds
    rw [elements_split p.body.length] at hbuilds
    obtain ⟨hbelow, hbody⟩ := List.forall_mem_append.mp hbuilds
    refine ⟨?_, ?_, h.position⟩
    · rw [stackTrees_cons, Tree.leavesAll_append, ← h.leaves, stackTrees_split p.body.length config.frames, Tree.leavesAll_append]
      simp [stackTrees, Tree.ofMatched, Tree.leavesAll, Tree.leaves]
    · rw [elements_cons]
      refine List.forall_mem_append.mpr ⟨hbelow, List.forall_mem_singleton.mpr (.node hp ?_)⟩
      refine buildsAll_of_mismatch? ?_ hmismatch hbody
      rw [length_elements, List.length_take, Nat.min_eq_left hle]

/-! ## Parses -/

namespace Stacks

/-- A state of a parse is that of a configuration of the engine. -/
theorem Reaches.exists_config {s : Stacks Unit Tree} (h : Reaches t tokens shifted s) :
    ∃ config, s = stacksOf config ∧ Tracks t tokens shifted config := by
  induction h with
  | start => exact ⟨_, start_eq tokens (), .start t tokens⟩
  | @shift shifted s next target _ haction hstep ih =>
    obtain ⟨config, rfl, htracks⟩ := ih
    rw [step_stacksOf] at hstep
    obtain ⟨config', hnext, rfl⟩ := Move.effect_eq_next hstep
    have haction' : t.action (topState config.frames) config.lookahead.symbol = .shift target := by
      rwa [← top_stateStack]
    rw [step_shift haction'] at hnext
    exact ⟨config', rfl, Move.next.inj hnext ▸ htracks.shift target⟩
  | @reduce shifted s next id _ haction hstep ih =>
    obtain ⟨config, rfl, htracks⟩ := ih
    rw [step_stacksOf] at hstep
    obtain ⟨config', hnext, rfl⟩ := Move.effect_eq_next hstep
    have haction' : t.action (topState config.frames) config.lookahead.symbol = .reduce id := by
      rwa [← top_stateStack]
    rw [Engine.step, haction'] at hnext
    exact ⟨config', rfl, htracks.reduce hnext⟩

/-- A configuration that the engine gets to is a state of the parse. -/
theorem exists_reaches {config : Config Unit Tree} (h : Steps t Tree.build (Engine.start t tokens ()) config) :
    ∃ shifted, Reaches t tokens shifted (stacksOf config) := by
  induction h with
  | refl => exact ⟨[], .start⟩
  | @tail config next _ hstep ih =>
    obtain ⟨shifted, hreaches⟩ := ih
    have hstep' : step t Tree.build (stacksOf config) = .next (stacksOf next) := by rw [step_stacksOf, hstep, Move.effect]
    have htop : top (stacksOf config).states = topState config.frames := top_stateStack config.frames
    rcases step_next hstep with ⟨target, haction, -⟩ | ⟨id, haction, -⟩
    · exact ⟨_, hreaches.shift (htop ▸ haction) hstep'⟩
    · exact ⟨_, hreaches.reduce (htop ▸ haction) hstep'⟩

/-- **What holds of both stacks** between two moves of a parse. -/
structure Sound (t : Tables) (tokens shifted : List Token) (s : Stacks Unit Tree) : Prop where
  /-- There is one more state than elements. -/
  balanced : s.states.length = s.elements.length + 1
  /-- The next move cuts off no more than there is. -/
  cuts : step t Tree.build s ≠ .underflow
  /-- The leaves on the stack are the tokens that were shifted. -/
  leaves : Tree.leavesAll (s.elements.map Tree.ofMatched) = shifted
  /-- The tokens that were shifted are the first ones of the input, and of the end tokens after it. -/
  input : ∃ n, shifted ++ s.lookahead :: s.rest = tokens ++ List.replicate n (endToken t tokens)
  /-- Every element is built from productions of the tables. -/
  builds : ∀ element ∈ s.elements, t.Builds element.symbol (Tree.ofMatched element)

theorem Reaches.sound {s : Stacks Unit Tree} (h : Reaches t tokens shifted s) : s.Sound t tokens shifted := by
  obtain ⟨config, rfl, htracks⟩ := h.exists_config
  refine ⟨length_stateStack config.frames, ?_, htracks.leaves, htracks.position.exists_replicate, htracks.builds⟩
  rw [step_stacksOf]
  cases Engine.step t Tree.build config with
  | next config => exact fun h => by cases h
  | done outcome => exact fun h => by cases h

/-- The tree on top is built from the tables, and its leaves are the last tokens that were shifted. -/
theorem Sound.top {s : Stacks Unit Tree} {below : List (Matched Tree)} {symbol : SymbolId} {tree : Tree} (h : s.Sound t tokens shifted)
    (helements : s.elements = below ++ [.node symbol tree]) : t.Builds symbol tree ∧ tree.leaves <:+ shifted := by
  have hbuilds := h.builds
  have hleaves := h.leaves
  rw [helements] at hbuilds hleaves
  rw [List.map_append, Tree.leavesAll_append, List.map_singleton, Tree.leavesAll, Tree.leavesAll, List.append_nil] at hleaves
  exact ⟨(List.forall_mem_append.mp hbuilds).2 _ List.mem_cons_self, _, hleaves⟩

end Stacks

/-- **A parse on two stacks, over any tables.** Nothing is asked of the tables. On two stacks a parse ends as that of the engine, since no
cut takes more than there is. Between two moves there is one more state than elements, the leaves on the stack are the tokens shifted
so far, with the end tokens, and every element is built from productions of the tables. So a tree that a parse returns is built from
productions of the tables, and its leaves are the last tokens shifted. -/
theorem parse_on_stacks (t : Tables) (tokens : List Token) :
    (∀ fuel, Stacks.run t Tree.build fuel (Stacks.start t tokens ()) = some (parse t Tree.build fuel tokens ())) ∧
    (∀ shifted s, Stacks.Reaches t tokens shifted s → s.Sound t tokens shifted) ∧
    ∀ fuel tree, (parse t Tree.build fuel tokens ()).result = .ok tree →
      ∃ shifted s symbol, Stacks.Reaches t tokens shifted s ∧
        Stacks.step t Tree.build s = .done (parse t Tree.build fuel tokens ()) ∧ t.Builds symbol tree ∧ tree.leaves <:+ shifted := by
  refine ⟨fun fuel => ?_, fun shifted s h => h.sound, fun fuel tree htree => ?_⟩
  · rw [Stacks.start_eq, Stacks.run_stacksOf, parse]
  · have hne : (parse t Tree.build fuel tokens ()).result ≠ .error .stepLimit := fun h => by
      rw [htree] at h
      cases h
    obtain ⟨last, hsteps, hlast⟩ := exists_last_move hne fuel rfl
    obtain ⟨shifted, hreaches⟩ := Stacks.exists_reaches hsteps
    obtain ⟨-, state, symbol, below, hframes⟩ := step_done hlast htree
    have helements : (stacksOf last).elements = elements below ++ [.node symbol tree] := by
      rw [stacksOf, hframes, elements_cons]
    refine ⟨shifted, stacksOf last, symbol, hreaches, ?_, hreaches.sound.top helements⟩
    rw [Stacks.step_stacksOf, hlast, Move.effect]

/-- Tables of no grammar. They accept with a token left on the stack, and take one symbol in the place of another. -/
def patched : Tables :=
  { action := fun state symbol =>
      match state, symbol with
      | 0, 1 => .shift 1
      | 1, 2 => .shift 2
      | 2, 0 => .reduce 0
      | 3, 0 => .accept
      | _, _ => .error
    goto := fun state symbol => if state = 1 ∧ symbol = 4 then some 3 else none
    production? := fun id => if id = 0 then some ⟨0, 4, [3]⟩ else none
    symbolName := toString
    endOfInput := 0
    standsFor := fun expected actual => expected = 3 && actual = 2 }

/-- A tree that is built from the second of two tokens, and what follows for it. -/
theorem parse_on_stacks_patched :
    let a : Token := ⟨1, "a", ⟨0, 1⟩⟩
    let b : Token := ⟨2, "b", ⟨1, 2⟩⟩
    (parse patched Tree.build 4 [a, b] ()).result = .ok (.node 0 [.leaf b]) ∧
      ∃ shifted s symbol, Stacks.Reaches patched [a, b] shifted s ∧ s.states.length = s.elements.length + 1 ∧
        patched.Builds symbol (.node 0 [.leaf b]) ∧ [b] <:+ shifted := by
  intro a b
  have hparse : (parse patched Tree.build 4 [a, b] ()).result = .ok (.node 0 [.leaf b]) := rfl
  obtain ⟨-, hsound, htree⟩ := parse_on_stacks patched [a, b]
  obtain ⟨shifted, s, symbol, hreaches, -, hbuilds, hleaves⟩ := htree 4 _ hparse
  exact ⟨hparse, shifted, s, symbol, hreaches, (hsound shifted s hreaches).balanced, hbuilds, hleaves⟩

end Engine

end ShaderFront
