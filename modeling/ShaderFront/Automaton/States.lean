import ShaderFront.Automaton.Closure

/-!
# Collections of states

The states of an LR automaton are item sets, and a transition leads over the symbol after a dot. There are three ways to
make the collection:

* `Grammar.canonicalItemSets`: every item set that is reached is a state of its own, the exact LR(1) collection;
* `Grammar.mergeItemSets`: the states of a collection with equal kernels become one;
* `Grammar.unionedItemSets`: states with equal kernels are one from the start, and a state that gains lookaheads is
  explored again.

States are numbered in the order in which they are found. The loops carry a bound on their steps: there are no
more states than sets of items, and a state can grow no more often than there are items.
-/

namespace ShaderFront

/-- The states of an automaton and, for each of them, its transitions. -/
structure Collection where
  states : Array ItemSet := #[]
  transitions : Array (OrderedMap SymbolId StateId) := #[]
deriving Inhabited

namespace Collection

/-- Adds a state without transitions. Its number is the number of states before. -/
def addState (c : Collection) (set : ItemSet) : Collection :=
  { states := c.states.push set, transitions := c.transitions.push ∅ }

/-- Sets a transition. -/
def addTransition (c : Collection) (source : StateId) (symbol : SymbolId) (target : StateId) : Collection :=
  { c with transitions := c.transitions.modify source (·.insert symbol target) }

/-- The items of a state. -/
def itemsAt (c : Collection) (state : StateId) : ItemSet := c.states.getD state ∅

/-- The transitions of a state. -/
def transitionsAt (c : Collection) (state : StateId) : OrderedMap SymbolId StateId := c.transitions.getD state ∅

end Collection

/-- How the collection of states is made. -/
inductive Construction where
  | canonical
  | merged
  | unioned
deriving DecidableEq, Repr, Inhabited

namespace Grammar

/-- The number of items: productions with a dot and a lookahead. -/
def itemCount (g : Grammar) : Nat :=
  (g.productions.foldl (fun n p => n + (p.body.length + 1)) 0) * g.symbols.length

/-- A bound on how often states are explored. -/
def explorationBound (g : Grammar) : Nat := Nat.pow 4 (g.itemCount + 1)

/-! ## The canonical collection -/

/-- Follows one symbol out of a state. -/
def followCanonical (g : Grammar) (source : StateId) (set : ItemSet) (c : Collection) (symbol : SymbolId) :
    Collection :=
  let target := g.gotoNext set symbol
  if target.isEmpty then c
  else
    match c.states.findIdx? (· = target) with
    | some id => c.addTransition source symbol id
    | none => (c.addState target).addTransition source symbol c.states.size

/-- Explores the states from `current` on, in order, at most `fuel` of them. -/
def exploreCanonical (g : Grammar) : Nat → StateId → Collection → Collection
  | 0, _, c => c
  | fuel + 1, current, c =>
    match c.states[current]? with
    | none => c
    | some set =>
      exploreCanonical g fuel (current + 1)
        ((g.nextSymbols set).toList.foldl (g.followCanonical current set) c)

/-- The exact LR(1) collection. -/
def canonicalItemSets (g : Grammar) : Collection :=
  g.exploreCanonical g.explorationBound 0 (Collection.addState {} g.initialItemSet)

/-! ## Merging as states are found -/

/-- The collection so far, with the kernel of each state and the states still to be explored, next one first. -/
structure Exploration where
  collection : Collection
  kernels : Array Kernel
  queue : List StateId

/-- Follows one symbol out of a state, into the state with the same kernel if there is one. A state that gains items is
queued again. -/
def followUnioned (g : Grammar) (source : StateId) (set : ItemSet) (e : Exploration) (symbol : SymbolId) :
    Exploration :=
  let target := g.gotoNext set symbol
  if target.isEmpty then e
  else
    let kernel := g.kernel target
    match e.kernels.findIdx? (· = kernel) with
    | some id =>
      let existing := e.collection.itemsAt id
      let joined := existing ∪ target
      if joined = existing then { e with collection := e.collection.addTransition source symbol id }
      else
        let grown := { e.collection with states := e.collection.states.setIfInBounds id joined }
        { e with
          collection := grown.addTransition source symbol id
          queue := if id ∈ e.queue then e.queue else e.queue ++ [id] }
    | none =>
      let id := e.collection.states.size
      { collection := (e.collection.addState target).addTransition source symbol id
        kernels := e.kernels.push kernel
        queue := e.queue ++ [id] }

/-- Explores queued states until there are none, at most `fuel` of them. -/
def exploreUnioned (g : Grammar) : Nat → Exploration → Collection
  | 0, e => e.collection
  | fuel + 1, e =>
    match e.queue with
    | [] => e.collection
    | current :: queue =>
      let set := e.collection.itemsAt current
      exploreUnioned g fuel ((g.nextSymbols set).toList.foldl (g.followUnioned current set) { e with queue })

/-- The collection in which states with equal kernels are one from the start. -/
def unionedItemSets (g : Grammar) : Collection :=
  let init := g.initialItemSet
  g.exploreUnioned g.explorationBound
    { collection := Collection.addState {} init, kernels := #[g.kernel init], queue := [0] }

/-! ## Merging afterwards -/

/-- The merged states so far, with their kernels, and the new number of every state looked at. -/
structure Merging where
  states : Array ItemSet := #[]
  kernels : Array Kernel := #[]
  renumbering : Array StateId := #[]

/-- Adds a state to the one with the same kernel, or as a new one. -/
def mergeState (g : Grammar) (m : Merging) (set : ItemSet) : Merging :=
  let kernel := g.kernel set
  match m.kernels.findIdx? (· = kernel) with
  | some id => { m with states := m.states.modify id (· ∪ set), renumbering := m.renumbering.push id }
  | none =>
    { states := m.states.push set, kernels := m.kernels.push kernel
      renumbering := m.renumbering.push m.states.size }

/-- Carries the transitions of one state over to the merged states. -/
def mergeTransitions (renumbering : Array StateId) (c : Collection) (state : StateId)
    (transitions : OrderedMap SymbolId StateId) : Collection :=
  transitions.toList.foldl
    (fun c (symbol, target) =>
      c.addTransition (renumbering.getD state 0) symbol (renumbering.getD target 0)) c

/-- Merges the states of a collection that have equal kernels. -/
def mergeItemSets (g : Grammar) (c : Collection) : Collection :=
  let m := c.states.foldl g.mergeState {}
  let merged : Collection := { states := m.states, transitions := Array.replicate m.states.size ∅ }
  c.transitions.toList.zipIdx.foldl
    (fun merged (transitions, state) => mergeTransitions m.renumbering merged state transitions) merged

/-- The collection of states of a construction. -/
def itemSets (g : Grammar) : Construction → Collection
  | .canonical => g.canonicalItemSets
  | .merged => g.mergeItemSets g.canonicalItemSets
  | .unioned => g.unionedItemSets

end Grammar

end ShaderFront
