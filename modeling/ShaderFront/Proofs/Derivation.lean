import Mathlib
import ShaderFront.Parse.Tree
import ShaderFront.Proofs.First

/-!
# Derivation trees

A tree derives a symbol when every inner node has the body of its production below it, symbol by symbol. Which tokens
may stand at the place of a terminal is a parameter: only tokens of that kind (`Exact`), or also any token that the wildcard
stands in for (`Grammar.Fits`).

* `Grammar.Derives`, `Grammar.DerivesAll`: trees and forests;
* `Grammar.Augmented`, `Grammar.IsRoot`: grammars whose start symbol and end of input stand in no body;
* `Grammar.WellFormed.begins_leaves`: FIRST sets hold what the leaves of a tree begin with.
-/

namespace ShaderFront

/-! ## Trees -/

namespace Tree

mutual

/-- The tokens at the leaves, from left to right. -/
def leaves : Tree → List Token
  | .leaf token => [token]
  | .node _ children => leavesAll children

/-- The tokens at the leaves of some trees. -/
def leavesAll : List Tree → List Token
  | [] => []
  | child :: rest => leaves child ++ leavesAll rest

end

theorem leavesAll_append (as bs : List Tree) : leavesAll (as ++ bs) = leavesAll as ++ leavesAll bs := by
  induction as with
  | nil => rfl
  | cons a as ih => rw [List.cons_append, leavesAll, leavesAll, ih, List.append_assoc]

mutual

/-- Decides whether two trees are equal. -/
def decideEq : (a b : Tree) → Decidable (a = b)
  | .leaf a, .leaf b => decidable_of_iff (a = b) (by simp)
  | .leaf _, .node _ _ => isFalse (by simp)
  | .node _ _, .leaf _ => isFalse (by simp)
  | .node p as, .node q bs =>
    match decideEqAll as bs with
    | isTrue h => decidable_of_iff (p = q) (by simp [h])
    | isFalse h => isFalse (by simp [h])

/-- Decides whether two forests are equal. -/
def decideEqAll : (as bs : List Tree) → Decidable (as = bs)
  | [], [] => isTrue rfl
  | [], _ :: _ => isFalse (by simp)
  | _ :: _, [] => isFalse (by simp)
  | a :: as, b :: bs =>
    match decideEq a b, decideEqAll as bs with
    | isTrue h, isTrue h' => isTrue (by rw [h, h'])
    | isFalse h, _ => isFalse (by simp [h])
    | _, isFalse h => isFalse (by simp [h])

end

instance : DecidableEq Tree := decideEq

end Tree

/-! ## Derivations -/

/-- A token stands for the terminal it is known by. -/
def Exact (symbol : SymbolId) (token : Token) : Prop := token.symbol = symbol

namespace Grammar

/-- A token stands for the terminal it is known by, and for the wildcard unless it is excluded from that. -/
def Fits (g : Grammar) (symbol : SymbolId) (token : Token) : Prop :=
  token.symbol = symbol ∨
    g.wildcard = some symbol ∧ token.symbol ≠ g.endOfInput ∧ ¬ token.symbol ∈ g.exclusions

mutual

/-- The derivation trees of a symbol, where `fits` says which tokens may stand for a terminal. -/
inductive Derives (g : Grammar) (fits : SymbolId → Token → Prop) : SymbolId → Tree → Prop
  | leaf {symbol : SymbolId} {token : Token} :
      g.isTerminal symbol = true → fits symbol token → Derives g fits symbol (.leaf token)
  | node {id : ProductionId} {p : Production} {children : List Tree} :
      g.production? id = some p → DerivesAll g fits p.body children → Derives g fits p.head (.node id children)

/-- The derivation trees of the symbols of a list, one for each. -/
inductive DerivesAll (g : Grammar) (fits : SymbolId → Token → Prop) : List SymbolId → List Tree → Prop
  | nil : DerivesAll g fits [] []
  | cons {symbol : SymbolId} {tree : Tree} {symbols : List SymbolId} {trees : List Tree} :
      Derives g fits symbol tree → DerivesAll g fits symbols trees →
      DerivesAll g fits (symbol :: symbols) (tree :: trees)

end

/-- No body contains the start symbol or the end of the input, and the body of a start production is a single
nonterminal. -/
structure Augmented (g : Grammar) : Prop where
  start_not_mem : ∀ {id : ProductionId} {p : Production}, g.production? id = some p → g.start ∉ p.body
  end_not_mem : ∀ {id : ProductionId} {p : Production}, g.production? id = some p → g.endOfInput ∉ p.body
  start_body : ∀ {id : ProductionId} {p : Production}, g.production? id = some p → p.head = g.start →
    ∃ symbol, p.body = [symbol] ∧ g.isTerminal symbol = false

/-- A symbol is the body of a start production. -/
def IsRoot (g : Grammar) (symbol : SymbolId) : Prop :=
  ∃ id p, g.production? id = some p ∧ p.head = g.start ∧ p.body = [symbol]

variable {g : Grammar} {fits : SymbolId → Token → Prop}

/-- One more tree at the end. -/
theorem DerivesAll.concat {symbols : List SymbolId} {trees : List Tree} {symbol : SymbolId} {tree : Tree}
    (h : g.DerivesAll fits symbols trees) (htree : g.Derives fits symbol tree) :
    g.DerivesAll fits (symbols ++ [symbol]) (trees ++ [tree]) := by
  induction trees generalizing symbols with
  | nil =>
    cases h
    exact .cons htree .nil
  | cons _ trees ih =>
    cases h with
    | cons hfirst htrees => exact .cons hfirst (ih htrees)

mutual

/-- Trees of a finer fit are trees of a coarser one. -/
theorem Derives.mono {fits' : SymbolId → Token → Prop} (hfits : ∀ symbol token, fits symbol token → fits' symbol token) :
    ∀ (tree : Tree) {symbol : SymbolId}, g.Derives fits symbol tree → g.Derives fits' symbol tree
  | .leaf _, _, .leaf hterminal hfit => .leaf hterminal (hfits _ _ hfit)
  | .node _ children, _, .node hp hchildren => .node hp (DerivesAll.mono hfits children hchildren)

theorem DerivesAll.mono {fits' : SymbolId → Token → Prop}
    (hfits : ∀ symbol token, fits symbol token → fits' symbol token) : ∀ (trees : List Tree) {symbols : List SymbolId},
      g.DerivesAll fits symbols trees → g.DerivesAll fits' symbols trees
  | [], _, .nil => .nil
  | tree :: trees, _, .cons htree htrees => .cons (Derives.mono hfits tree htree) (DerivesAll.mono hfits trees htrees)

end

/-- Without a wildcard, a token stands for its own terminal only. -/
theorem Derives.exact_of_wildcard (h : g.wildcard = none) {symbol : SymbolId} {tree : Tree}
    (htree : g.Derives g.Fits symbol tree) : g.Derives Exact symbol tree := by
  refine Derives.mono (fun symbol token hfit => ?_) tree htree
  rcases hfit with hfit | ⟨hwildcard, -⟩
  · exact hfit
  · rw [h] at hwildcard
    cases hwildcard

/-! ## What a tree begins with -/

/-- The kind of the first token, if there is one. -/
def leading (default : SymbolId) : List Token → SymbolId
  | [] => default
  | token :: _ => token.symbol

theorem leading_append (default : SymbolId) (as bs : List Token) :
    leading default (as ++ bs) = leading (leading default bs) as := by
  cases as <;> rfl

mutual

/-- The empty symbol is never at a leaf. -/
theorem WellFormed.leaves_ne_empty (wf : g.WellFormed) : ∀ (tree : Tree) {symbol : SymbolId},
    g.Derives Exact symbol tree → symbol ≠ g.empty → ∀ token ∈ tree.leaves, token.symbol ≠ g.empty
  | .leaf token, symbol, .leaf _ hfit, hne => by
    intro token' htoken
    rw [Tree.leaves, List.mem_singleton] at htoken
    rw [htoken, hfit]
    exact hne
  | .node _ children, _, .node hp hchildren, _ => by
    rw [Tree.leaves]
    exact WellFormed.leavesAll_ne_empty wf children hchildren (wf.body hp · · |>.2)

theorem WellFormed.leavesAll_ne_empty (wf : g.WellFormed) : ∀ (trees : List Tree) {symbols : List SymbolId},
    g.DerivesAll Exact symbols trees → (∀ symbol ∈ symbols, symbol ≠ g.empty) →
    ∀ token ∈ Tree.leavesAll trees, token.symbol ≠ g.empty
  | [], _, .nil, _ => fun _ htoken => absurd htoken List.not_mem_nil
  | tree :: trees, symbol :: symbols, .cons htree htrees, hne => by
    intro token htoken
    rw [Tree.leavesAll] at htoken
    rcases List.mem_append.mp htoken with htoken | htoken
    · exact WellFormed.leaves_ne_empty wf tree htree (hne symbol List.mem_cons_self) token htoken
    · exact WellFormed.leavesAll_ne_empty wf trees htrees (fun x hx => hne x (List.mem_cons_of_mem symbol hx)) token htoken

end

mutual

/-- **A symbol begins with what the leaves of its trees begin with**, or with nothing if there are none. -/
theorem WellFormed.begins_leaves (wf : g.WellFormed) : ∀ (tree : Tree) {symbol : SymbolId},
    g.Derives Exact symbol tree → Begins g.firstSets symbol (leading g.empty tree.leaves)
  | .leaf token, symbol, .leaf hterminal hfit => by
    rw [Tree.leaves, leading, hfit]
    exact wf.firstSets_terminal hterminal
  | .node _ children, _, .node hp hchildren => by
    rw [Tree.leaves]
    exact wf.begins_head hp (WellFormed.mem_first_leavesAll wf children hchildren (wf.body hp · · |>.2))

theorem WellFormed.mem_first_leavesAll (wf : g.WellFormed) : ∀ (trees : List Tree) {symbols : List SymbolId},
    g.DerivesAll Exact symbols trees → (∀ symbol ∈ symbols, symbol ≠ g.empty) →
    leading g.empty (Tree.leavesAll trees) ∈ g.first symbols
  | [], _, .nil, _ => empty_mem_first_nil
  | tree :: trees, symbol :: symbols, .cons htree htrees, hne => by
    have hfirst := mem_first_singleton (WellFormed.begins_leaves wf tree htree)
    have hrest := WellFormed.mem_first_leavesAll wf trees htrees fun x hx => hne x (List.mem_cons_of_mem symbol hx)
    have hleaves := wf.leaves_ne_empty tree htree (hne symbol List.mem_cons_self)
    rw [Tree.leavesAll]
    refine (mem_first_append [symbol] symbols).mpr ?_
    cases hcase : tree.leaves with
    | nil =>
      rw [hcase] at hfirst
      exact Or.inr ⟨hfirst, hrest⟩
    | cons token _ =>
      rw [hcase] at hfirst hleaves
      exact Or.inl ⟨hfirst, hleaves token List.mem_cons_self⟩

end

/-- What stands in front of a terminal begins with its own leaves or with the terminal. -/
theorem WellFormed.mem_first_ahead (wf : g.WellFormed) {symbols : List SymbolId} {trees : List Tree}
    (h : g.DerivesAll Exact symbols trees) (hsymbols : ∀ symbol ∈ symbols, symbol ≠ g.empty) {a : SymbolId}
    (ha : g.isTerminal a = true) (hne : a ≠ g.empty) :
    leading a (Tree.leavesAll trees) ∈ g.first (symbols ++ [a]) ∧ leading a (Tree.leavesAll trees) ≠ g.empty := by
  have hfirst := wf.mem_first_leavesAll trees h hsymbols
  have hleaves := wf.leavesAll_ne_empty trees h hsymbols
  rw [mem_first_append]
  cases hcase : Tree.leavesAll trees with
  | nil =>
    rw [hcase] at hfirst
    exact ⟨Or.inr ⟨hfirst, mem_first_singleton (wf.firstSets_terminal ha)⟩, hne⟩
  | cons token _ =>
    rw [hcase] at hfirst hleaves
    have htoken := hleaves token List.mem_cons_self
    exact ⟨Or.inl ⟨hfirst, htoken⟩, htoken⟩

/-! ## The sample grammar -/

theorem augmented_of_forall (h : ∀ p ∈ g.productions.toList, g.start ∉ p.body ∧ g.endOfInput ∉ p.body ∧
    (p.head = g.start → p.body.length = 1 ∧ ∀ symbol ∈ p.body, g.isTerminal symbol = false)) : g.Augmented := by
  have hmem : ∀ {id : ProductionId} {p : Production}, g.production? id = some p → p ∈ g.productions.toList :=
    fun hp => Array.mem_toList_iff.mpr (Array.mem_of_getElem? hp)
  refine ⟨fun hp => (h _ (hmem hp)).1, fun hp => (h _ (hmem hp)).2.1, fun hp hhead => ?_⟩
  obtain ⟨hlength, hterminal⟩ := (h _ (hmem hp)).2.2 hhead
  obtain ⟨symbol, hbody⟩ := List.length_eq_one_iff.mp hlength
  exact ⟨symbol, hbody, hterminal symbol (by simp [hbody])⟩

theorem augmented_parentheses : parentheses.Augmented := augmented_of_forall (by decide +kernel)

/-- The tokens of a pair of parentheses. -/
def sampleTokens : List Token := [⟨1, "(", ⟨0, 1⟩⟩, ⟨2, ")", ⟨1, 2⟩⟩]

/-- The tree of a pair of parentheses. -/
def sampleTree : Tree := .node 1 [.leaf ⟨1, "(", ⟨0, 1⟩⟩, .node 2 [], .leaf ⟨2, ")", ⟨1, 2⟩⟩]

end Grammar

end ShaderFront
