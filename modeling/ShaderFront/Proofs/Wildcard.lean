import Mathlib
import ShaderFront.Proofs.Viable

/-!
# The wildcard under merging

A state asks the wildcard only about tokens it has no action for. Merging states adds actions to rows, so a token that the
wildcard takes in a canonical state can have an action of its own in the merged one, borrowed from another context: the two
tables can differ (`Grammar.wildcard_shadowed`). They agree on tokens that the wildcard does not stand in for
(`Grammar.tables_agree_on_tame_tokens`).
-/

namespace ShaderFront

namespace Engine

variable {σ N : Type} {t : Tables} {semantics : Semantics σ N}

/-- A run that ends does not end otherwise with more moves. -/
theorem run_of_le {outcome : Outcome σ N} (hne : outcome.result ≠ .error .stepLimit) :
    ∀ {n m : Nat} {config : Config σ N}, n ≤ m → run t semantics n config = outcome → run t semantics m config = outcome
  | 0, _, _, _, h => absurd (congrArg Outcome.result h).symm hne
  | n + 1, 0, _, hle, _ => absurd hle (Nat.not_succ_le_zero n)
  | n + 1, m + 1, config, hle, h => by
    rw [run] at h ⊢
    split at h
    · exact run_of_le hne (Nat.le_of_succ_le_succ hle) h
    · exact h

end Engine

namespace Grammar

open Engine

variable {g : Grammar}

/-- The wildcard does not stand in for a token: it is excluded from that, or it is the wildcard itself. -/
def Tame (g : Grammar) (token : Token) : Prop := g.wildcard = some token.symbol ∨ token.symbol ∈ g.exclusions

mutual

/-- Trees with tame leaves need no wildcard in the place of another token. -/
theorem Derives.exact_of_tame : ∀ (tree : Tree) {symbol : SymbolId}, g.Derives g.Fits symbol tree →
    (∀ token ∈ tree.leaves, g.Tame token) → g.Derives Exact symbol tree
  | .leaf token, symbol, .leaf hterminal hfits, htame => by
    refine .leaf hterminal (hfits.elim id fun ⟨hwildcard, _, hexcluded⟩ => ?_)
    rcases htame token (by simp [Tree.leaves]) with hsame | hmem
    · exact Option.some.inj (hsame.symm.trans hwildcard)
    · exact absurd hmem hexcluded
  | .node _ children, _, .node hp hchildren, htame => by
    rw [Tree.leaves] at htame
    exact .node hp (DerivesAll.exact_of_tame children hchildren htame)

theorem DerivesAll.exact_of_tame : ∀ (trees : List Tree) {symbols : List SymbolId}, g.DerivesAll g.Fits symbols trees →
    (∀ token ∈ Tree.leavesAll trees, g.Tame token) → g.DerivesAll Exact symbols trees
  | [], _, .nil, _ => .nil
  | tree :: trees, _, .cons htree htrees, htame => by
    rw [Tree.leavesAll, List.forall_mem_append] at htame
    exact .cons (Derives.exact_of_tame tree htree htame.1) (DerivesAll.exact_of_tame trees htrees htame.2)

end

/-- Requests for a grammar with `a` in two contexts. After `p`, it is an `A` before `x` and a `B` before `y`; after `q`, it
is an `A` before `z` and a `B` before any token. -/
def contextRequests : List Builder.Request :=
  [.terminal "a" 1 .common, .terminal "x" 2 .common, .terminal "y" 3 .common, .terminal "z" 4 .common,
    .terminal "any" 5 .wildcard, .terminal "p" 6 .common, .terminal "q" 7 .common, .symbols "$START$" ["S"],
    .symbols "S" ["p", "A", "x"], .symbols "S" ["p", "B", "y"], .symbols "S" ["q", "A", "z"],
    .symbols "S" ["q", "B", "any"], .symbols "A" ["a"], .symbols "B" ["a"]]

/-- A tree of tame tokens that one table gives is given by every table without conflicts. -/
theorem WellFormed.parse_transfer_tame (wf : g.WellFormed) (haug : g.Augmented) (source target : Construction)
    (htarget : (g.table target).conflicts = []) {tokens : List Token}
    (htokens : ∀ token ∈ tokens, token.symbol ≠ g.endOfInput) (htame : ∀ token ∈ tokens, g.Tame token) {fuel : Nat}
    {tree : Tree} (h : (Engine.parse (g.table source).tables Tree.build fuel tokens ()).result = .ok tree) :
    ∃ fuel', (Engine.parse (g.table target).tables Tree.build fuel' tokens ()).result = .ok tree := by
  obtain ⟨symbol, hroot, htree, hleaves⟩ := wf.parse_sound haug source htokens h
  have hconflictless : g.Conflictless (g.itemSets target) := ⟨wf, haug, wf.automaton target, htarget⟩
  obtain ⟨n, hn⟩ := hconflictless.parse_complete hroot (htree.exact_of_tame _ (hleaves ▸ htame))
  rw [hleaves] at hn
  exact ⟨n, hn n le_rfl⟩

/-- **Tables agree where the wildcard is not asked**: for every grammar a builder gives and any two constructions without
conflicts, the engine returns the same trees on every list of tokens that the wildcard does not stand in for. -/
theorem tables_agree_on_tame_tokens {requests : List Builder.Request} {g : Grammar}
    (hbuild : (Builder.after requests).build = .ok g) (haug : g.Augmented) {canonical unioned : Table}
    (hcanonical : g.parserTable .canonical = .ok canonical) (hunioned : g.parserTable .unioned = .ok unioned)
    {tokens : List Token} (htokens : ∀ token ∈ tokens, token.symbol ≠ g.endOfInput)
    (htame : ∀ token ∈ tokens, g.Tame token) (tree : Tree) :
    (∃ fuel, (Engine.parse canonical.tables Tree.build fuel tokens ()).result = .ok tree) ↔
      ∃ fuel, (Engine.parse unioned.tables Tree.build fuel tokens ()).result = .ok tree := by
  have wf := wellFormed_of_build hbuild
  obtain ⟨hcanonicalFree, rfl⟩ := parserTable_eq_ok.mp hcanonical
  obtain ⟨hunionedFree, rfl⟩ := parserTable_eq_ok.mp hunioned
  refine ⟨fun ⟨fuel, hparse⟩ => ?_, fun ⟨fuel, hparse⟩ => ?_⟩
  · exact wf.parse_transfer_tame haug .canonical .unioned hunionedFree htokens htame hparse
  · exact wf.parse_transfer_tame haug .unioned .canonical hcanonicalFree htokens htame hparse

/-- The same requests, and the wildcard is not to stand in for `p`, `a` and `x`. -/
def excludingRequests : List Builder.Request := contextRequests ++ [.exclude "p", .exclude "a", .exclude "x"]

/-- The tokens `p a x`. -/
def acceptedTokens : List Token := [⟨6, "p", ⟨0, 1⟩⟩, ⟨1, "a", ⟨1, 2⟩⟩, ⟨2, "x", ⟨2, 3⟩⟩]

/-- The tree of `p a x`. -/
def acceptedTree : Tree := .node 1 [.leaf ⟨6, "p", ⟨0, 1⟩⟩, .node 5 [.leaf ⟨1, "a", ⟨1, 2⟩⟩], .leaf ⟨2, "x", ⟨2, 3⟩⟩]

/-- With `p`, `a` and `x` excluded, the tables agree on `p a x`, and both give its tree. -/
theorem tables_agree_on_tame_tokens_excluded :
    ∃ g canonical unioned, (Builder.after excludingRequests).build = .ok g ∧
      g.parserTable .canonical = .ok canonical ∧ g.parserTable .unioned = .ok unioned ∧
      ((∃ fuel, (Engine.parse canonical.tables Tree.build fuel acceptedTokens ()).result = .ok acceptedTree) ↔
        ∃ fuel, (Engine.parse unioned.tables Tree.build fuel acceptedTokens ()).result = .ok acceptedTree) ∧
      ∃ fuel, (Engine.parse unioned.tables Tree.build fuel acceptedTokens ()).result = .ok acceptedTree := by
  have hbuild := Builder.build_of_isOk (b := Builder.after excludingRequests) (by decide +kernel)
  have haug := augmented_of_forall (g := (Builder.after excludingRequests).freeze) (by decide +kernel)
  have hconflicts : ((Builder.after excludingRequests).freeze.table .canonical).conflicts = [] := by decide +kernel
  -- one evaluation of the table for both
  obtain ⟨hconflicts', hparse⟩ : ((Builder.after excludingRequests).freeze.table .unioned).conflicts = [] ∧
      (Engine.parse ((Builder.after excludingRequests).freeze.table .unioned).tables Tree.build 20 acceptedTokens ()).result =
        .ok acceptedTree := by decide +kernel
  have hcanonical := parserTable_eq_ok.mpr ⟨hconflicts, rfl⟩
  have hunioned := parserTable_eq_ok.mpr ⟨hconflicts', rfl⟩
  refine ⟨_, _, _, hbuild, hcanonical, hunioned, ?_, 20, hparse⟩
  exact tables_agree_on_tame_tokens hbuild haug hcanonical hunioned (by decide +kernel)
    (fun token hmem => .inr (by revert token; decide +kernel)) acceptedTree

/-- The tokens `q a x`. -/
def contextTokens : List Token := [⟨7, "q", ⟨0, 1⟩⟩, ⟨1, "a", ⟨1, 2⟩⟩, ⟨2, "x", ⟨2, 3⟩⟩]

/-- **Merging can shadow the wildcard.** Both tables of a grammar have no conflicts, and only the canonical one accepts: after
`q a` it takes `x` for any token, where the merged state reduces to `A`, as it would after `p a`. -/
theorem wildcard_shadowed :
    ∃ g canonical unioned, (Builder.after contextRequests).build = .ok g ∧ g.Augmented ∧ g.wildcard = some 5 ∧
      g.parserTable .canonical = .ok canonical ∧ g.parserTable .unioned = .ok unioned ∧
      (∀ token ∈ contextTokens, token.symbol ≠ g.endOfInput) ∧
      (∃ fuel tree, (Engine.parse canonical.tables Tree.build fuel contextTokens ()).result = .ok tree) ∧
      ∀ fuel tree, (Engine.parse unioned.tables Tree.build fuel contextTokens ()).result ≠ .ok tree := by
  -- one evaluation of each table for both of what is asked of it
  obtain ⟨hcanonical, hparse⟩ : ((Builder.after contextRequests).freeze.table .canonical).conflicts = [] ∧
      (Engine.parse ((Builder.after contextRequests).freeze.table .canonical).tables Tree.build 20 contextTokens ()).result =
        .ok (.node 4 [.leaf ⟨7, "q", ⟨0, 1⟩⟩, .node 6 [.leaf ⟨1, "a", ⟨1, 2⟩⟩], .leaf ⟨2, "x", ⟨2, 3⟩⟩]) := by decide +kernel
  obtain ⟨hunioned, hfail⟩ : ((Builder.after contextRequests).freeze.table .unioned).conflicts = [] ∧
      (Engine.parse ((Builder.after contextRequests).freeze.table .unioned).tables Tree.build 20 contextTokens ()).result =
        .error (.unexpectedToken "x" ["z"] ⟨2, 3⟩) := by decide +kernel
  refine ⟨_, _, _, Builder.build_of_isOk (by decide +kernel), augmented_of_forall (by decide +kernel), by decide +kernel,
    parserTable_eq_ok.mpr ⟨hcanonical, rfl⟩, parserTable_eq_ok.mpr ⟨hunioned, rfl⟩, by decide +kernel, ⟨20, _, hparse⟩, ?_⟩
  intro fuel tree hok
  -- with moves enough for both, the parse would succeed and fail
  have hmore := run_of_le (by rw [← Engine.parse, hok]; simp) (le_max_left fuel 20) rfl
  have hless := run_of_le (by rw [← Engine.parse, hfail]; simp) (le_max_right fuel 20) rfl
  have hboth := congrArg Outcome.result (hmore.symm.trans hless)
  exact absurd (hok.symm.trans (hboth.trans hfail)) (by simp)

end Grammar

end ShaderFront
