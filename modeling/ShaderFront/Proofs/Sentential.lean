import Mathlib
import ShaderFront.Proofs.Vanishing

/-!
# Sentential forms

A sentential form is a list of symbols. One of its symbols is replaced by the body of a production (`Grammar.Rewrites`), and what
comes out of any number of such steps is derived from it. `Grammar.Vanishes` and `Grammar.Starts` follow the structure of a
sequence instead; here both are shown to be what rewriting gives (`Grammar.vanishes_iff_rewrites`,
`Grammar.starts_iff_rewrites`).

FIRST sets are exact therefore, and the rounds that compute them end by themselves (`Grammar.first_exact`).
-/

namespace ShaderFront

namespace Grammar

open Relation (ReflTransGen)

variable {g : Grammar}

/-! ## Rewriting -/

/-- One symbol of a sentential form is replaced by the body of a production. -/
inductive Rewrites (g : Grammar) : List SymbolId → List SymbolId → Prop
  | step {id : ProductionId} {p : Production} (front back : List SymbolId) : g.production? id = some p →
      Rewrites g (front ++ p.head :: back) (front ++ (p.body ++ back))

/-- A sentential form is derived from another one. -/
def Rewritten (g : Grammar) : List SymbolId → List SymbolId → Prop := ReflTransGen g.Rewrites

theorem Rewrites.append {l l' : List SymbolId} (h : g.Rewrites l l') (front back : List SymbolId) :
    g.Rewrites (front ++ l ++ back) (front ++ l' ++ back) := by
  obtain ⟨left, right, hp⟩ := h
  simpa [List.append_assoc] using Rewrites.step (front ++ left) (right ++ back) hp

theorem Rewritten.append {l l' : List SymbolId} (h : g.Rewritten l l') (front back : List SymbolId) :
    g.Rewritten (front ++ l ++ back) (front ++ l' ++ back) := by
  induction h with
  | refl => exact .refl
  | tail _ hstep ih => exact .tail ih (hstep.append front back)

theorem Rewritten.body {id : ProductionId} {p : Production} (hp : g.production? id = some p) (rest : List SymbolId) :
    g.Rewritten (p.head :: rest) (p.body ++ rest) :=
  .single (.step [] rest hp)

/-! ## Vanishing is rewriting to nothing -/

theorem Vanishes.rewritten {allowed : SymbolId → Prop} {l : List SymbolId} (h : g.Vanishes allowed l) : g.Rewritten l [] := by
  induction h with
  | nil => exact .refl
  | @cons id p rest hp _ _ _ ihbody ihrest =>
    have hrest : g.Rewritten (p.body ++ rest) rest := by simpa using Rewritten.append ihbody [] rest
    exact ((Rewritten.body hp rest).trans hrest).trans ihrest

theorem Vanishes.split {allowed : SymbolId → Prop} : ∀ {l r : List SymbolId}, g.Vanishes allowed (l ++ r) →
    g.Vanishes allowed l ∧ g.Vanishes allowed r
  | [], _, h => ⟨.nil, h⟩
  | _ :: _, _, .cons hp hallowed hbody hrest =>
    have ⟨hl, hr⟩ := Vanishes.split hrest
    ⟨.cons hp hallowed hbody hl, hr⟩

/-- What vanishes after a step vanished before it. -/
theorem Rewrites.vanishes {l l' : List SymbolId} (h : g.Rewrites l l') (hvanishes : g.Vanishes (fun _ => True) l') :
    g.Vanishes (fun _ => True) l := by
  obtain ⟨front, back, hp⟩ := h
  obtain ⟨hfront, hrest⟩ := hvanishes.split
  obtain ⟨hbody, hback⟩ := hrest.split
  exact hfront.append (.cons hp trivial hbody hback)

/-- **A sequence vanishes iff the empty string is derived from it.** -/
theorem vanishes_iff_rewrites {l : List SymbolId} : g.Vanishes (fun _ => True) l ↔ g.Rewritten l [] := by
  refine ⟨Vanishes.rewritten, fun h => ?_⟩
  induction h using ReflTransGen.head_induction_on with
  | refl => exact .nil
  | head hstep _ ih => exact hstep.vanishes ih

/-! ## Starting with a terminal is rewriting to a form that begins with it -/

theorem Starts.isTerminal {a : SymbolId} {l : List SymbolId} (h : g.Starts a l) : g.isTerminal a = true := by
  induction h with
  | here ha => exact ha
  | skip _ _ ih => exact ih
  | into _ _ ih => exact ih

theorem Starts.rewritten {a : SymbolId} {l : List SymbolId} (h : g.Starts a l) : ∃ rest, g.Rewritten l (a :: rest) := by
  induction h with
  | @here rest _ => exact ⟨rest, .refl⟩
  | @skip symbol rest hvanishes _ ih =>
    obtain ⟨more, hmore⟩ := ih
    have hrest : g.Rewritten (symbol :: rest) rest := by simpa using Rewritten.append hvanishes.rewritten [] rest
    exact ⟨more, hrest.trans hmore⟩
  | @into id p rest hp _ ih =>
    obtain ⟨more, hmore⟩ := ih
    have hbody : g.Rewritten (p.body ++ rest) (a :: more ++ rest) := by simpa using Rewritten.append hmore [] rest
    exact ⟨more ++ rest, (Rewritten.body hp rest).trans hbody⟩

/-- Two sequences in a row start with what the first one starts with, or the first one vanishes. -/
theorem Starts.split {a : SymbolId} : ∀ {l r : List SymbolId}, g.Starts a (l ++ r) →
    g.Starts a l ∨ g.Vanishes (fun _ => True) l ∧ g.Starts a r
  | [], _, h => .inr ⟨.nil, h⟩
  | _ :: _, _, .here ha => .inl (.here ha)
  | _ :: _, _, .into hp hbody => .inl (.into hp hbody)
  | _ :: _, _, .skip hvanishes hrest =>
    match Starts.split hrest with
    | .inl hl => .inl (.skip hvanishes hl)
    | .inr ⟨hl, hr⟩ => .inr ⟨hvanishes.append hl, hr⟩

theorem Starts.append_left {a : SymbolId} {l r : List SymbolId} (hl : g.Vanishes (fun _ => True) l) (hr : g.Starts a r) :
    g.Starts a (l ++ r) := by
  induction hl with
  | nil => exact hr
  | cons hp _ hbody _ _ ih => exact .skip (.cons hp trivial hbody .nil) ih

/-- What a form starts with after a step, it started with before it. -/
theorem Rewrites.starts {l l' : List SymbolId} (h : g.Rewrites l l') {a : SymbolId} (hstarts : g.Starts a l') : g.Starts a l := by
  obtain @⟨id, p, front, back, hp⟩ := h
  rcases hstarts.split with hfront | ⟨hfront, hrest⟩
  · exact hfront.append _
  · refine .append_left hfront ?_
    rcases hrest.split with hbody | ⟨hbody, hback⟩
    · exact .into hp hbody
    · exact .skip (.cons hp trivial hbody .nil) hback

/-- **A sequence starts with a terminal iff a form that begins with the terminal is derived from it.** -/
theorem starts_iff_rewrites {a : SymbolId} {l : List SymbolId} :
    g.Starts a l ↔ g.isTerminal a = true ∧ ∃ rest, g.Rewritten l (a :: rest) := by
  constructor
  · intro h
    exact ⟨h.isTerminal, h.rewritten⟩
  · rintro ⟨ha, rest, h⟩
    induction h using ReflTransGen.head_induction_on with
    | refl => exact .here ha
    | head hstep _ ih => exact hstep.starts ih

/-! ## Rounds -/

/-- The rounds are a loop that ends with the first one that changes nothing, or when no more are allowed. -/
theorem exists_iterate_firstRounds (empty : SymbolId) (productions : Array Production) :
    ∀ (fuel : Nat) (first : Array (OrderedSet SymbolId)),
    ∃ n ≤ fuel, firstRounds empty productions fuel first = (firstRound empty productions)^[n] first ∧
      ∀ m < n, (firstRound empty productions)^[m + 1] first ≠ (firstRound empty productions)^[m] first
  | 0, first => ⟨0, le_rfl, rfl, fun _ hm => absurd hm (Nat.not_lt_zero _)⟩
  | fuel + 1, first => by
    rw [firstRounds]
    split
    · exact ⟨0, Nat.zero_le _, rfl, fun _ hm => absurd hm (Nat.not_lt_zero _)⟩
    · rename_i hchanged
      obtain ⟨n, hn, heq, hbefore⟩ := exists_iterate_firstRounds empty productions fuel (firstRound empty productions first)
      refine ⟨n + 1, by omega, heq, fun m hm => ?_⟩
      cases m with
      | zero => exact hchanged
      | succ m => exact hbefore m (by omega)

/-- **FIRST sets are exact, and computing them ends.** For every grammar a builder gives: the FIRST set of a sequence without the
empty symbol holds another symbol iff that is a terminal with which a derived form begins, and it holds the empty symbol iff the
empty string is derived; the sets themselves are those after the first of the rounds that change nothing, and there is one. -/
theorem first_exact {requests : List Builder.Request} {g : Grammar} (hbuild : (Builder.after requests).build = .ok g) :
    (∀ symbols : List SymbolId, (∀ symbol ∈ symbols, symbol ≠ g.empty) →
      (∀ a, a ≠ g.empty → (a ∈ g.first symbols ↔ g.isTerminal a = true ∧ ∃ rest, g.Rewritten symbols (a :: rest))) ∧
      (g.empty ∈ g.first symbols ↔ g.Rewritten symbols [])) ∧
    ∃ n, g.firstSets = (firstRound g.empty g.productions)^[n] (initialFirst g.slots) ∧
      firstRound g.empty g.productions g.firstSets = g.firstSets ∧
      ∀ m < n, (firstRound g.empty g.productions)^[m + 1] (initialFirst g.slots) ≠
        (firstRound g.empty g.productions)^[m] (initialFirst g.slots) := by
  have wf := wellFormed_of_build hbuild
  refine ⟨fun symbols hsymbols => ⟨fun a ha => ?_, ?_⟩, ?_⟩
  · exact (wf.mem_first_iff hsymbols ha).trans starts_iff_rewrites
  · exact (wf.empty_mem_first_iff hsymbols).trans vanishes_iff_rewrites
  · obtain ⟨n, -, heq, hbefore⟩ := exists_iterate_firstRounds g.empty g.productions
      ((g.slots.toList.filterMap id).length * (g.slots.toList.filterMap id).length + 1) (initialFirst g.slots)
    exact ⟨n, wf.firstSets.trans heq, wf.firstSets_fixed.2, hbefore⟩

/-- Requests for a grammar in which `A` and `B` begin with each other, `B` may vanish, and `C` derives only itself. -/
def intertwined : List Builder.Request :=
  [.terminal "x" 1 .common, .terminal "y" 2 .common, .symbols "$START$" ["A"], .symbols "A" ["B", "y"], .symbols "B" ["A", "x"],
    .symbols "B" [], .symbols "C" ["C"]]

/-- `B` vanishes or begins with the `y` of `A`, and nothing begins `C`. -/
theorem first_exact_intertwined :
    let g := (Builder.after intertwined).freeze
    (Builder.after intertwined).build = .ok g ∧ (g.first [4]).toList = [2, g.empty] ∧ (g.first [5, 1]).toList = [] ∧
      (∃ rest, g.Rewritten [4] (2 :: rest)) ∧ g.Rewritten [4] [] ∧ ¬∃ rest, g.Rewritten [5, 1] (1 :: rest) := by
  intro g
  have hbuild : (Builder.after intertwined).build = .ok g := Builder.build_of_isOk (by decide +kernel)
  have hfirst : (g.first [4]).toList = [2, g.empty] := by decide +kernel
  have hnone : (g.first [5, 1]).toList = [] := by decide +kernel
  obtain ⟨hexact, -⟩ := first_exact hbuild
  obtain ⟨hstarts, hvanishes⟩ := hexact [4] (by decide +kernel)
  obtain ⟨hnever, -⟩ := hexact [5, 1] (by decide +kernel)
  refine ⟨hbuild, hfirst, hnone, ?_, ?_, ?_⟩
  · exact ((hstarts 2 (by decide +kernel)).mp (OrderedSet.mem_def.mpr (by simp [hfirst]))).2
  · exact hvanishes.mp (OrderedSet.mem_def.mpr (by simp [hfirst]))
  · rintro ⟨rest, hrest⟩
    have hmem := (hnever 1 (by decide +kernel)).mpr ⟨by decide +kernel, rest, hrest⟩
    rw [OrderedSet.mem_def, hnone] at hmem
    cases hmem

end Grammar

end ShaderFront
