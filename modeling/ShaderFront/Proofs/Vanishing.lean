import Mathlib
import ShaderFront.Proofs.Safety

/-!
# Sequences that vanish and sequences that start with a terminal

FIRST sets hold nothing but what is derived. If the FIRST set of a sequence holds the empty symbol, the sequence derives the
empty string (`Grammar.Vanishes`); if it holds a terminal, the sequence derives a string that starts with it
(`Grammar.Starts`). With the inclusions of `Grammar.WellFormed.begins_head` this makes both descriptions exact
(`Grammar.WellFormed.empty_mem_first_iff`, `Grammar.WellFormed.mem_first_iff`).

Vanishing comes with a condition on the heads that may occur in the derivation. In a productive grammar every nonterminal
derives a string of terminals, so something can follow every symbol of a body.
-/

namespace ShaderFront.Grammar

variable {g : Grammar} {allowed : SymbolId → Prop}

/-! ## Vanishing -/

/-- The symbols derive the empty string, by productions with allowed heads. -/
inductive Vanishes (g : Grammar) (allowed : SymbolId → Prop) : List SymbolId → Prop
  | nil : Vanishes g allowed []
  | cons {id : ProductionId} {p : Production} {rest : List SymbolId} : g.production? id = some p → allowed p.head →
      Vanishes g allowed p.body → Vanishes g allowed rest → Vanishes g allowed (p.head :: rest)

theorem Vanishes.append {l r : List SymbolId} (hl : g.Vanishes allowed l) (hr : g.Vanishes allowed r) :
    g.Vanishes allowed (l ++ r) := by
  induction hl with
  | nil => exact hr
  | cons hp hallowed hbody _ _ ih => exact .cons hp hallowed hbody ih

theorem Vanishes.of_forall : ∀ {l : List SymbolId}, (∀ symbol ∈ l, g.Vanishes allowed [symbol]) → g.Vanishes allowed l
  | [], _ => .nil
  | symbol :: rest, h => by
    have hfirst := h symbol List.mem_cons_self
    exact hfirst.append (Vanishes.of_forall fun x hx => h x (List.mem_cons_of_mem symbol hx))

/-- What vanishes begins with the empty symbol. -/
theorem WellFormed.empty_mem_first (wf : g.WellFormed) {l : List SymbolId} (h : g.Vanishes allowed l) :
    g.empty ∈ g.first l := by
  induction h with
  | nil => exact empty_mem_first_nil
  | @cons id p rest hp _ _ _ ihbody ihrest =>
    exact (mem_first_append [p.head] rest).mpr (Or.inr ⟨mem_first_singleton (wf.begins_head hp ihbody), ihrest⟩)

/-! ## Starting with a terminal -/

/-- The symbols derive something that starts with a terminal. -/
inductive Starts (g : Grammar) (a : SymbolId) : List SymbolId → Prop
  | here {rest : List SymbolId} : g.isTerminal a = true → Starts g a (a :: rest)
  | skip {symbol : SymbolId} {rest : List SymbolId} :
      g.Vanishes (fun _ => True) [symbol] → Starts g a rest → Starts g a (symbol :: rest)
  | into {id : ProductionId} {p : Production} {rest : List SymbolId} :
      g.production? id = some p → Starts g a p.body → Starts g a (p.head :: rest)

theorem WellFormed.mem_first (wf : g.WellFormed) {a : SymbolId} (hne : a ≠ g.empty) {l : List SymbolId}
    (h : g.Starts a l) : a ∈ g.first l := by
  induction h with
  | @here rest ha =>
    exact (mem_first_append [a] rest).mpr (Or.inl ⟨mem_first_singleton (wf.firstSets_terminal ha), hne⟩)
  | @skip symbol rest hvanishes _ ih =>
    exact (mem_first_append [symbol] rest).mpr (Or.inr ⟨wf.empty_mem_first hvanishes, ih⟩)
  | @into id p rest hp _ ih =>
    exact (mem_first_append [p.head] rest).mpr (Or.inl ⟨mem_first_singleton (wf.begins_head hp ih), hne⟩)

/-! ## FIRST sets hold nothing else -/

/-- What a table of FIRST sets says is derived. -/
structure FirstSound (g : Grammar) (first : Array (OrderedSet SymbolId)) : Prop where
  vanishes : ∀ {s : SymbolId}, Begins first s g.empty → s ≠ g.empty → g.Vanishes (fun _ => True) [s]
  starts : ∀ {s a : SymbolId}, Begins first s a → a ≠ g.empty → g.Starts a [s]

theorem Starts.append {a : SymbolId} {l : List SymbolId} (h : g.Starts a l) (r : List SymbolId) :
    g.Starts a (l ++ r) := by
  induction h with
  | here ha => exact .here ha
  | skip hvanishes _ ih => exact .skip hvanishes ih
  | into hp hbody _ => exact .into hp hbody

/-- A sound table is sound for sequences. -/
theorem FirstSound.sequence {first : Array (OrderedSet SymbolId)} (h : g.FirstSound first) :
    ∀ {l : List SymbolId}, (∀ symbol ∈ l, symbol ≠ g.empty) → ∀ {x : SymbolId}, x ∈ firstOfSequence first g.empty l →
      (x = g.empty → g.Vanishes (fun _ => True) l) ∧ (x ≠ g.empty → g.Starts x l)
  | [], _, x, hx => ⟨fun _ => .nil, fun hne => absurd (OrderedSet.mem_singleton.mp hx) hne⟩
  | s :: rest, hl, x, hx => by
    have hs := hl s List.mem_cons_self
    have ih := fun {x : SymbolId} => FirstSound.sequence h (fun y hy => hl y (List.mem_cons_of_mem s hy)) (x := x)
    rw [firstOfSequence] at hx
    split at hx
    · exact absurd hx OrderedSet.mem_empty
    · rename_i set hset
      split at hx
      · rename_i hempty
        have hvanishes := h.vanishes ⟨set, hset, hempty⟩ hs
        rcases OrderedSet.mem_union.mp hx with hx | hx
        · obtain ⟨hmem, hne⟩ := OrderedSet.mem_erase.mp hx
          exact ⟨fun heq => absurd heq hne, fun _ => (h.starts ⟨set, hset, hmem⟩ hne).append rest⟩
        · exact ⟨fun heq => hvanishes.append ((ih hx).1 heq), fun hne => .skip hvanishes ((ih hx).2 hne)⟩
      · rename_i hempty
        have hne : x ≠ g.empty := fun heq => hempty (heq ▸ hx)
        exact ⟨fun heq => absurd heq hne, fun _ => (h.starts ⟨set, hset, hx⟩ hne).append rest⟩

theorem WellFormed.firstSound_initial (wf : g.WellFormed) : g.FirstSound (initialFirst g.slots) := by
  constructor
  · intro s hs hne
    exact absurd (wf.begins_initialFirst hs).2.symm hne
  · intro s a ha _
    obtain ⟨hterminal, rfl⟩ := wf.begins_initialFirst ha
    exact .here hterminal

/-- A production keeps a table sound. -/
theorem WellFormed.firstSound_growFirst (wf : g.WellFormed) {first : Array (OrderedSet SymbolId)}
    (h : g.FirstSound first) {p : Production} (hp : p ∈ g.productions) :
    g.FirstSound (growFirst g.empty first p) := by
  obtain ⟨id, hid⟩ := Array.getElem?_of_mem hp
  have hbody : ∀ symbol ∈ p.body, symbol ≠ g.empty := fun symbol hsymbol => (wf.body hid symbol hsymbol).2
  constructor
  · intro s hs hne
    rcases begins_growFirst.mp hs with hs | ⟨rfl, -, hx⟩
    · exact h.vanishes hs hne
    · exact .cons hid trivial ((h.sequence hbody hx).1 rfl) .nil
  · intro s a ha hne
    rcases begins_growFirst.mp ha with ha | ⟨rfl, -, hx⟩
    · exact h.starts ha hne
    · exact .into hid ((h.sequence hbody hx).2 hne)

theorem WellFormed.firstSound_firstRound (wf : g.WellFormed) {first : Array (OrderedSet SymbolId)}
    (h : g.FirstSound first) : g.FirstSound (firstRound g.empty g.productions first) := by
  rw [firstRound, ← Array.foldl_toList]
  suffices ∀ (l : List Production) (first : Array (OrderedSet SymbolId)), (∀ p ∈ l, p ∈ g.productions) →
      g.FirstSound first → g.FirstSound (l.foldl (growFirst g.empty) first) from
    this _ first (fun p hp => Array.mem_toList_iff.mp hp) h
  intro l
  induction l with
  | nil => exact fun _ _ h => h
  | cons p rest ih =>
    intro first hmem h
    exact ih _ (fun q hq => hmem q (List.mem_cons_of_mem _ hq)) (wf.firstSound_growFirst h (hmem p List.mem_cons_self))

theorem WellFormed.firstSound_firstRounds (wf : g.WellFormed) : ∀ (fuel : Nat) {first : Array (OrderedSet SymbolId)},
    g.FirstSound first → g.FirstSound (firstRounds g.empty g.productions fuel first)
  | 0, _, h => h
  | fuel + 1, _, h => by
    unfold firstRounds
    simp only
    split
    · exact h
    · exact WellFormed.firstSound_firstRounds wf fuel (wf.firstSound_firstRound h)

theorem WellFormed.firstSound (wf : g.WellFormed) : g.FirstSound g.firstSets := by
  rw [wf.firstSets]
  exact wf.firstSound_firstRounds _ wf.firstSound_initial

/-- **A sequence vanishes iff its FIRST set holds the empty symbol.** -/
theorem WellFormed.empty_mem_first_iff (wf : g.WellFormed) {l : List SymbolId} (hl : ∀ symbol ∈ l, symbol ≠ g.empty) :
    g.empty ∈ g.first l ↔ g.Vanishes (fun _ => True) l :=
  ⟨fun h => (wf.firstSound.sequence hl h).1 rfl, wf.empty_mem_first⟩

/-- **A sequence starts with the terminals its FIRST set holds.** -/
theorem WellFormed.mem_first_iff (wf : g.WellFormed) {l : List SymbolId} (hl : ∀ symbol ∈ l, symbol ≠ g.empty)
    {a : SymbolId} (hne : a ≠ g.empty) : a ∈ g.first l ↔ g.Starts a l :=
  ⟨fun h => (wf.firstSound.sequence hl h).2 hne, wf.mem_first hne⟩

/-- Nothing starts with a symbol that no body contains, unless it is there already. -/
theorem Starts.ne_of_avoids {x : SymbolId} (hx : g.Avoids x) {l : List SymbolId} {a : SymbolId} (h : g.Starts a l)
    (hl : x ∉ l) : a ≠ x := by
  induction h with
  | here _ =>
    rintro rfl
    exact hl List.mem_cons_self
  | skip _ _ ih => exact ih fun hmem => hl (List.mem_cons_of_mem _ hmem)
  | into hp _ ih => exact ih (hx.not_mem hp)

/-! ## Productive grammars -/

/-- Every nonterminal derives a string of terminals. -/
def Productive (g : Grammar) : Prop :=
  ∀ symbol, (g.symbol? symbol).isSome → g.isTerminal symbol = false → ∃ tree, g.Derives Exact symbol tree

theorem Productive.exists_trees (h : g.Productive) : ∀ {l : List SymbolId},
    (∀ symbol ∈ l, (g.symbol? symbol).isSome) → ∃ trees, g.DerivesAll Exact l trees
  | [], _ => ⟨[], .nil⟩
  | symbol :: rest, hl => by
    obtain ⟨trees, htrees⟩ := Productive.exists_trees h fun x hx => hl x (List.mem_cons_of_mem symbol hx)
    have htree : ∃ tree, g.Derives Exact symbol tree := by
      cases hterminal : g.isTerminal symbol with
      | true => exact ⟨.leaf ⟨symbol, "", ⟨0, 0⟩⟩, .leaf hterminal rfl⟩
      | false => exact h symbol (hl symbol List.mem_cons_self) hterminal
    obtain ⟨tree, htree⟩ := htree
    exact ⟨tree :: trees, .cons htree htrees⟩

/-- In a productive grammar something stands ahead of every dot. -/
theorem Productive.exists_ahead (wf : g.WellFormed) (h : g.Productive) {id : ProductionId} {p : Production}
    (hp : g.production? id = some p) (dot : Nat) {a : SymbolId} (ha : g.isTerminal a = true) (hne : a ≠ g.empty) :
    ∃ x ∈ g.first (p.body.drop dot ++ [a]), x ≠ g.empty := by
  have hbody := fun symbol (hsymbol : symbol ∈ p.body.drop dot) => wf.body hp symbol (List.mem_of_mem_drop hsymbol)
  obtain ⟨trees, htrees⟩ := h.exists_trees fun symbol hsymbol => (hbody symbol hsymbol).1
  obtain ⟨hfirst, hempty⟩ := wf.mem_first_ahead htrees (fun symbol hsymbol => (hbody symbol hsymbol).2) ha hne
  exact ⟨_, hfirst, hempty⟩

end ShaderFront.Grammar
