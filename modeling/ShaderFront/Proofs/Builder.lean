import Mathlib
import ShaderFront.Grammar.Builder

/-!
# Builders that requests can reach

A `Request` is one call on a builder; `Builder.after` makes some of them, one after the other, on a new builder. Granted
or refused, no request breaks the invariant `Builder.WellFormed`:

* the start symbol comes first, and no two terminals share a number, no two symbols a special role;
* the alternatives of a symbol are the productions it heads, in ascending order;
* heads are nonterminals, and bodies hold known symbols other than the empty symbol.

Main statement: `Builder.wellFormed_after`.
-/

namespace ShaderFront.Builder

/-! ## Requests -/

/-- One call on a builder. -/
inductive Request where
  | terminal (name : String) (id : SymbolId) (role : Role)
  | exclude (name : String)
  | production (head body : String)
  | symbols (head : String) (body : List String)
  | rules (list : List (String × String))
deriving DecidableEq, Repr

/-- The builder after a request, granted or not. -/
def Request.apply (b : Builder) : Request → Builder
  | .terminal name id role => (addTerminal name id role b).2
  | .exclude name => (excludeFromWildcard name b).2
  | .production head body => (addProduction head body b).2
  | .symbols head body => (addProductionSymbols head body b).2
  | .rules list => (addRules list b).2

/-- A new builder after some requests. -/
def after (requests : List Request) : Builder := requests.foldl Request.apply {}

/-! ## The invariant -/

/-- What every builder keeps, whatever is asked of it. -/
structure WellFormed (b : Builder) : Prop where
  start : ∃ s, b.symbols[0]? = some s ∧ s.role = .start ∧ s.terminal = none
  terminal_unique : ∀ {i j : Nat} {s t : PendingSymbol} {id : SymbolId}, b.symbols[i]? = some s →
    b.symbols[j]? = some t → s.terminal = some id → t.terminal = some id → i = j
  role_unique : ∀ {i j : Nat} {s t : PendingSymbol}, b.symbols[i]? = some s → b.symbols[j]? = some t →
    s.role ≠ .common → t.role = s.role → i = j
  role_terminal : ∀ {i : Nat} {s : PendingSymbol}, b.symbols[i]? = some s →
    s.role = .common ∨ s.role = .start ∨ s.terminal.isSome
  alternatives : ∀ {i : Nat} {s : PendingSymbol}, b.symbols[i]? = some s →
    ∀ id, id ∈ s.productions ↔ ∃ p, b.productions[id]? = some p ∧ p.head = i
  increasing : ∀ {i : Nat} {s : PendingSymbol}, b.symbols[i]? = some s → s.productions.Pairwise (· < ·)
  head : ∀ {id : ProductionId} {p : PendingProduction}, b.productions[id]? = some p →
    ∃ s, b.symbols[p.head]? = some s ∧ s.terminal = none
  body : ∀ {id : ProductionId} {p : PendingProduction}, b.productions[id]? = some p →
    ∀ i ∈ p.body, ∃ s, b.symbols[i]? = some s ∧ s.role ≠ .empty

variable {b : Builder}

/-- A new builder has the start symbol and nothing else. -/
theorem getElem?_symbols_new {i : Nat} {s : PendingSymbol} (h : (({} : Builder).symbols)[i]? = some s) :
    i = 0 ∧ s = { name := Symbol.startName, role := .start } := by
  cases i with
  | zero => exact ⟨rfl, by simpa using h.symm⟩
  | succ i => simp at h

theorem wellFormed_new : WellFormed {} := by
  refine ⟨⟨_, rfl, rfl, rfl⟩, ?_, ?_, ?_, ?_, ?_, ?_, ?_⟩
  · intro i j s t id hs ht _ _
    rw [(getElem?_symbols_new hs).1, (getElem?_symbols_new ht).1]
  · intro i j s t hs ht _ _
    rw [(getElem?_symbols_new hs).1, (getElem?_symbols_new ht).1]
  · intro i s hs
    rw [(getElem?_symbols_new hs).2]
    exact Or.inr (Or.inl rfl)
  · intro i s hs id
    rw [(getElem?_symbols_new hs).2]
    simp
  · intro i s hs
    rw [(getElem?_symbols_new hs).2]
    exact List.Pairwise.nil
  · intro id p hp
    simp at hp
  · intro id p hp
    simp at hp

/-! ## New symbols -/

/-- A slot of an array with one more element is an old slot or the new one. -/
theorem getElem?_push_cases {α : Type} {xs : Array α} {x y : α} {i : Nat} (h : (xs.push x)[i]? = some y) :
    xs[i]? = some y ∨ i = xs.size ∧ y = x := by
  rw [Array.getElem?_push] at h
  split at h
  · rename_i hi
    exact Or.inr ⟨hi, (Option.some.inj h).symm⟩
  · exact Or.inl h

/-- Old slots stay. -/
theorem getElem?_push_of_some {α : Type} {xs : Array α} {x y : α} {i : Nat} (h : xs[i]? = some y) :
    (xs.push x)[i]? = some y := by
  have hi := (Array.getElem?_eq_some_iff.mp h).1
  rw [Array.getElem?_push, if_neg (by omega)]
  exact h

/-- A symbol without productions may be added if its number and its role are new. -/
theorem WellFormed.push (h : b.WellFormed) {s : PendingSymbol} (hp : s.productions = [])
    (ht : ∀ (i : Nat) (t : PendingSymbol) id, b.symbols[i]? = some t → s.terminal = some id → t.terminal ≠ some id)
    (hr : s.role = .common ∨
      s.terminal.isSome ∧ ∀ (i : Nat) (t : PendingSymbol), b.symbols[i]? = some t → t.role ≠ s.role) :
    WellFormed { b with symbols := b.symbols.push s } := by
  obtain ⟨s₀, h₀, hrole, hnone⟩ := h.start
  refine ⟨⟨s₀, getElem?_push_of_some h₀, hrole, hnone⟩, ?_, ?_, ?_, ?_, ?_, ?_, ?_⟩
  · intro i j u v id hu hv hut hvt
    rcases getElem?_push_cases hu with hu' | ⟨rfl, rfl⟩ <;> rcases getElem?_push_cases hv with hv' | ⟨rfl, rfl⟩
    · exact h.terminal_unique hu' hv' hut hvt
    · exact absurd hut (ht i u id hu' hvt)
    · exact absurd hvt (ht j v id hv' hut)
    · rfl
  · intro i j u v hu hv huc hvu
    rcases getElem?_push_cases hu with hu' | ⟨rfl, rfl⟩ <;> rcases getElem?_push_cases hv with hv' | ⟨rfl, rfl⟩
    · exact h.role_unique hu' hv' huc hvu
    · rcases hr with hr | ⟨-, hr⟩
      · exact absurd (hvu ▸ hr) huc
      · exact absurd hvu.symm (hr i u hu')
    · rcases hr with hr | ⟨-, hr⟩
      · exact absurd hr huc
      · exact absurd hvu (hr j v hv')
    · rfl
  · intro i u hu
    rcases getElem?_push_cases hu with hu | ⟨rfl, rfl⟩
    · exact h.role_terminal hu
    · exact hr.imp id fun hr => Or.inr hr.1
  · intro i u hu id
    rcases getElem?_push_cases hu with hu | ⟨rfl, rfl⟩
    · exact h.alternatives hu id
    · -- the new index heads no production yet
      rw [hp]
      refine ⟨fun hid => absurd hid List.not_mem_nil, ?_⟩
      rintro ⟨p, hpid, hhead⟩
      obtain ⟨t, ht', -⟩ := h.head hpid
      have := (Array.getElem?_eq_some_iff.mp ht').1
      omega
  · intro i u hu
    rcases getElem?_push_cases hu with hu | ⟨rfl, rfl⟩
    · exact h.increasing hu
    · rw [hp]
      exact List.Pairwise.nil
  · intro id p hpid
    obtain ⟨t, ht', hnt⟩ := h.head hpid
    exact ⟨t, getElem?_push_of_some ht', hnt⟩
  · intro id p hpid i hi
    obtain ⟨t, ht', hne⟩ := h.body hpid i hi
    exact ⟨t, getElem?_push_of_some ht', hne⟩

/-- Registering a terminal keeps the invariant. -/
theorem WellFormed.addTerminal (h : b.WellFormed) (name : String) (id : SymbolId) (role : Role) :
    (addTerminal name id role b).2.WellFormed := by
  unfold Builder.addTerminal
  split
  · exact h
  · split
    · exact h
    · rename_i hid
      split
      · exact h
      · rename_i hrole
        refine h.push rfl ?_ ?_
        · intro i t id' ht hid' hterm
          cases hid'
          have hfree : ∀ t ∈ b.symbols, ¬ t.terminal = some id := by
            simpa [terminalWithId?, Array.find?_eq_none] using hid
          exact hfree t (Array.mem_of_getElem? ht) hterm
        · by_cases hc : role = .common
          · exact Or.inl hc
          · refine Or.inr ⟨rfl, fun i t ht heq => hrole ?_⟩
            have hany : b.symbols.any (fun s => decide (s.role = role)) = true :=
              Array.any_eq_true'.mpr ⟨t, Array.mem_of_getElem? ht, by simpa using heq⟩
            simp [hc, hany]

/-! ## Names -/

/-- A later builder: it knows the symbols of an earlier one and has the same productions. -/
structure Extends (b b' : Builder) : Prop where
  symbols : ∀ {i : Nat} {s : PendingSymbol}, b.symbols[i]? = some s → b'.symbols[i]? = some s
  productions : b'.productions = b.productions

theorem Extends.refl (b : Builder) : Extends b b := ⟨id, rfl⟩

theorem Extends.trans {b₁ b₂ b₃ : Builder} (h₁ : Extends b₁ b₂) (h₂ : Extends b₂ b₃) : Extends b₁ b₃ :=
  ⟨fun hs => h₂.symbols (h₁.symbols hs), h₂.productions.trans h₁.productions⟩

theorem intern_extends (name : String) (b : Builder) : Extends b (intern name b).2 := by
  unfold intern
  split
  · exact Extends.refl b
  · exact ⟨getElem?_push_of_some, rfl⟩

/-- The index of a name is that of a symbol. -/
theorem intern_known (name : String) (b : Builder) : ∃ s, (intern name b).2.symbols[(intern name b).1]? = some s := by
  unfold intern
  split
  · rename_i index hindex
    obtain ⟨hlt, -⟩ := Array.findIdx?_eq_some_iff_getElem.mp hindex
    exact ⟨_, Array.getElem?_eq_getElem hlt⟩
  · exact ⟨_, Array.getElem?_push_size⟩

/-- Interning a name keeps the invariant. -/
theorem WellFormed.intern (h : b.WellFormed) (name : String) : (intern name b).2.WellFormed := by
  unfold Builder.intern
  split
  · exact h
  · refine h.push rfl ?_ (Or.inl rfl)
    intro i t id _ hid
    cases hid

theorem internAll_extends : ∀ (names : List String) (b : Builder), Extends b (internAll names b).2
  | [], b => Extends.refl b
  | name :: rest, b => (intern_extends name b).trans (internAll_extends rest (Builder.intern name b).2)

/-- The indices of names are those of symbols. -/
theorem internAll_known : ∀ (names : List String) (b : Builder),
    ∀ i ∈ (internAll names b).1, ∃ s, (internAll names b).2.symbols[i]? = some s
  | [], _, i, hi => absurd hi List.not_mem_nil
  | name :: rest, b, i, hi => by
    rcases List.mem_cons.mp hi with rfl | hi
    · obtain ⟨s, hs⟩ := intern_known name b
      exact ⟨s, (internAll_extends rest _).symbols hs⟩
    · exact internAll_known rest _ i hi

theorem WellFormed.internAll : ∀ (names : List String) {b : Builder}, b.WellFormed → (internAll names b).2.WellFormed
  | [], _, h => h
  | name :: rest, _, h => WellFormed.internAll rest (h.intern name)

/-! ## New productions -/

/-- The builder with one more production, which its head knows as an alternative. -/
def pushProduction (b : Builder) (head : Nat) (body : List Nat) : Builder :=
  { b with
    productions := b.productions.push { head, body }
    symbols := b.symbols.modify head fun s => { s with productions := s.productions ++ [b.productions.size] } }

/-- Only the alternatives of the head change. -/
theorem symbols_pushProduction {head i : Nat} {body : List Nat} {s' : PendingSymbol}
    (h : (b.pushProduction head body).symbols[i]? = some s') :
    ∃ s, b.symbols[i]? = some s ∧ s'.name = s.name ∧ s'.role = s.role ∧ s'.terminal = s.terminal ∧
      s'.productions = if head = i then s.productions ++ [b.productions.size] else s.productions := by
  simp only [pushProduction, Array.getElem?_modify] at h
  split at h
  · rename_i hi
    obtain ⟨s, hs, rfl⟩ := Option.map_eq_some_iff.mp h
    exact ⟨s, hs, rfl, rfl, rfl, by rw [if_pos hi]⟩
  · rename_i hi
    exact ⟨s', h, rfl, rfl, rfl, by rw [if_neg hi]⟩

/-- Every symbol stays, with its name, its role and its number. -/
theorem pushProduction_symbols (head : Nat) (body : List Nat) {i : Nat} {s : PendingSymbol}
    (h : b.symbols[i]? = some s) :
    ∃ s', (b.pushProduction head body).symbols[i]? = some s' ∧ s'.name = s.name ∧ s'.role = s.role ∧ s'.terminal = s.terminal := by
  simp only [pushProduction, Array.getElem?_modify]
  split
  · rw [h]
    exact ⟨_, rfl, rfl, rfl, rfl⟩
  · exact ⟨s, h, rfl, rfl, rfl⟩

/-- The alternatives of a symbol are the productions it heads, the new one included. -/
theorem WellFormed.alternatives_pushProduction (h : b.WellFormed) {head i : Nat} {body : List Nat} {s : PendingSymbol}
    (hs : (b.pushProduction head body).symbols[i]? = some s) (id : ProductionId) :
    id ∈ s.productions ↔ ∃ p, (b.pushProduction head body).productions[id]? = some p ∧ p.head = i := by
  obtain ⟨s₁, hs₁, -, -, -, hprods⟩ := symbols_pushProduction hs
  have hold := h.alternatives hs₁ id
  rw [hprods]
  constructor
  · intro hid
    have hid' : id ∈ s₁.productions ∨ head = i ∧ id = b.productions.size := by
      split at hid
      · rename_i hi
        rcases List.mem_append.mp hid with hid | hid
        · exact Or.inl hid
        · exact Or.inr ⟨hi, List.mem_singleton.mp hid⟩
      · exact Or.inl hid
    rcases hid' with hid' | ⟨rfl, rfl⟩
    · obtain ⟨p, hp, hpi⟩ := hold.mp hid'
      exact ⟨p, getElem?_push_of_some hp, hpi⟩
    · exact ⟨_, Array.getElem?_push_size, rfl⟩
  · rintro ⟨p, hp, rfl⟩
    rcases getElem?_push_cases hp with hp | ⟨rfl, rfl⟩
    · have hid := hold.mpr ⟨p, hp, rfl⟩
      split
      · exact List.mem_append_left _ hid
      · exact hid
    · rw [if_pos rfl]
      exact List.mem_append_right _ (List.mem_singleton.mpr rfl)

/-- A production of known symbols, with a nonterminal head and without the empty symbol, may be added. -/
theorem WellFormed.pushProduction (h : b.WellFormed) {head : Nat} {body : List Nat}
    (hh : ∃ s, b.symbols[head]? = some s ∧ s.terminal = none)
    (hb : ∀ i ∈ body, ∃ s, b.symbols[i]? = some s ∧ s.role ≠ .empty) : (b.pushProduction head body).WellFormed := by
  have lookup : ∀ {id : Nat} {p : PendingProduction}, (b.pushProduction head body).productions[id]? = some p →
      b.productions[id]? = some p ∨ id = b.productions.size ∧ p = { head, body } := getElem?_push_cases
  refine ⟨?_, ?_, ?_, ?_, ?_, ?_, ?_, ?_⟩
  · obtain ⟨s₀, h₀, hrole, hnone⟩ := h.start
    obtain ⟨s, hs, -, hr, ht⟩ := pushProduction_symbols head body h₀
    exact ⟨s, hs, hr.trans hrole, ht.trans hnone⟩
  · intro i j s t id hs ht hsid htid
    obtain ⟨s₁, hs₁, -, -, hst, -⟩ := symbols_pushProduction hs
    obtain ⟨t₁, ht₁, -, -, htt, -⟩ := symbols_pushProduction ht
    exact h.terminal_unique hs₁ ht₁ (hst ▸ hsid) (htt ▸ htid)
  · intro i j s t hs ht hc heq
    obtain ⟨s₁, hs₁, -, hsr, -⟩ := symbols_pushProduction hs
    obtain ⟨t₁, ht₁, -, htr, -⟩ := symbols_pushProduction ht
    exact h.role_unique hs₁ ht₁ (hsr ▸ hc) (by rw [← hsr, ← htr, heq])
  · intro i s hs
    obtain ⟨s₁, hs₁, -, hsr, hst, -⟩ := symbols_pushProduction hs
    rw [hsr, hst]
    exact h.role_terminal hs₁
  · exact fun hs => h.alternatives_pushProduction hs
  · intro i s hs
    obtain ⟨s₁, hs₁, -, -, -, hprods⟩ := symbols_pushProduction hs
    rw [hprods]
    split
    · refine List.pairwise_append.mpr ⟨h.increasing hs₁, List.pairwise_singleton _ _, ?_⟩
      intro id hid id' hid'
      obtain ⟨p, hp, -⟩ := (h.alternatives hs₁ id).mp hid
      rw [List.mem_singleton.mp hid']
      exact (Array.getElem?_eq_some_iff.mp hp).1
    · exact h.increasing hs₁
  · intro id p hp
    have hold : ∃ s, b.symbols[p.head]? = some s ∧ s.terminal = none := by
      rcases lookup hp with hp | ⟨-, rfl⟩
      · exact h.head hp
      · exact hh
    obtain ⟨s, hs, hnone⟩ := hold
    obtain ⟨s', hs', -, -, ht⟩ := pushProduction_symbols head body hs
    exact ⟨s', hs', ht.trans hnone⟩
  · intro id p hp i hi
    have hold : ∃ s, b.symbols[i]? = some s ∧ s.role ≠ .empty := by
      rcases lookup hp with hp | ⟨-, rfl⟩
      · exact h.body hp i hi
      · exact hb i hi
    obtain ⟨s, hs, hne⟩ := hold
    obtain ⟨s', hs', -, hr, -⟩ := pushProduction_symbols head body hs
    exact ⟨s', hs', by rw [hr]; exact hne⟩

/-- Adding an alternative keeps the invariant. -/
theorem WellFormed.addProductionSymbols (h : b.WellFormed) (head : String) (body : List String) :
    (addProductionSymbols head body b).2.WellFormed := by
  have h₁ := h.intern head
  obtain ⟨s, hs⟩ := intern_known head b
  unfold Builder.addProductionSymbols
  simp only
  split
  · exact h₁
  · rename_i hterm
    -- the head is no terminal, and stays what it is while the names of the body are looked up
    have hnone : s.terminal = none := by simpa [isTerminalAt, hs] using hterm
    have h₂ := WellFormed.internAll (body.filter (· ≠ Symbol.emptyName)) h₁
    split
    · exact h₂
    · refine h₂.pushProduction ⟨s, (internAll_extends _ _).symbols hs, hnone⟩ ?_
      intro i hi
      obtain ⟨hmem, hempty⟩ := List.mem_filter.mp hi
      obtain ⟨t, ht⟩ := internAll_known _ _ i hmem
      refine ⟨t, ht, fun hrole => ?_⟩
      rw [isEmptyAt, ht] at hempty
      simp [hrole] at hempty

/-! ## All requests -/

/-- Adding rules keeps the invariant. -/
theorem WellFormed.addRulesFrom : ∀ (rules : List (String × String)) (index : Nat) {b : Builder}, b.WellFormed →
    (addRulesFrom index rules b).2.WellFormed
  | [], _, _, h => h
  | (head, body) :: rest, index, b, h => by
    have h₁ : (Builder.addProduction head body b).2.WellFormed := h.addProductionSymbols head (Text.words body)
    unfold Builder.addRulesFrom
    split
    · rename_i hcall
      rwa [hcall] at h₁
    · rename_i hcall
      rw [hcall] at h₁
      split
      · exact WellFormed.addRulesFrom rest _ h₁
      · exact h₁

/-- Excluding a terminal changes neither symbols nor productions. -/
theorem WellFormed.excludeFromWildcard (h : b.WellFormed) (name : String) :
    (excludeFromWildcard name b).2.WellFormed := by
  have same : (Builder.excludeFromWildcard name b).2.symbols = b.symbols ∧
      (Builder.excludeFromWildcard name b).2.productions = b.productions := by
    unfold Builder.excludeFromWildcard
    split
    · split
      · simp only
        split <;> exact ⟨rfl, rfl⟩
      · exact ⟨rfl, rfl⟩
    · exact ⟨rfl, rfl⟩
  obtain ⟨hs, hp⟩ := same
  constructor <;> rw [hs]
  · exact h.start
  · exact h.terminal_unique
  · exact h.role_unique
  · exact h.role_terminal
  · rw [hp]; exact h.alternatives
  · exact h.increasing
  · rw [hp]; exact h.head
  · rw [hp]; exact h.body

/-- One request keeps the invariant. -/
theorem WellFormed.apply (h : b.WellFormed) : ∀ request : Request, (request.apply b).WellFormed
  | .terminal name id role => h.addTerminal name id role
  | .exclude name => h.excludeFromWildcard name
  | .production head body => h.addProductionSymbols head (Text.words body)
  | .symbols head body => h.addProductionSymbols head body
  | .rules list => WellFormed.addRulesFrom list 0 h

/-- **Every builder that requests can reach keeps the invariant.** -/
theorem wellFormed_after (requests : List Request) : (after requests).WellFormed := by
  suffices ∀ b : Builder, b.WellFormed → (requests.foldl Request.apply b).WellFormed from this {} wellFormed_new
  induction requests with
  | nil => exact fun _ h => h
  | cons request rest ih => exact fun b h => ih _ (h.apply request)

end ShaderFront.Builder
