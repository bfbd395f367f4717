import Mathlib
import ShaderFront.Proofs.Rules

/-!
# What a built grammar is

A request changes a builder in small steps: a symbol or a production is added, or a terminal is excluded (`Builder.Grows`). So
whatever is asked of a builder, granted or refused, it keeps what it knows (`Builder.Grows.keeps`), and no production is added
twice (`Builder.Grows.distinct`).

A grammar built from it has the pending symbols under numbers of their own, the end of the input and the empty symbol, and the
pending productions (`Grammar.Represents`).

Main statement: `Grammar.represents_of_build`.
-/

namespace ShaderFront

namespace Builder

variable {b b' : Builder}

/-! ## Steps of requests -/

/-- One step of a request: something is added. A production is new to its head. -/
inductive Grows : Builder → Builder → Prop
  | symbol (b : Builder) {s : PendingSymbol} (h : s.productions = []) : Grows b { b with symbols := b.symbols.push s }
  | exclude (b : Builder) (index : Nat) : Grows b { b with exclusions := b.exclusions ++ [index] }
  | production (b : Builder) {head : Nat} {body : List Nat}
      (h : ∀ {id : ProductionId} {p : PendingProduction}, b.productions[id]? = some p → p.head = head → p.body ≠ body) :
      Grows b (b.pushProduction head body)

theorem grows_intern (name : String) (b : Builder) : Relation.ReflTransGen Grows b (intern name b).2 := by
  unfold intern
  split
  · exact .refl
  · exact .single (.symbol b rfl)

theorem grows_internAll : ∀ (names : List String) (b : Builder), Relation.ReflTransGen Grows b (internAll names b).2
  | [], _ => .refl
  | name :: rest, b => (grows_intern name b).trans (grows_internAll rest (intern name b).2)

/-- A body that stands among no alternatives of its head is new. -/
theorem WellFormed.new_of_not_duplicate (h : b.WellFormed) {head : Nat} {body : List Nat}
    (hnew : (b.alternativesAt head).any (fun id => b.productions[id]?.any (·.body = body)) = false)
    {id : ProductionId} {p : PendingProduction} (hp : b.productions[id]? = some p) (hhead : p.head = head) :
    p.body ≠ body := by
  rintro rfl
  obtain ⟨s, hs, -⟩ := h.head hp
  rw [hhead] at hs
  have hid : id ∈ b.alternativesAt head := by
    rw [alternativesAt, hs]
    exact (h.alternatives hs id).mpr ⟨p, hp, hhead⟩
  simpa [hp] using List.any_eq_false.mp hnew id hid

theorem WellFormed.grows_addProductionSymbols (h : b.WellFormed) (head : String) (body : List String) :
    Relation.ReflTransGen Grows b (Builder.addProductionSymbols head body b).2 := by
  have hhead := grows_intern head b
  have hbody := hhead.trans (grows_internAll (body.filter (· ≠ Symbol.emptyName)) (Builder.intern head b).2)
  unfold Builder.addProductionSymbols
  simp only
  split
  · exact hhead
  · split
    · exact hbody
    · rename_i hnew
      have h₂ := WellFormed.internAll (body.filter (· ≠ Symbol.emptyName)) (h.intern head)
      exact hbody.tail (.production _ (h₂.new_of_not_duplicate (Bool.eq_false_iff.mpr hnew)))

theorem WellFormed.grows_addRulesFrom : ∀ (rules : List (String × String)) (index : Nat) {b : Builder}, b.WellFormed →
    Relation.ReflTransGen Grows b (Builder.addRulesFrom index rules b).2
  | [], _, _, _ => .refl
  | (head, body) :: rest, index, b, h => by
    have hfirst : Relation.ReflTransGen Grows b (Builder.addProduction head body b).2 :=
      h.grows_addProductionSymbols head (Text.words body)
    have h₁ : (Builder.addProduction head body b).2.WellFormed := h.addProductionSymbols head (Text.words body)
    unfold Builder.addRulesFrom
    split
    · rename_i hcall
      rwa [hcall] at hfirst
    · rename_i hcall
      rw [hcall] at hfirst h₁
      split
      · exact hfirst.trans (WellFormed.grows_addRulesFrom rest _ h₁)
      · exact hfirst

/-- **A request is made of such steps**, granted or not. -/
theorem WellFormed.grows_apply (h : b.WellFormed) (request : Request) :
    Relation.ReflTransGen Grows b (request.apply b) := by
  cases request with
  | terminal name id role =>
    rw [Request.apply, Builder.addTerminal]
    split
    · exact .refl
    · split
      · exact .refl
      · split
        · exact .refl
        · exact .single (.symbol b rfl)
  | exclude name =>
    rw [Request.apply, Builder.excludeFromWildcard]
    split
    · split
      · simp only
        split
        · exact .refl
        · exact .single (.exclude b _)
      · exact .refl
    · exact .refl
  | production head body => exact h.grows_addProductionSymbols head (Text.words body)
  | symbols head body => exact h.grows_addProductionSymbols head body
  | rules list => exact WellFormed.grows_addRulesFrom list 0 h

theorem WellFormed.grows_foldl : ∀ (requests : List Request) {b : Builder}, b.WellFormed →
    Relation.ReflTransGen Grows b (requests.foldl Request.apply b)
  | [], _, _ => .refl
  | request :: rest, _, h => (h.grows_apply request).trans (WellFormed.grows_foldl rest (h.apply request))

/-! ## What the steps keep -/

theorem Grows.keeps (h : Grows b b') : Keeps b b' := by
  cases h with
  | symbol => exact ⟨fun hs => ⟨_, getElem?_push_of_some hs, rfl, rfl, rfl⟩, id, fun _ => id⟩
  | exclude => exact ⟨fun hs => ⟨_, hs, rfl, rfl, rfl⟩, id, fun _ => List.mem_append_left _⟩
  | production => exact keeps_pushProduction _ _

theorem keeps_of_grows (h : Relation.ReflTransGen Grows b b') : Keeps b b' := by
  induction h with
  | refl => exact Keeps.refl b
  | tail _ hstep ih => exact ih.trans hstep.keeps

/-- No two productions are the same rule. -/
def Distinct (b : Builder) : Prop :=
  ∀ {i j : ProductionId} {p : PendingProduction}, b.productions[i]? = some p → b.productions[j]? = some p → i = j

theorem Grows.distinct (h : Grows b b') (hb : b.Distinct) : b'.Distinct := by
  cases h with
  | symbol => exact hb
  | exclude => exact hb
  | production hnew =>
    intro i j p hi hj
    rcases getElem?_push_cases hi with hi | ⟨rfl, rfl⟩ <;> rcases getElem?_push_cases hj with hj | ⟨rfl, hp⟩
    · exact hb hi hj
    · exact absurd (congrArg PendingProduction.body hp) (hnew hi (congrArg PendingProduction.head hp))
    · exact absurd rfl (hnew hj rfl)
    · rfl

theorem distinct_of_grows (h : Relation.ReflTransGen Grows b b') (hb : b.Distinct) : b'.Distinct := by
  induction h with
  | refl => exact hb
  | tail _ hstep ih => exact hstep.distinct ih

/-- **No requests make a builder hold one rule twice.** -/
theorem distinct_after (requests : List Request) : (after requests).Distinct :=
  distinct_of_grows (WellFormed.grows_foldl requests wellFormed_new) (fun hi _ => by simp at hi)

theorem addTerminal_of_ok {name : String} {id : SymbolId} {role : Role} (h : (addTerminal name id role b).1 = .ok ()) :
    (addTerminal name id role b).2 = { b with symbols := b.symbols.push { name, role, terminal := some id } } := by
  unfold addTerminal at h ⊢
  split
  · rename_i hname
    simp [hname] at h
  · rename_i hname
    split
    · rename_i hid
      simp [hname, hid] at h
    · rename_i hid
      split
      · rename_i hrole
        simp only [hname, hid, hrole] at h
        cases h
      · rfl

/-- A terminal that was registered stays under its number. -/
theorem exists_terminal_after {requests front back : List Request} {name : String} {id : SymbolId} {role : Role}
    (hrequests : requests = front ++ .terminal name id role :: back)
    (hok : (addTerminal name id role (after front)).1 = .ok ()) :
    ∃ (i : Nat) (s : PendingSymbol), (after requests).symbols[i]? = some s ∧ s.name = name ∧ s.role = role ∧
      s.terminal = some id := by
  have hnew : (Request.apply (after front) (.terminal name id role)).symbols[(after front).symbols.size]? =
      some { name, role, terminal := some id } := by
    rw [Request.apply, addTerminal_of_ok hok]
    exact Array.getElem?_push_size
  have hkeeps := keeps_of_grows (WellFormed.grows_foldl back ((wellFormed_after front).apply (.terminal name id role)))
  obtain ⟨s, hs, hname, hrole, hterminal⟩ := hkeeps.symbols hnew
  refine ⟨(after front).symbols.size, s, ?_, hname, hrole, hterminal⟩
  rw [hrequests, after, List.foldl_append, List.foldl_cons]
  exact hs

/-- Terminals have no alternatives. -/
theorem WellFormed.productions_eq_nil (h : b.WellFormed) {i : Nat} {s : PendingSymbol} (hs : b.symbols[i]? = some s)
    (hterminal : s.terminal.isSome) : s.productions = [] := by
  rw [List.eq_nil_iff_forall_not_mem]
  intro id hid
  obtain ⟨p, hp, rfl⟩ := (h.alternatives hs id).mp hid
  obtain ⟨t, ht, hnone⟩ := h.head hp
  cases hs.symm.trans ht
  rw [hnone] at hterminal
  cases hterminal

/-- In a grammar, nonterminals have some. -/
theorem productions_of_build {g : Grammar} (h : b.build = .ok g) {i : Nat} {s : PendingSymbol} (hs : b.symbols[i]? = some s)
    (hterminal : s.terminal = none) : s.productions ≠ [] := by
  unfold build at h
  split at h
  · cases h
  · split at h
    · cases h
    · rename_i hnone
      simpa [hterminal] using Array.find?_eq_none.mp hnone s (Array.mem_of_getElem? hs)

/-- Bodies of known symbols are told apart by the numbers in them. -/
theorem WellFormed.map_idAt_inj (h : b.WellFormed) : ∀ {is js : List Nat}, (∀ i ∈ is, ∃ s, b.symbols[i]? = some s) →
    (∀ j ∈ js, ∃ s, b.symbols[j]? = some s) → is.map b.idAt = js.map b.idAt → is = js
  | [], [], _, _, _ => rfl
  | [], _ :: _, _, _, heq => by cases heq
  | _ :: _, [], _, _, heq => by cases heq
  | i :: is, j :: js, his, hjs, heq => by
    obtain ⟨⟨s, hs⟩, his⟩ := List.forall_mem_cons.mp his
    obtain ⟨⟨t, ht⟩, hjs⟩ := List.forall_mem_cons.mp hjs
    obtain ⟨hfirst, hrest⟩ := List.cons_eq_cons.mp heq
    rw [h.idAt_inj hs ht hfirst, h.map_idAt_inj his hjs hrest]

/-- Productions of known symbols are told apart by the numbers in them. -/
theorem WellFormed.eq_of_idAt (h : b.WellFormed) {i j : ProductionId} {p q : PendingProduction} (hp : b.productions[i]? = some p)
    (hq : b.productions[j]? = some q) (hhead : b.idAt p.head = b.idAt q.head) (hbody : p.body.map b.idAt = q.body.map b.idAt) :
    p = q := by
  have hknown : ∀ {id : ProductionId} {p : PendingProduction}, b.productions[id]? = some p →
      ∀ i ∈ p.body, ∃ s, b.symbols[i]? = some s := fun hp i hi => (h.body hp i hi).imp fun _ => And.left
  obtain ⟨s, hs, -⟩ := h.head hp
  obtain ⟨t, ht, -⟩ := h.head hq
  obtain ⟨head, body⟩ := p
  obtain ⟨head', body'⟩ := q
  rw [PendingProduction.mk.injEq]
  exact ⟨h.idAt_inj hs ht hhead, h.map_idAt_inj (hknown hp) (hknown hq) hbody⟩

/-! ## Numbers of roles -/

/-- A role belongs to the first symbol that has it, or to a new terminal under a new number. -/
theorem ensureRole_cases (role : Role) (name : String) (symbols : List Symbol) (used : List SymbolId) :
    (∃ s ∈ symbols, s.role = role ∧ ensureRole role name symbols used = (s.id, symbols, used)) ∨
      (∀ s ∈ symbols, s.role ≠ role) ∧ ensureRole role name symbols used =
        (leastFree used, symbols ++ [roleSymbol role name (leastFree used)], leastFree used :: used) := by
  unfold ensureRole
  split
  · rename_i s hs
    exact .inl ⟨s, List.mem_of_find?_eq_some hs, by simpa using List.find?_some hs, rfl⟩
  · rename_i hnone
    exact .inr ⟨fun s hs => by simpa using List.find?_eq_none.mp hnone s hs, rfl⟩

theorem mem_ensureRole_cases {role : Role} {name : String} {symbols : List Symbol} {used : List SymbolId} {s : Symbol}
    (hs : s ∈ (ensureRole role name symbols used).2.1) :
    s ∈ symbols ∨ s = roleSymbol role name (ensureRole role name symbols used).1 := by
  rcases ensureRole_cases role name symbols used with ⟨t, -, -, heq⟩ | ⟨-, heq⟩
  · rw [heq] at hs
    exact .inl hs
  · rw [heq] at hs ⊢
    exact (List.mem_append.mp hs).imp id List.mem_singleton.mp

/-- A symbol of a grammar was pending, or was added for its role. -/
theorem WellFormed.symbol?_cases (h : b.WellFormed) {id : SymbolId} {s : Symbol} (hs : b.freeze.symbol? id = some s) :
    (∃ (i : Nat) (t : PendingSymbol), b.symbols[i]? = some t ∧ id = b.idAt i ∧ s = PendingSymbol.freeze t id) ∨
      s.kind = .terminal ∧ s.productions = [] ∧ (id = b.freeze.endOfInput ∨ id = b.freeze.empty) := by
  obtain ⟨hmem, rfl⟩ := h.symbol?_freeze.mp hs
  rcases mem_ensureRole_cases hmem with hmem | rfl
  · rcases mem_ensureRole_cases hmem with hmem | rfl
    · obtain ⟨i, t, ht, rfl⟩ := mem_frozenPending.mp hmem
      exact .inl ⟨i, t, ht, rfl, rfl⟩
    · exact .inr ⟨rfl, rfl, .inl rfl⟩
  · exact .inr ⟨rfl, rfl, .inr rfl⟩

/-- The terminals of a grammar have no alternatives. -/
theorem WellFormed.productions_of_terminal (h : b.WellFormed) {id : SymbolId} {s : Symbol} (hs : b.freeze.symbol? id = some s)
    (hkind : s.kind = .terminal) : s.productions = [] := by
  rcases h.symbol?_cases hs with ⟨i, t, ht, rfl, rfl⟩ | ⟨-, hnil, -⟩
  · have hsome : t.terminal.isSome := by
      by_contra hnone
      simp [PendingSymbol.freeze, hnone] at hkind
    exact h.productions_eq_nil ht hsome
  · exact hnil

/-- The nonterminals of a grammar that was built have alternatives, in ascending order. -/
theorem WellFormed.productions_of_nonterminal (h : b.WellFormed) (hbuild : b.build = .ok b.freeze) {id : SymbolId} {s : Symbol}
    (hs : b.freeze.symbol? id = some s) (hkind : s.kind = .nonterminal) : s.productions ≠ [] ∧ s.productions.Pairwise (· < ·) := by
  rcases h.symbol?_cases hs with ⟨i, t, ht, rfl, rfl⟩ | ⟨hterminal, -, -⟩
  · have hnone : t.terminal = none := by simpa [PendingSymbol.freeze] using hkind
    exact ⟨productions_of_build hbuild ht hnone, h.increasing ht⟩
  · rw [hkind] at hterminal
    cases hterminal

/-- The number of a role is that of a pending symbol, or that of a new terminal. -/
def Fills (b : Builder) (g : Grammar) (role : Role) (name : String) (id : SymbolId) : Prop :=
  (∃ (i : Nat) (s : PendingSymbol), b.symbols[i]? = some s ∧ s.role = role ∧ id = b.idAt i) ∨
    (∀ (i : Nat) (s : PendingSymbol), b.symbols[i]? = some s → s.role ≠ role ∧ b.idAt i ≠ id) ∧
      g.symbol? id = some (roleSymbol role name id)

theorem WellFormed.fills_ensureRole (h : b.WellFormed) {role : Role} {name : String} {symbols : List Symbol}
    {used : List SymbolId} (hnumbered : Numbered symbols used) (hpending : ∀ s ∈ b.frozenPending, s ∈ symbols)
    (hrole : ∀ s ∈ symbols, s.role = role → s ∈ b.frozenPending)
    (hfrozen : ∀ s ∈ (ensureRole role name symbols used).2.1, s ∈ b.frozenEmpty.2.1) :
    b.Fills b.freeze role name (ensureRole role name symbols used).1 := by
  rcases ensureRole_cases role name symbols used with ⟨s, hs, hsrole, heq⟩ | ⟨hnone, heq⟩
  · obtain ⟨i, t, ht, rfl⟩ := mem_frozenPending.mp (hrole s hs hsrole)
    exact .inl ⟨i, t, ht, hsrole, congrArg Prod.fst heq⟩
  · rw [heq] at hfrozen ⊢
    refine .inr ⟨fun i s hs => ?_, h.symbol?_freeze.mpr ⟨hfrozen _ (List.mem_append_right _ List.mem_cons_self), rfl⟩⟩
    have hmem := hpending _ (mem_frozenPending.mpr ⟨i, s, hs, rfl⟩)
    have hused : b.idAt i ∈ used := hnumbered.used _ hmem
    exact ⟨hnone _ hmem, fun hi => leastFree_not_mem used (hi.subst hused)⟩

theorem WellFormed.fills_endOfInput (h : b.WellFormed) : b.Fills b.freeze .endOfInput Symbol.endName b.freeze.endOfInput :=
  h.fills_ensureRole h.numbered_pending (fun _ hs => hs) (fun _ hs _ => hs) fun _ hs => mem_ensureRole.1 hs

theorem WellFormed.fills_empty (h : b.WellFormed) : b.Fills b.freeze .empty Symbol.emptyName b.freeze.empty := by
  refine h.fills_ensureRole (numbered_ensureRole h.numbered_pending .endOfInput Symbol.endName)
    (fun _ hs => mem_ensureRole.1 hs) (fun s hs hrole => ?_) fun _ hs => hs
  rcases mem_ensureRole.2 hs with hs | ⟨id, rfl⟩
  · exact hs
  · cases hrole

end Builder

/-! ## Built grammars -/

theorem kind_eq_nonterminal {s : Symbol} (h : s.isTerminal = false) : s.kind = .nonterminal := by
  cases hkind : s.kind with
  | terminal => simp [Symbol.isTerminal, hkind] at h
  | nonterminal => rfl

/-- A grammar is what a builder asks for. Every symbol is in the slot of its number. The pending symbols have numbers of their
own, which are those the terminals were registered with; besides them there are only the end of the input and the empty symbol.
The productions are the pending ones, each under its position, and no two of them are the same rule. A nonterminal has some
alternatives, which are the productions it heads in ascending order, and a terminal has none. -/
structure Grammar.Represents (g : Grammar) (b : Builder) : Prop where
  slot : ∀ {id : SymbolId} {s : Symbol}, g.symbol? id = some s → s.id = id
  pending : ∀ {i : Nat} {s : PendingSymbol}, b.symbols[i]? = some s →
    g.symbol? (b.idAt i) = some (Builder.PendingSymbol.freeze s (b.idAt i))
  terminal : ∀ {i : Nat} {s : PendingSymbol} {id : SymbolId}, b.symbols[i]? = some s → s.terminal = some id → b.idAt i = id
  injective : ∀ {i j : Nat}, i < b.symbols.size → j < b.symbols.size → b.idAt i = b.idAt j → i = j
  endOfInput : b.Fills g .endOfInput Symbol.endName g.endOfInput
  empty : b.Fills g .empty Symbol.emptyName g.empty
  endOfInput_ne_empty : g.endOfInput ≠ g.empty
  cases : ∀ {id : SymbolId} {s : Symbol}, g.symbol? id = some s →
    id = g.endOfInput ∨ id = g.empty ∨ ∃ i < b.symbols.size, id = b.idAt i
  production : ∀ {id : ProductionId} {p : Production}, g.production? id = some p ↔
    ∃ q, b.productions[id]? = some q ∧ p = ⟨id, b.idAt q.head, q.body.map b.idAt⟩
  head : ∀ {id : ProductionId} {p : Production}, g.production? id = some p →
    ∃ s, g.symbol? p.head = some s ∧ s.kind = .nonterminal
  body : ∀ {id : ProductionId} {p : Production}, g.production? id = some p →
    ∀ symbol ∈ p.body, (g.symbol? symbol).isSome ∧ symbol ≠ g.empty
  alternatives : ∀ {id : SymbolId} {s : Symbol}, g.symbol? id = some s → s.kind = .nonterminal →
    s.productions ≠ [] ∧ s.productions.Pairwise (· < ·) ∧
      ∀ n, n ∈ s.productions ↔ ∃ p, g.production? n = some p ∧ p.head = id
  no_alternatives : ∀ {id : SymbolId} {s : Symbol}, g.symbol? id = some s → s.kind = .terminal → s.productions = []
  distinct : ∀ {i j : ProductionId} {p q : Production}, g.production? i = some p → g.production? j = some q →
    p.head = q.head → p.body = q.body → i = j

/-- A builder that holds no rule twice asks for the grammar that is built from it. -/
theorem Builder.WellFormed.represents {b : Builder} (h : b.WellFormed) (hdistinct : b.Distinct)
    (hbuild : b.build = .ok b.freeze) : b.freeze.Represents b where
  slot := h.freeze.symbol_id
  pending := h.symbol?_idAt
  terminal := Builder.idAt_terminal
  injective hi hj heq := h.idAt_inj (Array.getElem?_eq_getElem hi) (Array.getElem?_eq_getElem hj) heq
  endOfInput := h.fills_endOfInput
  empty := h.fills_empty
  endOfInput_ne_empty := h.freeze.endOfInput_ne_empty
  cases hs := by
    rcases h.symbol?_cases hs with ⟨i, t, ht, rfl, -⟩ | ⟨-, -, hid | hid⟩
    · exact .inr (.inr ⟨i, (Array.getElem?_eq_some_iff.mp ht).1, rfl⟩)
    · exact .inl hid
    · exact .inr (.inl hid)
  production := Builder.production?_freeze
  head hp := by
    obtain ⟨s, hs, hterminal⟩ := h.freeze.head hp
    exact ⟨s, hs, kind_eq_nonterminal hterminal⟩
  body := h.freeze.body
  alternatives hs hkind := by
    obtain ⟨hne, hincreasing⟩ := h.productions_of_nonterminal hbuild hs hkind
    exact ⟨hne, hincreasing, h.freeze.alternatives hs⟩
  no_alternatives := h.productions_of_terminal
  distinct hi hj hhead hbody := by
    obtain ⟨p, hp, rfl⟩ := Builder.production?_freeze.mp hi
    obtain ⟨q, hq, rfl⟩ := Builder.production?_freeze.mp hj
    obtain rfl := h.eq_of_idAt hp hq hhead hbody
    exact hdistinct hp hq

/-- **A built grammar is what its builder asks for**, after every sequence of requests, granted or not. A terminal that was
registered on the way is in the grammar, under its number. -/
theorem Grammar.represents_of_build {requests : List Builder.Request} {g : Grammar}
    (hbuild : (Builder.after requests).build = .ok g) : g.Represents (Builder.after requests) ∧
    ∀ front back name id role, requests = front ++ .terminal name id role :: back →
      (Builder.addTerminal name id role (Builder.after front)).1 = .ok () →
      g.symbol? id = some { id, name, role, kind := .terminal, productions := [] } := by
  have h := Builder.wellFormed_after requests
  obtain rfl := Builder.build_eq_ok hbuild
  refine ⟨h.represents (Builder.distinct_after requests) hbuild, fun front back name id role hrequests hok => ?_⟩
  obtain ⟨i, s, hs, rfl, rfl, hterminal⟩ := Builder.exists_terminal_after hrequests hok
  have hsymbol := h.symbol?_idAt hs
  rw [Builder.idAt_terminal hs hterminal] at hsymbol
  rw [hsymbol, Builder.PendingSymbol.freeze, h.productions_eq_nil hs (by simp [hterminal]), hterminal]
  rfl

/-- Requests for nested parentheses, with a gap in the numbers of the terminals. A name, a number and a rule are given twice, and
a terminal is used as a head; these requests are refused. -/
def Builder.repeatedRequests : List Builder.Request :=
  [.terminal "(" 1 .common, .terminal "(" 4 .common, .terminal "[" 1 .common, .terminal ")" 3 .common,
    .symbols "$START$" ["S"], .symbols "S" ["(", "S", ")"], .production "S" "( S )", .symbols "(" ["S"], .symbols "S" []]

/-- The nonterminals fill the gap, and the end of the input and the empty symbol come after the terminals. -/
theorem Grammar.represents_of_build_repeated :
    let g := (Builder.after Builder.repeatedRequests).freeze
    (Builder.after Builder.repeatedRequests).build = .ok g ∧ g.Represents (Builder.after Builder.repeatedRequests) ∧
      g.symbol? 3 = some ⟨3, ")", .common, .terminal, []⟩ ∧ g.start = 0 ∧ g.productions.toList.map (·.head) = [0, 2, 2] ∧
      g.endOfInput = 4 ∧ g.empty = 5 := by
  intro g
  have hbuild : (Builder.after Builder.repeatedRequests).build = .ok g := Builder.build_of_isOk (by decide +kernel)
  obtain ⟨hrepresents, hterminals⟩ := Grammar.represents_of_build hbuild
  refine ⟨hbuild, hrepresents, ?_, by decide +kernel, by decide +kernel, by decide +kernel, by decide +kernel⟩
  exact hterminals (Builder.repeatedRequests.take 3) _ ")" 3 .common rfl (by decide +kernel)

end ShaderFront
