import Mathlib
import ShaderFront.Parse.Language
import ShaderFront.Proofs.Derivation

/-!
# The grammar of a language

The grammar of a language is its list of rules under numbers. Terminals keep their own numbers, different names have
different numbers, and the production at a position is the rule at that position with numbers for names
(`Language.Numbered`). A language of which a grammar is built has such a numbering (`Language.numbered`), if no terminal
stands for the empty string or the end of the input.

The proof follows the calls on the builder: each of them keeps what is known (`Builder.Keeps`) and the names apart
(`Builder.Lists`).
-/

namespace ShaderFront

namespace Builder

variable {b b' b'' : Builder} {terminals : List Terminal}

/-! ## Later builders -/

/-- A later builder knows all that an earlier one knows. -/
structure Keeps (b b' : Builder) : Prop where
  symbols : ∀ {i : Nat} {s : PendingSymbol}, b.symbols[i]? = some s → ∃ s', b'.symbols[i]? = some s' ∧
    s'.name = s.name ∧ s'.role = s.role ∧ s'.terminal = s.terminal
  productions : ∀ {id : ProductionId} {p : PendingProduction}, b.productions[id]? = some p → b'.productions[id]? = some p
  exclusions : ∀ i ∈ b.exclusions, i ∈ b'.exclusions

theorem Keeps.refl (b : Builder) : Keeps b b := ⟨fun hs => ⟨_, hs, rfl, rfl, rfl⟩, id, fun _ => id⟩

theorem Keeps.trans (h : Keeps b b') (h' : Keeps b' b'') : Keeps b b'' := by
  refine ⟨fun hs => ?_, fun hp => h'.productions (h.productions hp), fun i hi => h'.exclusions i (h.exclusions i hi)⟩
  obtain ⟨s', hs', hname, hrole, hterminal⟩ := h.symbols hs
  obtain ⟨s'', hs'', hname', hrole', hterminal'⟩ := h'.symbols hs'
  exact ⟨s'', hs'', hname'.trans hname, hrole'.trans hrole, hterminal'.trans hterminal⟩

/-- The symbol at an index has a name. -/
def Knows (b : Builder) (name : String) (i : Nat) : Prop := ∃ s, b.symbols[i]? = some s ∧ s.name = name

theorem Knows.keeps {name : String} {i : Nat} (h : b.Knows name i) (hb : Keeps b b') : b'.Knows name i := by
  obtain ⟨s, hs, rfl⟩ := h
  obtain ⟨s', hs', hname, -⟩ := hb.symbols hs
  exact ⟨s', hs', hname⟩

/-! ## Names -/

/-- The names of the symbols are different, its terminals are among some, and so are those it excludes from the wildcard. -/
structure Lists (terminals : List Terminal) (b : Builder) : Prop where
  unique : ∀ {i j : Nat} {name : String}, b.Knows name i → b.Knows name j → i = j
  registered : ∀ {i : Nat} {s : PendingSymbol} {id : SymbolId}, b.symbols[i]? = some s → s.terminal = some id →
    ∃ t ∈ terminals, t.name = s.name ∧ t.id = id ∧ t.role = s.role
  start : b.Knows Symbol.startName 0
  tame : ∀ i ∈ b.exclusions, ∃ t ∈ terminals, t.wild = false ∧ b.Knows t.name i

theorem indexOf?_eq_none {name : String} (h : b.indexOf? name = none) (i : Nat) : ¬b.Knows name i := by
  rintro ⟨s, hs, rfl⟩
  rw [indexOf?, Array.findIdx?_eq_none_iff] at h
  simpa using h s (Array.mem_of_getElem? hs)

theorem indexOf?_eq_some {name : String} {i : Nat} (h : b.indexOf? name = some i) : b.Knows name i := by
  obtain ⟨hlt, hname, -⟩ := Array.findIdx?_eq_some_iff_getElem.mp h
  exact ⟨_, Array.getElem?_eq_getElem hlt, by simpa using hname⟩

theorem Lists.indexOf? (h : b.Lists terminals) {name : String} {i : Nat} (hi : b.Knows name i) :
    b.indexOf? name = some i := by
  cases hindex : b.indexOf? name with
  | none => exact absurd hi (indexOf?_eq_none hindex i)
  | some j => rw [h.unique hi (indexOf?_eq_some hindex)]

theorem lists_new : Lists terminals {} := by
  refine ⟨?_, ?_, ⟨_, rfl, rfl⟩, List.forall_mem_nil _⟩
  · rintro i j name ⟨s, hs, -⟩ ⟨t, ht, -⟩
    rw [(getElem?_symbols_new hs).1, (getElem?_symbols_new ht).1]
  · intro i s id hs hterminal
    rw [(getElem?_symbols_new hs).2] at hterminal
    cases hterminal

/-- A symbol with a new name leaves the names apart. -/
theorem Knows.unique_push (hunique : ∀ {i j : Nat} {name : String}, b.Knows name i → b.Knows name j → i = j) {s : PendingSymbol}
    (hname : b.indexOf? s.name = none) {i j : Nat} {name : String} (hi : Knows { b with symbols := b.symbols.push s } name i)
    (hj : Knows { b with symbols := b.symbols.push s } name j) : i = j := by
  obtain ⟨u, hu, rfl⟩ := hi
  obtain ⟨v, hv, hvname⟩ := hj
  rcases getElem?_push_cases hu with hu' | ⟨rfl, rfl⟩ <;> rcases getElem?_push_cases hv with hv' | ⟨rfl, rfl⟩
  · exact hunique ⟨u, hu', rfl⟩ ⟨v, hv', hvname⟩
  · exact absurd ⟨u, hu', hvname.symm⟩ (indexOf?_eq_none hname i)
  · exact absurd ⟨v, hv', hvname⟩ (indexOf?_eq_none hname j)
  · rfl

/-- A symbol with a new name may be added. -/
theorem Lists.push (h : b.Lists terminals) {s : PendingSymbol} (hname : b.indexOf? s.name = none)
    (hterminal : ∀ id, s.terminal = some id → ∃ t ∈ terminals, t.name = s.name ∧ t.id = id ∧ t.role = s.role) :
    Keeps b { b with symbols := b.symbols.push s } ∧ Lists terminals { b with symbols := b.symbols.push s } ∧
      Knows { b with symbols := b.symbols.push s } s.name b.symbols.size := by
  have hkeeps : Keeps b { b with symbols := b.symbols.push s } :=
    ⟨fun hs => ⟨_, getElem?_push_of_some hs, rfl, rfl, rfl⟩, id, fun _ => id⟩
  refine ⟨hkeeps, ⟨Knows.unique_push h.unique hname, ?_, h.start.keeps hkeeps, fun i hi => ?_⟩, s, Array.getElem?_push_size, rfl⟩
  · intro i u id hu hid
    rcases getElem?_push_cases hu with hu | ⟨rfl, rfl⟩
    · exact h.registered hu hid
    · exact hterminal id hid
  · obtain ⟨t, ht, hwild, hknows⟩ := h.tame i hi
    exact ⟨t, ht, hwild, hknows.keeps hkeeps⟩

/-! ## Calls that succeed -/

theorem Lists.addTerminal (h : b.Lists terminals) {t : Terminal} (ht : t ∈ terminals)
    (hcall : addTerminal t.name t.id t.role b = (.ok (), b')) :
    Keeps b b' ∧ Lists terminals b' ∧ b'.productions = b.productions ∧
      ∃ (i : Nat) (s : PendingSymbol), b'.symbols[i]? = some s ∧ s.name = t.name ∧ s.terminal = some t.id ∧
        s.role = t.role := by
  unfold Builder.addTerminal at hcall
  split at hcall
  · cases hcall
  · rename_i hnone
    split at hcall
    · cases hcall
    · split at hcall
      · cases hcall
      · cases hcall
        obtain ⟨hkeeps, hlists, -⟩ := h.push
          (s := { name := t.name, role := t.role, terminal := some t.id }) (by simpa using hnone)
          (fun id hid => ⟨t, ht, rfl, Option.some.inj hid, rfl⟩)
        exact ⟨hkeeps, hlists, rfl, _, _, Array.getElem?_push_size, rfl, rfl, rfl⟩

theorem Lists.excludeFromWildcard (h : b.Lists terminals) {t : Terminal} (ht : t ∈ terminals) (hwild : t.wild = false)
    (hcall : excludeFromWildcard t.name b = (.ok (), b')) :
    Keeps b b' ∧ Lists terminals b' ∧ b'.productions = b.productions ∧
      ∃ i, b'.Knows t.name i ∧ i ∈ b'.exclusions := by
  unfold Builder.excludeFromWildcard at hcall
  split at hcall
  · rename_i index hindex
    have hknows := indexOf?_eq_some hindex
    split at hcall
    · split at hcall
      · rename_i hmem
        cases hcall
        exact ⟨Keeps.refl b, h, rfl, index, hknows, hmem⟩
      · cases hcall
        refine ⟨⟨fun hs => ⟨_, hs, rfl, rfl, rfl⟩, id, fun i hi => List.mem_append_left _ hi⟩,
          ⟨h.unique, h.registered, h.start, fun i hi => ?_⟩, rfl, index, hknows, by simp⟩
        rcases List.mem_append.mp hi with hi | hi
        · exact h.tame i hi
        · rw [List.mem_singleton.mp hi]
          exact ⟨t, ht, hwild, hknows⟩
    · cases hcall
  · cases hcall

theorem Lists.intern (h : b.Lists terminals) (name : String) : Keeps b (intern name b).2 ∧
    Lists terminals (intern name b).2 ∧ (intern name b).2.Knows name (intern name b).1 := by
  unfold Builder.intern
  split
  · rename_i index hindex
    exact ⟨Keeps.refl b, h, indexOf?_eq_some hindex⟩
  · rename_i hnone
    exact h.push (s := { name }) hnone (fun id hid => by cases hid)

theorem Lists.internAll : ∀ (names : List String) {b : Builder}, b.Lists terminals →
    Keeps b (internAll names b).2 ∧ Lists terminals (internAll names b).2 ∧
      List.Forall₂ (internAll names b).2.Knows names (internAll names b).1
  | [], b, h => ⟨Keeps.refl b, h, .nil⟩
  | name :: rest, b, h => by
    obtain ⟨hkeeps, hlists, hknows⟩ := h.intern name
    obtain ⟨hkeeps', hlists', hall⟩ := Lists.internAll rest hlists
    exact ⟨hkeeps.trans hkeeps', hlists', .cons (hknows.keeps hkeeps') hall⟩

/-- Without symbols for the empty string. -/
theorem Lists.isEmptyAt (h : b.Lists terminals) (wf : b.WellFormed) (hroles : ∀ t ∈ terminals, t.role ≠ .empty)
    (i : Nat) : b.isEmptyAt i = false := by
  cases hs : b.symbols[i]? with
  | none => simp [Builder.isEmptyAt, hs]
  | some s =>
    have hrole : s.role ≠ .empty := by
      intro hempty
      have hsome : s.terminal.isSome := by simpa [hempty] using wf.role_terminal hs
      obtain ⟨id, hid⟩ := Option.isSome_iff_exists.mp hsome
      obtain ⟨t, ht, -, -, hrole⟩ := h.registered hs hid
      exact hroles t ht (hrole.trans hempty)
    simp [Builder.isEmptyAt, hs, hrole]

theorem keeps_pushProduction (head : Nat) (body : List Nat) : Keeps b (b.pushProduction head body) :=
  ⟨pushProduction_symbols head body, getElem?_push_of_some, fun _ => id⟩

theorem Lists.pushProduction (h : b.Lists terminals) (head : Nat) (body : List Nat) :
    Lists terminals (b.pushProduction head body) := by
  refine ⟨?_, ?_, h.start.keeps (keeps_pushProduction head body), fun i hi => ?_⟩
  · rintro i j name ⟨s', hs', rfl⟩ ⟨t', ht', hname⟩
    obtain ⟨s, hs, hsname, -⟩ := symbols_pushProduction hs'
    obtain ⟨t, ht, htname, -⟩ := symbols_pushProduction ht'
    exact h.unique ⟨s, hs, hsname.symm⟩ ⟨t, ht, htname.symm.trans hname⟩
  · intro i s' id hs' hid
    obtain ⟨s, hs, hname, hrole, hterminal, -⟩ := symbols_pushProduction hs'
    obtain ⟨t, ht, htname, htid, htrole⟩ := h.registered hs (hterminal ▸ hid)
    exact ⟨t, ht, htname.trans hname.symm, htid, htrole.trans hrole.symm⟩
  · obtain ⟨t, ht, hwild, hknows⟩ := h.tame i hi
    exact ⟨t, ht, hwild, hknows.keeps (keeps_pushProduction head body)⟩

/-- Where no symbol stands for the empty string and the body does not name it, an alternative is all of its body. -/
theorem Lists.addProduction_eq (h : b.Lists terminals) (wf : b.WellFormed) (hroles : ∀ t ∈ terminals, t.role ≠ .empty)
    (head : String) {body : String} (hbody : Symbol.emptyName ∉ Text.words body) : Builder.addProduction head body b =
      let known := Builder.intern head b
      let interned := Builder.internAll (Text.words body) known.2
      if known.2.isTerminalAt known.1 then (.error (.terminalHead head), known.2)
      else if (interned.2.alternativesAt known.1).any (fun id => interned.2.productions[id]?.any (·.body = interned.1)) then
        (.error (.duplicateProduction head (" ".intercalate (Text.words body))), interned.2)
      else (.ok b.productions.size, interned.2.pushProduction known.1 interned.1) := by
  have hlists := (Lists.internAll (Text.words body) (h.intern head).2.1).2.1
  have wf₂ := WellFormed.internAll (Text.words body) (wf.intern head)
  have hnames : (Text.words body).filter (· ≠ Symbol.emptyName) = Text.words body := by
    refine List.filter_eq_self.mpr fun name hname => ?_
    simp only [ne_eq, decide_not, Bool.not_eq_true', decide_eq_false_iff_not]
    rintro rfl
    exact hbody hname
  have hindices : ∀ indices : List Nat, indices.filter
      (fun i => !(Builder.internAll (Text.words body) (Builder.intern head b).2).2.isEmptyAt i) = indices :=
    fun indices => List.filter_eq_self.mpr fun i _ => by simp [hlists.isEmptyAt wf₂ hroles i]
  have hproductions : (Builder.internAll (Text.words body) (Builder.intern head b).2).2.productions = b.productions :=
    (internAll_extends _ _).productions.trans (intern_extends head b).productions
  simp only [Builder.addProduction, Builder.addProductionSymbols, hnames, hindices]
  rw [← hproductions]
  rfl

/-- A new production and the names it is made of. -/
theorem Lists.addProduction (h : b.Lists terminals) (wf : b.WellFormed) (hroles : ∀ t ∈ terminals, t.role ≠ .empty)
    {head body : String} (hbody : Symbol.emptyName ∉ Text.words body) {id : ProductionId}
    (hcall : addProduction head body b = (.ok id, b')) : Keeps b b' ∧ Lists terminals b' ∧
      id = b.productions.size ∧ b'.productions.size = b.productions.size + 1 ∧
      ∃ p, b'.productions[id]? = some p ∧ b'.Knows head p.head ∧ List.Forall₂ b'.Knows (Text.words body) p.body := by
  rw [h.addProduction_eq wf hroles head hbody] at hcall
  obtain ⟨hkeeps₁, hlists₁, hhead⟩ := h.intern head
  obtain ⟨hkeeps₂, hlists₂, hall⟩ := Lists.internAll (Text.words body) hlists₁
  have hproductions : (Builder.internAll (Text.words body) (Builder.intern head b).2).2.productions = b.productions :=
    (internAll_extends _ _).productions.trans (intern_extends head b).productions
  dsimp only at hcall
  split at hcall
  · cases hcall
  · split at hcall
    · cases hcall
    · cases hcall
      have hkeeps₃ := @keeps_pushProduction (Builder.internAll (Text.words body) (Builder.intern head b).2).2
        (Builder.intern head b).1 (Builder.internAll (Text.words body) (Builder.intern head b).2).1
      refine ⟨(hkeeps₁.trans hkeeps₂).trans hkeeps₃, hlists₂.pushProduction _ _, rfl, ?_, ?_⟩
      · rw [Builder.pushProduction, Array.size_push, hproductions]
      · refine ⟨⟨_, _⟩, ?_, (hhead.keeps hkeeps₂).keeps hkeeps₃, hall.imp fun _ _ hknows => hknows.keeps hkeeps₃⟩
        rw [Builder.pushProduction, ← hproductions]
        exact Array.getElem?_push_size

/-- Rules added one after the other. -/
theorem Lists.addRulesFrom (hroles : ∀ t ∈ terminals, t.role ≠ .empty) : ∀ (rules : List (String × String))
    (index : Nat) {b b' : Builder}, b.Lists terminals → b.WellFormed → (∀ r ∈ rules, Symbol.emptyName ∉ Text.words r.2) →
    index = b.productions.size → addRulesFrom index rules b = (.ok (), b') →
    Keeps b b' ∧ Lists terminals b' ∧ b'.productions.size = b.productions.size + rules.length ∧
      ∀ k r, rules[k]? = some r → ∃ p, b'.productions[index + k]? = some p ∧ b'.Knows r.1 p.head ∧
        List.Forall₂ b'.Knows (Text.words r.2) p.body
  | [], index, b, b', h, _, _, _, hcall => by
    cases hcall
    exact ⟨Keeps.refl b, h, by simp, by simp⟩
  | (head, body) :: rest, index, b, b', h, wf, hwords, hindex, hcall => by
    unfold Builder.addRulesFrom at hcall
    split at hcall
    · cases hcall
    · rename_i id b₁ hadd
      have wf₁ : b₁.WellFormed := by
        have := wf.addProductionSymbols head (Text.words body)
        rwa [← Builder.addProduction, hadd] at this
      obtain ⟨hkeeps, hlists, hid, hsize, p, hp, hhead, hbody⟩ :=
        h.addProduction wf hroles (hwords _ List.mem_cons_self) hadd
      split at hcall
      · obtain ⟨hkeeps', hlists', hsize', hrules⟩ := Lists.addRulesFrom hroles rest (index + 1) hlists wf₁
          (fun r hr => hwords r (List.mem_cons_of_mem _ hr)) (by omega) hcall
        refine ⟨hkeeps.trans hkeeps', hlists', by simp; omega, fun k r hr => ?_⟩
        cases k with
        | zero =>
          cases hr
          refine ⟨p, ?_, hhead.keeps hkeeps', hbody.imp fun _ _ hknows => hknows.keeps hkeeps'⟩
          rw [Nat.add_zero, hindex, ← hid]
          exact hkeeps'.productions hp
        | succ k =>
          obtain ⟨q, hq, hqhead, hqbody⟩ := hrules k r hr
          exact ⟨q, by rwa [Nat.add_comm k 1, ← Nat.add_assoc], hqhead, hqbody⟩
      · cases hcall

/-! ## Calls of a language -/

/-- Calls made in turn succeed if each of them does. -/
theorem calls_append {calls calls' : List (Call Unit)} (h : Builder.calls (calls ++ calls') b = (.ok (), b'')) :
    ∃ b', Builder.calls calls b = (.ok (), b') ∧ Builder.calls calls' b' = (.ok (), b'') := by
  induction calls generalizing b with
  | nil => exact ⟨b, rfl, h⟩
  | cons call rest ih =>
    rw [List.cons_append, Builder.calls] at h
    rw [Builder.calls]
    split at h
    · exact ih h
    · cases h

/-- Every terminal is registered. -/
theorem Lists.register : ∀ (ts : List Terminal) {b b' : Builder}, b.Lists terminals → b.WellFormed → ts ⊆ terminals →
    Builder.calls (ts.map fun t => Builder.addTerminal t.name t.id t.role) b = (.ok (), b') →
    Keeps b b' ∧ Lists terminals b' ∧ b'.WellFormed ∧ b'.productions = b.productions ∧
      ∀ t ∈ ts, ∃ (i : Nat) (s : PendingSymbol), b'.symbols[i]? = some s ∧ s.name = t.name ∧ s.terminal = some t.id ∧
        s.role = t.role
  | [], b, b', h, wf, _, hcalls => by
    cases hcalls
    exact ⟨Keeps.refl b, h, wf, rfl, by simp⟩
  | t :: rest, b, b', h, wf, hsub, hcalls => by
    rw [List.map_cons, Builder.calls] at hcalls
    split at hcalls
    · rename_i b₁ hcall
      obtain ⟨hkeeps, hlists, hproductions, i, s, hs, hname, hterminal, hrole⟩ :=
        h.addTerminal (hsub List.mem_cons_self) hcall
      have wf₁ : b₁.WellFormed := by
        have := wf.addTerminal t.name t.id t.role
        rwa [hcall] at this
      obtain ⟨hkeeps', hlists', wf', hproductions', hrest⟩ :=
        Lists.register rest hlists wf₁ (fun u hu => hsub (List.mem_cons_of_mem t hu)) hcalls
      refine ⟨hkeeps.trans hkeeps', hlists', wf', hproductions'.trans hproductions, fun u hu => ?_⟩
      rcases List.mem_cons.mp hu with rfl | hu
      · obtain ⟨s', hs', hname', hrole', hterminal'⟩ := hkeeps'.symbols hs
        exact ⟨i, s', hs', hname'.trans hname, hterminal'.trans hterminal, hrole'.trans hrole⟩
      · exact hrest u hu
    · cases hcalls

/-- The wildcard does not stand in for some terminals. -/
theorem Lists.exclude : ∀ (ts : List Terminal) {b b' : Builder}, b.Lists terminals → b.WellFormed →
    (∀ t ∈ ts, t ∈ terminals ∧ t.wild = false) →
    Builder.calls (ts.map fun t => Builder.excludeFromWildcard t.name) b = (.ok (), b') →
    Keeps b b' ∧ Lists terminals b' ∧ b'.WellFormed ∧ b'.productions = b.productions ∧
      ∀ t ∈ ts, ∃ i, b'.Knows t.name i ∧ i ∈ b'.exclusions
  | [], b, b', h, wf, _, hcalls => by
    cases hcalls
    exact ⟨Keeps.refl b, h, wf, rfl, by simp⟩
  | t :: rest, b, b', h, wf, hts, hcalls => by
    rw [List.map_cons, Builder.calls] at hcalls
    obtain ⟨⟨ht, hwild⟩, hts⟩ := List.forall_mem_cons.mp hts
    split at hcalls
    · rename_i b₁ hcall
      obtain ⟨hkeeps, hlists, hproductions, i, hknows, hmem⟩ := h.excludeFromWildcard ht hwild hcall
      have wf₁ : b₁.WellFormed := by
        have := wf.excludeFromWildcard t.name
        rwa [hcall] at this
      obtain ⟨hkeeps', hlists', wf', hproductions', hrest⟩ := Lists.exclude rest hlists wf₁ hts hcalls
      refine ⟨hkeeps.trans hkeeps', hlists', wf', hproductions'.trans hproductions, fun other hother => ?_⟩
      rcases List.mem_cons.mp hother with rfl | hother
      · exact ⟨i, hknows.keeps hkeeps', hkeeps'.exclusions i hmem⟩
      · exact hrest other hother
    · cases hcalls

/-- A terminal is known by its own number. -/
theorem assignIds_terminal : ∀ (l : List PendingSymbol) (used : List SymbolId) {i : Nat} {s : PendingSymbol}
    {id : SymbolId}, l[i]? = some s → s.terminal = some id → (assignIds l used).1[i]? = some id
  | [], _, i, _, _, hs, _ => by simp at hs
  | t :: rest, used, i, s, id, hs, hid => by
    unfold assignIds
    cases i with
    | zero =>
      cases hs
      simp [hid]
    | succ i =>
      cases ht : t.terminal with
      | some id' => simpa [ht] using assignIds_terminal rest used hs hid
      | none => simpa [ht] using assignIds_terminal rest (leastFree used :: used) hs hid

theorem idAt_terminal {i : Nat} {s : PendingSymbol} {id : SymbolId} (hs : b.symbols[i]? = some s)
    (hid : s.terminal = some id) : b.idAt i = id := by
  have h := assignIds_terminal b.symbols.toList (b.symbols.toList.filterMap (·.terminal)) (by simpa using hs) hid
  rw [idAt, pendingIds]
  simp [h]

end Builder

/-! ## Numberings -/

namespace Language

variable {N : Type} {l : Language N}

/-- A name stands for a terminal or in a rule. -/
def Uses (l : Language N) (name : String) : Prop :=
  name = Symbol.startName ∨ (∃ t ∈ l.terminals, t.name = name) ∨ ∃ r ∈ l.rules, name = r.head ∨ name ∈ Text.words r.body

/-- A grammar is the rules of a language with numbers for names. -/
structure Numbered (l : Language N) (g : Grammar) (number : String → SymbolId) : Prop where
  wellFormed : g.WellFormed
  rule : ∀ {k : Nat} {r : Rule N}, l.rules[k]? = some r →
    g.production? k = some ⟨k, number r.head, (Text.words r.body).map number⟩
  production : ∀ {k : Nat} {p : Production}, g.production? k = some p → k < l.rules.length
  injective : ∀ {a b : String}, l.Uses a → l.Uses b → number a = number b → a = b
  terminal : ∀ t ∈ l.terminals, number t.name = t.id
  isTerminal : ∀ {name : String}, l.Uses name →
    (g.isTerminal (number name) = true ↔ ∃ t ∈ l.terminals, t.name = name)
  start : g.start = number Symbol.startName
  endOfInput : ∀ {name : String}, l.Uses name → number name ≠ g.endOfInput
  wildcard : ∀ {symbol : SymbolId}, g.wildcard = some symbol → ∃ t ∈ l.terminals, t.role = .wildcard ∧ t.id = symbol
  wildcard_isSome : ∀ t ∈ l.terminals, t.role = .wildcard → g.wildcard.isSome
  excluded : ∀ t ∈ l.terminals, t.wild = false → t.id ∈ g.exclusions
  tame : ∀ symbol ∈ g.exclusions, ∃ t ∈ l.terminals, t.wild = false ∧ t.id = symbol

/-- What the builder of a language knows in the end. -/
structure Built (l : Language N) (b : Builder) : Prop where
  wellFormed : b.WellFormed
  lists : b.Lists l.terminals
  terminal : ∀ t ∈ l.terminals, ∃ (i : Nat) (s : PendingSymbol), b.symbols[i]? = some s ∧ s.name = t.name ∧
    s.terminal = some t.id ∧ s.role = t.role
  excluded : ∀ t ∈ l.terminals, t.wild = false → ∃ i, b.Knows t.name i ∧ i ∈ b.exclusions
  size : b.productions.size = l.rules.length
  rule : ∀ {k : Nat} {r : Rule N}, l.rules[k]? = some r → ∃ p, b.productions[k]? = some p ∧ b.Knows r.head p.head ∧
    List.Forall₂ b.Knows (Text.words r.body) p.body

theorem built (hroles : ∀ t ∈ l.terminals, t.role ≠ .empty) (hwords : ∀ r ∈ l.rules, Symbol.emptyName ∉ Text.words r.body)
    {g : Grammar} (h : l.grammar = .ok g) : ∃ b, l.Built b ∧ g = b.freeze := by
  unfold Language.grammar at h
  simp only at h
  split at h
  · rename_i b hcalls
    obtain ⟨b₂, hcalls₂, hrules⟩ := Builder.calls_append hcalls
    obtain ⟨b₁, hregister, hexclude⟩ := Builder.calls_append hcalls₂
    have hadd : Builder.addRules (l.rules.map fun r => (r.head, r.body)) b₂ = (.ok (), b) := by
      rw [Builder.calls] at hrules
      split at hrules
      · rename_i b₃ hcall
        rw [hcall]
        exact hrules
      · cases hrules
    obtain ⟨-, hlists₁, wf₁, hproductions₁, hterminals⟩ :=
      Builder.Lists.register l.terminals Builder.lists_new Builder.wellFormed_new (List.Subset.refl _) hregister
    obtain ⟨hkeeps₂, hlists₂, wf₂, hproductions₂, hexcluded⟩ :=
      Builder.Lists.exclude (l.terminals.filter (!·.wild)) hlists₁ wf₁ (fun t ht => by simpa using ht) hexclude
    have hempty : b₂.productions.size = 0 := by rw [hproductions₂, hproductions₁]; rfl
    obtain ⟨hkeeps₃, hlists₃, hsize, hproduction⟩ :=
      Builder.Lists.addRulesFrom hroles _ 0 hlists₂ wf₂ (by simpa using hwords) hempty.symm hadd
    have wf₃ : b.WellFormed := by
      have := Builder.WellFormed.addRulesFrom (l.rules.map fun r => (r.head, r.body)) 0 wf₂
      rwa [show Builder.addRulesFrom 0 _ b₂ = (.ok (), b) from hadd] at this
    refine ⟨b, ⟨wf₃, hlists₃, fun t ht => ?_, fun t ht hwild => ?_, by simpa [hempty] using hsize, fun {k r} hr => ?_⟩,
      Builder.build_eq_ok h⟩
    · obtain ⟨i, s, hs, hname, hid, hrole⟩ := hterminals t ht
      obtain ⟨s', hs', hname', hrole', hid'⟩ := (hkeeps₂.trans hkeeps₃).symbols hs
      exact ⟨i, s', hs', hname'.trans hname, hid'.trans hid, hrole'.trans hrole⟩
    · obtain ⟨i, hknows, hmem⟩ := hexcluded t (List.mem_filter.mpr ⟨ht, by simp [hwild]⟩)
      exact ⟨i, hknows.keeps hkeeps₃, hkeeps₃.exclusions i hmem⟩
    · simpa using hproduction k (r.head, r.body) (by simp [hr])
  · cases h

/-- The number of a name. -/
def numberIn (b : Builder) (name : String) : SymbolId := b.idAt ((b.indexOf? name).getD 0)

variable {b : Builder}

theorem Built.numberIn (h : l.Built b) {name : String} {i : Nat} (hi : b.Knows name i) :
    numberIn b name = b.idAt i := by
  rw [Language.numberIn, h.lists.indexOf? hi]
  rfl

theorem exists_of_forall₂ {names : List String} {indices : List Nat}
    (h : List.Forall₂ b.Knows names indices) {name : String} (hname : name ∈ names) : ∃ i, b.Knows name i := by
  induction h with
  | nil => cases hname
  | cons hknows _ ih =>
    rcases List.mem_cons.mp hname with rfl | hname
    · exact ⟨_, hknows⟩
    · exact ih hname

theorem Built.map_numberIn (h : l.Built b) {names : List String} {indices : List Nat}
    (hall : List.Forall₂ b.Knows names indices) : indices.map b.idAt = names.map (Language.numberIn b) := by
  induction hall with
  | nil => rfl
  | cons hknows _ ih => rw [List.map_cons, List.map_cons, ih, h.numberIn hknows]

theorem Built.exists_knows (h : l.Built b) {name : String} (huses : l.Uses name) : ∃ i, b.Knows name i := by
  rcases huses with rfl | ⟨t, ht, rfl⟩ | ⟨r, hr, hname⟩
  · exact ⟨0, h.lists.start⟩
  · obtain ⟨i, s, hs, hname, -⟩ := h.terminal t ht
    exact ⟨i, s, hs, hname⟩
  · obtain ⟨k, hk⟩ := List.mem_iff_getElem?.mp hr
    obtain ⟨p, -, hhead, hbody⟩ := h.rule hk
    rcases hname with rfl | hname
    · exact ⟨p.head, hhead⟩
    · exact exists_of_forall₂ hbody hname

theorem Built.role_ne (h : l.Built b) (hroles : ∀ t ∈ l.terminals, t.role ≠ .empty ∧ t.role ≠ .endOfInput) {i : Nat}
    {s : PendingSymbol} (hs : b.symbols[i]? = some s) : s.role ≠ .endOfInput := by
  intro hrole
  have hsome : s.terminal.isSome := by simpa [hrole] using h.wellFormed.role_terminal hs
  obtain ⟨id, hid⟩ := Option.isSome_iff_exists.mp hsome
  obtain ⟨t, ht, -, -, htrole⟩ := h.lists.registered hs hid
  exact (hroles t ht).2 (htrole.trans hrole)

theorem Built.production?_rule (h : l.Built b) {k : Nat} {r : Rule N} (hr : l.rules[k]? = some r) : b.freeze.production? k =
    some ⟨k, Language.numberIn b r.head, (Text.words r.body).map (Language.numberIn b)⟩ := by
  obtain ⟨p, hp, hhead, hbody⟩ := h.rule hr
  exact Builder.production?_freeze.mpr ⟨p, hp, by rw [h.numberIn hhead, h.map_numberIn hbody]⟩

theorem Built.lt_of_production? (h : l.Built b) {k : Nat} {p : Production} (hp : b.freeze.production? k = some p) :
    k < l.rules.length := by
  obtain ⟨q, hq, -⟩ := Builder.production?_freeze.mp hp
  rw [← h.size]
  exact (Array.getElem?_eq_some_iff.mp hq).1

theorem Built.numberIn_inj (h : l.Built b) {x y : String} (hx : l.Uses x) (hy : l.Uses y)
    (heq : Language.numberIn b x = Language.numberIn b y) : x = y := by
  obtain ⟨i, s, hs, rfl⟩ := h.exists_knows hx
  obtain ⟨j, t, ht, rfl⟩ := h.exists_knows hy
  rw [h.numberIn ⟨s, hs, rfl⟩, h.numberIn ⟨t, ht, rfl⟩] at heq
  obtain rfl := h.wellFormed.idAt_inj hs ht heq
  rw [hs] at ht
  cases ht
  rfl

/-- A terminal keeps its number. -/
theorem Built.numberIn_terminal (h : l.Built b) {t : Terminal} (ht : t ∈ l.terminals) : Language.numberIn b t.name = t.id := by
  obtain ⟨i, s, hs, hname, hid, -⟩ := h.terminal t ht
  rw [h.numberIn ⟨s, hs, hname⟩]
  exact Builder.idAt_terminal hs hid

theorem Built.isTerminal_numberIn (h : l.Built b) {name : String} (huses : l.Uses name) :
    b.freeze.isTerminal (Language.numberIn b name) = true ↔ ∃ t ∈ l.terminals, t.name = name := by
  obtain ⟨i, s, hs, rfl⟩ := h.exists_knows huses
  rw [h.numberIn ⟨s, hs, rfl⟩, Grammar.isTerminal, h.wellFormed.symbol?_idAt hs]
  constructor
  · intro hterminal
    have hsome : s.terminal ≠ none := by simpa [Symbol.isTerminal, Builder.PendingSymbol.freeze] using hterminal
    obtain ⟨id, hid⟩ := Option.ne_none_iff_exists'.mp hsome
    obtain ⟨t, ht, hname, -⟩ := h.lists.registered hs hid
    exact ⟨t, ht, hname⟩
  · rintro ⟨t, ht, hname⟩
    obtain ⟨j, s', hs', hname', hid, -⟩ := h.terminal t ht
    obtain rfl := h.lists.unique ⟨s, hs, rfl⟩ ⟨s', hs', hname'.trans hname⟩
    rw [hs] at hs'
    cases hs'
    simp [Symbol.isTerminal, Builder.PendingSymbol.freeze, hid]

/-- No name of the language stands for the end of the input, which was added when the grammar was built. -/
theorem Built.numberIn_ne_endOfInput (h : l.Built b) (hroles : ∀ t ∈ l.terminals, t.role ≠ .empty ∧ t.role ≠ .endOfInput)
    {name : String} (huses : l.Uses name) : Language.numberIn b name ≠ b.freeze.endOfInput := by
  intro heq
  obtain ⟨i, s, hs, rfl⟩ := h.exists_knows huses
  obtain ⟨e, he, heid, herole⟩ := b.endOfInput_freeze
  rw [h.numberIn ⟨s, hs, rfl⟩, ← heid] at heq
  obtain ⟨hmem, -⟩ := h.wellFormed.symbol?_freeze.mp (h.wellFormed.symbol?_idAt hs)
  exact h.wellFormed.id_ne_of_role hmem he (by rw [herole]; exact h.role_ne hroles hs) heq

theorem Built.exists_wildcard (h : l.Built b) {symbol : SymbolId} (hsymbol : b.freeze.wildcard = some symbol) :
    ∃ t ∈ l.terminals, t.role = .wildcard ∧ t.id = symbol := by
  obtain ⟨s, hs, rfl⟩ := Option.map_eq_some_iff.mp hsymbol
  have hmem : s ∈ b.frozenEmpty.2.1 := List.mem_of_find?_eq_some hs
  have hwild : s.role = .wildcard := by simpa using List.find?_some hs
  rcases Builder.mem_frozen hmem with hpending | ⟨-, -, hend | hempty⟩
  · obtain ⟨i, u, hu, rfl⟩ := Builder.mem_frozenPending.mp hpending
    have hwild' : u.role = .wildcard := hwild
    have hsome : u.terminal.isSome := by simpa [hwild'] using h.wellFormed.role_terminal hu
    obtain ⟨id, hid⟩ := Option.isSome_iff_exists.mp hsome
    obtain ⟨t, ht, -, htid, htrole⟩ := h.lists.registered hu hid
    exact ⟨t, ht, htrole.trans hwild', htid.trans (Builder.idAt_terminal hu hid).symm⟩
  · rw [hend] at hwild
    cases hwild
  · rw [hempty] at hwild
    cases hwild

theorem Built.wildcard_isSome (h : l.Built b) {t : Terminal} (ht : t ∈ l.terminals) (hrole : t.role = .wildcard) :
    b.freeze.wildcard.isSome := by
  obtain ⟨i, s, hs, hname, hid, hsrole⟩ := h.terminal t ht
  obtain ⟨hmem, -⟩ := h.wellFormed.symbol?_freeze.mp (h.wellFormed.symbol?_idAt hs)
  refine (Option.isSome_map ..).trans (List.find?_isSome.mpr ⟨_, hmem, ?_⟩)
  exact decide_eq_true (hsrole.trans hrole)

/-- The grammar excludes the terminals that are not wild, and no others. -/
theorem Built.mem_exclusions (h : l.Built b) {symbol : SymbolId} :
    symbol ∈ b.freeze.exclusions ↔ ∃ t ∈ l.terminals, t.wild = false ∧ t.id = symbol := by
  constructor
  · intro hsymbol
    obtain ⟨i, hmem, rfl⟩ := List.mem_map.mp (OrderedSet.mem_ofList.mp hsymbol)
    obtain ⟨t, ht, hwild, hknows⟩ := h.lists.tame i hmem
    obtain ⟨j, s, hs, hname, hid, -⟩ := h.terminal t ht
    obtain rfl := h.lists.unique hknows ⟨s, hs, hname⟩
    exact ⟨t, ht, hwild, (Builder.idAt_terminal hs hid).symm⟩
  · rintro ⟨t, ht, hwild, rfl⟩
    obtain ⟨i, hknows, hmem⟩ := h.excluded t ht hwild
    obtain ⟨j, s, hs, hname, hid, -⟩ := h.terminal t ht
    obtain rfl := h.lists.unique hknows ⟨s, hs, hname⟩
    refine OrderedSet.mem_ofList.mpr ?_
    rw [← Builder.idAt_terminal hs hid]
    exact List.mem_map_of_mem hmem

/-- **The grammar of a language is its rules with numbers for names.** -/
theorem numbered (hroles : ∀ t ∈ l.terminals, t.role ≠ .empty ∧ t.role ≠ .endOfInput)
    (hwords : ∀ r ∈ l.rules, Symbol.emptyName ∉ Text.words r.body) {g : Grammar} (h : l.grammar = .ok g) :
    ∃ number, l.Numbered g number := by
  obtain ⟨b, hb, rfl⟩ := built (fun t ht => (hroles t ht).1) hwords h
  exact ⟨numberIn b,
    { wellFormed := hb.wellFormed.freeze
      rule := hb.production?_rule
      production := hb.lt_of_production?
      injective := hb.numberIn_inj
      terminal := fun _ => hb.numberIn_terminal
      isTerminal := hb.isTerminal_numberIn
      start := (hb.numberIn hb.lists.start).symm
      endOfInput := hb.numberIn_ne_endOfInput hroles
      wildcard := hb.exists_wildcard
      wildcard_isSome := fun _ => hb.wildcard_isSome
      excluded := fun t ht hwild => hb.mem_exclusions.mpr ⟨t, ht, hwild, rfl⟩
      tame := fun _ => hb.mem_exclusions.mp }⟩

end Language

end ShaderFront
