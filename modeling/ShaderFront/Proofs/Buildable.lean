import Mathlib
import ShaderFront.Proofs.Attributes

/-!
# Languages that have a grammar

The builder refuses names and numbers that are taken, rules that stand twice, and names without a rule. A language in which
nothing of the kind occurs (`Language.IsSound`) has a grammar (`Language.IsSound.exists_grammar`).

The proof makes the calls one after the other. After each of them the symbols of the builder are known: the start symbol, the
terminals registered so far, and the names of the rules added so far (`Builder.Holds`).
-/

namespace ShaderFront

namespace Builder

variable {N : Type} {b b' : Builder} {terminals : List Terminal}

theorem calls_of_append {b'' : Builder} {calls calls' : List (Call Unit)} (h : Builder.calls calls b = (.ok (), b'))
    (h' : Builder.calls calls' b' = (.ok (), b'')) : Builder.calls (calls ++ calls') b = (.ok (), b'') := by
  induction calls generalizing b with
  | nil =>
    cases h
    exact h'
  | cons call rest ih =>
    rw [Builder.calls] at h
    rw [List.cons_append, Builder.calls]
    split at h
    · exact ih h
    · cases h

theorem indexOf?_eq_none_of_forall {name : String} (h : ∀ i, ¬b.Knows name i) : b.indexOf? name = none := by
  cases hindex : b.indexOf? name with
  | none => rfl
  | some i => exact absurd (indexOf?_eq_some hindex) (h i)

/-! ## Terminals -/

/-- The symbols of a builder are the start symbol and some terminals. -/
def Holds (b : Builder) (done : List Terminal) : Prop :=
  ∀ {i : Nat} {s : PendingSymbol}, b.symbols[i]? = some s → s.name = Symbol.startName ∧ s.terminal = none ∧ s.role = .start ∨
    ∃ t ∈ done, s.name = t.name ∧ s.terminal = some t.id ∧ s.role = t.role

theorem holds_new : Holds {} [] := by
  intro i s hs
  cases i with
  | zero =>
    cases hs
    exact .inl ⟨rfl, rfl, rfl⟩
  | succ i => simp at hs

/-- What two terminals of a language have to be different in. -/
structure Differ (t u : Terminal) : Prop where
  name : t.name ≠ u.name
  id : t.id ≠ u.id
  role : t.role ≠ .common → t.role ≠ u.role

/-- A terminal that differs from those before it is registered. -/
theorem Holds.addTerminal {done : List Terminal} (h : b.Holds done) {t : Terminal} (hname : t.name ≠ Symbol.startName)
    (hrole : t.role ≠ .start) (hdiffer : ∀ u ∈ done, Differ t u) :
    ∃ b', Builder.addTerminal t.name t.id t.role b = (.ok (), b') ∧ b'.Holds (t :: done) := by
  have hindex : b.indexOf? t.name = none := by
    refine indexOf?_eq_none_of_forall ?_
    rintro i ⟨s, hs, heq⟩
    rcases h hs with ⟨hstart, -, -⟩ | ⟨u, hu, huname, -⟩
    · exact hname (heq.symm.trans hstart)
    · exact (hdiffer u hu).name (heq.symm.trans huname)
  have hid : b.terminalWithId? t.id = none := by
    rw [terminalWithId?, Option.map_eq_none_iff, Array.find?_eq_none]
    intro s hs hterminal
    obtain ⟨i, hi⟩ := Array.getElem?_of_mem hs
    rw [decide_eq_true_eq] at hterminal
    rcases h hi with ⟨-, hnone, -⟩ | ⟨u, hu, -, huid, -⟩
    · cases hnone.symm.trans hterminal
    · exact (hdiffer u hu).id (Option.some.inj (hterminal.symm.trans huid))
  have hroles : (t.role ≠ .common && b.symbols.any (·.role = t.role)) = false := by
    rw [Bool.and_eq_false_imp]
    intro hspecial
    rw [Bool.eq_false_iff]
    intro hany
    obtain ⟨i, hi, heq⟩ := Array.any_eq_true.mp hany
    have hrole' := of_decide_eq_true heq
    rcases h (Array.getElem?_eq_getElem hi) with ⟨-, -, hstart⟩ | ⟨u, hu, -, -, hurole⟩
    · exact hrole (hrole'.symm.trans hstart)
    · exact (hdiffer u hu).role (of_decide_eq_true hspecial) (hrole'.symm.trans hurole)
  refine ⟨{ b with symbols := b.symbols.push { name := t.name, role := t.role, terminal := some t.id } }, ?_, ?_⟩
  · simp only [Builder.addTerminal, hindex, hid, hroles]
    rfl
  · intro i s hs
    rcases getElem?_push_cases hs with hs | ⟨rfl, rfl⟩
    · refine (h hs).imp id ?_
      rintro ⟨u, hu, hsame⟩
      exact ⟨u, List.mem_cons_of_mem t hu, hsame⟩
    · exact .inr ⟨t, List.mem_cons_self, rfl, rfl, rfl⟩

theorem Holds.register : ∀ (ts : List Terminal) {done : List Terminal} {b : Builder}, b.Holds done →
    (∀ t ∈ ts, t.name ≠ Symbol.startName ∧ t.role ≠ .start) → (∀ t ∈ ts, ∀ u ∈ done, Differ t u) →
    ts.Pairwise (fun t u => Differ u t) →
    ∃ b', Builder.calls (ts.map fun t => Builder.addTerminal t.name t.id t.role) b = (.ok (), b') ∧
      b'.Holds (ts.reverse ++ done)
  | [], _, b, h, _, _, _ => ⟨b, rfl, h⟩
  | t :: ts, done, b, h, hnames, hdiffer, hpairwise => by
    obtain ⟨hname, hnames⟩ := List.forall_mem_cons.mp hnames
    obtain ⟨hfirst, hdiffer⟩ := List.forall_mem_cons.mp hdiffer
    obtain ⟨hlater, hpairwise⟩ := List.pairwise_cons.mp hpairwise
    obtain ⟨b₁, hcall, hb₁⟩ := h.addTerminal hname.1 hname.2 hfirst
    obtain ⟨b₂, hcalls, hb₂⟩ := Holds.register ts hb₁ hnames
      (fun u hu => List.forall_mem_cons.mpr ⟨hlater u hu, hdiffer u hu⟩) hpairwise
    refine ⟨b₂, ?_, ?_⟩
    · rw [List.map_cons, Builder.calls, hcall]
      exact hcalls
    · rw [List.reverse_cons, List.append_assoc, List.singleton_append]
      exact hb₂

/-! ## Exclusions -/

theorem exclude_ok : ∀ (names : List String) {b : Builder},
    (∀ name ∈ names, ∃ i, b.indexOf? name = some i ∧ b.isTerminalAt i = true) →
    ∃ b', Builder.calls (names.map Builder.excludeFromWildcard) b = (.ok (), b') ∧ b'.symbols = b.symbols
  | [], b, _ => ⟨b, rfl, rfl⟩
  | name :: names, b, h => by
    obtain ⟨⟨i, hindex, hterminal⟩, hnames⟩ := List.forall_mem_cons.mp h
    obtain ⟨b₁, hcall, hsymbols⟩ : ∃ b₁, Builder.excludeFromWildcard name b = (.ok (), b₁) ∧ b₁.symbols = b.symbols := by
      refine ⟨if i ∈ b.exclusions then b else { b with exclusions := b.exclusions ++ [i] }, ?_, ?_⟩
      · simp only [Builder.excludeFromWildcard, hindex, hterminal, if_true]
      · split <;> rfl
    obtain ⟨b₂, hcalls, hsymbols'⟩ := exclude_ok names (b := b₁) (by
      simpa only [Builder.indexOf?, Builder.isTerminalAt, hsymbols] using hnames)
    refine ⟨b₂, ?_, hsymbols'.trans hsymbols⟩
    rw [List.map_cons, Builder.calls, hcall]
    exact hcalls

/-! ## Rules -/

theorem Knows.unique {name name' : String} {i : Nat} (h : b.Knows name i) (h' : b.Knows name' i) : name = name' := by
  obtain ⟨s, hs, rfl⟩ := h
  obtain ⟨s', hs', rfl⟩ := h'
  cases hs.symm.trans hs'
  rfl

theorem forall₂_knows_unique {names names' : List String} {indices : List Nat} (h : List.Forall₂ b.Knows names indices)
    (h' : List.Forall₂ b.Knows names' indices) : names = names' := by
  induction h generalizing names' with
  | nil =>
    cases h'
    rfl
  | cons hfirst _ ih =>
    cases h' with
    | cons hfirst' hrest' => rw [hfirst.unique hfirst', ih hrest']

theorem intern_cases {name : String} {i : Nat} {s : PendingSymbol} (h : (intern name b).2.symbols[i]? = some s) :
    b.symbols[i]? = some s ∨ s = { name } := by
  unfold Builder.intern at h
  split at h
  · exact .inl h
  · exact (getElem?_push_cases h).imp id And.right

theorem internAll_cases : ∀ {names : List String} {b : Builder} {i : Nat} {s : PendingSymbol},
    (internAll names b).2.symbols[i]? = some s → b.symbols[i]? = some s ∨ ∃ name ∈ names, s = { name }
  | [], _, _, _, h => .inl h
  | name :: rest, b, i, s, h => by
    have h : (internAll rest (intern name b).2).2.symbols[i]? = some s := h
    rcases internAll_cases h with h | ⟨other, hother, heq⟩
    · exact (intern_cases h).imp id fun heq => ⟨name, List.mem_cons_self, heq⟩
    · exact .inr ⟨other, List.mem_cons_of_mem name hother, heq⟩

/-- What a builder knows after some rules, in which all names are allowed. -/
structure Written (terminals : List Terminal) (allowed : String → Prop) (rules : List (String × String)) (b : Builder) :
    Prop where
  lists : b.Lists terminals
  wellFormed : b.WellFormed
  size : b.productions.size = rules.length
  rule : ∀ {k : Nat} {r : String × String}, rules[k]? = some r → ∃ p, b.productions[k]? = some p ∧ b.Knows r.1 p.head ∧
    List.Forall₂ b.Knows (Text.words r.2) p.body
  allowed : ∀ {i : Nat} {s : PendingSymbol}, b.symbols[i]? = some s → s.terminal = none → allowed s.name

variable {allowed : String → Prop} {rules : List (String × String)}

/-- A nonterminal is at its index. -/
theorem Lists.isTerminalAt (h : b.Lists terminals) {name : String} (hname : ∀ t ∈ terminals, t.name ≠ name) {i : Nat}
    (hi : b.Knows name i) : b.isTerminalAt i = false := by
  obtain ⟨s, hs, rfl⟩ := hi
  rw [Builder.isTerminalAt, hs, Option.bind_some, Option.isSome_eq_false_iff, Option.isNone_iff_eq_none]
  by_contra hterminal
  obtain ⟨id, hid⟩ := Option.ne_none_iff_exists'.mp hterminal
  obtain ⟨t, ht, htname, -⟩ := h.registered hs hid
  exact hname t ht htname

/-- No production stands for a rule that was not added. -/
theorem Written.not_duplicate (h : b.Written terminals allowed rules) {b' : Builder} (hkeeps : Keeps b b')
    (wf : b'.WellFormed) (hproductions : b'.productions = b.productions) {head : String} {words : List String}
    (hnew : (head, words) ∉ rules.map fun r => (r.1, Text.words r.2)) {i : Nat} {indices : List Nat}
    (hhead : b'.Knows head i) (hbody : List.Forall₂ b'.Knows words indices) :
    ((b'.alternativesAt i).any fun id => b'.productions[id]?.any (·.body = indices)) = false := by
  rw [Bool.eq_false_iff]
  intro hany
  obtain ⟨id, hid, hsame⟩ := List.any_eq_true.mp hany
  obtain ⟨p, hp, hpbody⟩ := (Option.any_eq_true _ _).mp hsame
  obtain ⟨s, hs, rfl⟩ := hhead
  have hmem : id ∈ s.productions := by
    rw [Builder.alternativesAt, hs] at hid
    exact hid
  obtain ⟨p', hp', rfl⟩ := (wf.alternatives hs id).mp hmem
  cases hp.symm.trans hp'
  obtain rfl := of_decide_eq_true hpbody
  rw [hproductions] at hp
  have hlt : id < rules.length := by
    rw [← h.size]
    exact (Array.getElem?_eq_some_iff.mp hp).1
  obtain ⟨q, hq, hqhead, hqbody⟩ := h.rule (List.getElem?_eq_getElem hlt)
  cases hp.symm.trans hq
  have hname := (hqhead.keeps hkeeps).unique ⟨s, hs, rfl⟩
  have hwords := forall₂_knows_unique (hqbody.imp fun _ _ hknows => hknows.keeps hkeeps) hbody
  exact hnew (List.mem_map.mpr ⟨_, List.getElem_mem hlt, by rw [hname, hwords]⟩)

/-- A new rule for a nonterminal is granted, and its production is added. -/
theorem Written.addProduction_eq (h : b.Written terminals allowed rules) (hroles : ∀ t ∈ terminals, t.role ≠ .empty)
    {head body : String} (hempty : Symbol.emptyName ∉ Text.words body) (hhead : ∀ t ∈ terminals, t.name ≠ head)
    (hnew : (head, Text.words body) ∉ rules.map fun r => (r.1, Text.words r.2)) :
    Builder.addProduction head body b = (.ok rules.length,
      (Builder.internAll (Text.words body) (Builder.intern head b).2).2.pushProduction (Builder.intern head b).1
        (Builder.internAll (Text.words body) (Builder.intern head b).2).1) := by
  obtain ⟨hkeeps₁, hlists₁, hknows⟩ := h.lists.intern head
  obtain ⟨hkeeps₂, -, hall⟩ := Lists.internAll (Text.words body) hlists₁
  have wf₂ := WellFormed.internAll (Text.words body) (h.wellFormed.intern head)
  have hproductions : (Builder.internAll (Text.words body) (Builder.intern head b).2).2.productions = b.productions :=
    (internAll_extends _ _).productions.trans (intern_extends head b).productions
  have hterminal := hlists₁.isTerminalAt hhead hknows
  have hduplicate := h.not_duplicate (hkeeps₁.trans hkeeps₂) wf₂ hproductions hnew (hknows.keeps hkeeps₂) hall
  rw [h.lists.addProduction_eq h.wellFormed hroles head hempty, ← h.size]
  dsimp only
  rw [hterminal, hduplicate, if_neg Bool.false_ne_true, if_neg Bool.false_ne_true]

/-- **A new rule for a nonterminal is added.** -/
theorem Written.addProduction (h : b.Written terminals allowed rules) (hroles : ∀ t ∈ terminals, t.role ≠ .empty)
    {head body : String} (hempty : Symbol.emptyName ∉ Text.words body) (hhead : ∀ t ∈ terminals, t.name ≠ head)
    (hnew : (head, Text.words body) ∉ rules.map fun r => (r.1, Text.words r.2))
    (hallowed : allowed head ∧ ∀ name ∈ Text.words body, allowed name) :
    ∃ b', Builder.addProduction head body b = (.ok rules.length, b') ∧ b'.Written terminals allowed (rules ++ [(head, body)]) := by
  have hcall := h.addProduction_eq hroles hempty hhead hnew
  refine ⟨_, hcall, ?_⟩
  obtain ⟨hkeeps, hlists, -, hsize, p, hp, hphead, hpbody⟩ := h.lists.addProduction h.wellFormed hroles hempty hcall
  have wf := h.wellFormed.addProductionSymbols head (Text.words body)
  rw [← Builder.addProduction, hcall] at wf
  refine ⟨hlists, wf, ?_, fun {k r} hr => ?_, fun {i s'} hs' hnone => ?_⟩
  · rw [hsize, h.size, List.length_append, List.length_singleton]
  · rcases Nat.lt_or_ge k rules.length with hk | hk
    · rw [List.getElem?_append_left hk] at hr
      obtain ⟨q, hq, hqhead, hqbody⟩ := h.rule hr
      exact ⟨q, hkeeps.productions hq, hqhead.keeps hkeeps, hqbody.imp fun _ _ hknows => hknows.keeps hkeeps⟩
    · have hlt := (List.getElem?_eq_some_iff.mp hr).1
      rw [List.length_append, List.length_singleton] at hlt
      obtain rfl : k = rules.length := by omega
      rw [List.getElem?_concat_length] at hr
      cases hr
      exact ⟨p, hp, hphead, hpbody⟩
  · obtain ⟨s, hs, hname, -, hterminal', -⟩ := symbols_pushProduction hs'
    rw [hname]
    rw [hterminal'] at hnone
    rcases internAll_cases hs with hs | ⟨name, hmem, rfl⟩
    · rcases intern_cases hs with hs | rfl
      · exact h.allowed hs hnone
      · exact hallowed.1
    · exact hallowed.2 name hmem

/-- Rules are added one after the other. -/
theorem Written.addRulesFrom (hroles : ∀ t ∈ terminals, t.role ≠ .empty) : ∀ (rest : List (String × String))
    {rules : List (String × String)} {b : Builder}, b.Written terminals allowed rules →
    (∀ r ∈ rest, Symbol.emptyName ∉ Text.words r.2 ∧ (∀ t ∈ terminals, t.name ≠ r.1) ∧ allowed r.1 ∧
      ∀ name ∈ Text.words r.2, allowed name) →
    ((rules ++ rest).map fun r => (r.1, Text.words r.2)).Nodup →
    ∃ b', Builder.addRulesFrom rules.length rest b = (.ok (), b') ∧ b'.Written terminals allowed (rules ++ rest)
  | [], rules, b, h, _, _ => ⟨b, rfl, by rwa [List.append_nil]⟩
  | (head, body) :: rest, rules, b, h, hrest, hnodup => by
    obtain ⟨⟨hempty, hhead, hallowed⟩, hrest⟩ := List.forall_mem_cons.mp hrest
    have hnew : (head, Text.words body) ∉ rules.map fun r => (r.1, Text.words r.2) := by
      rw [List.map_append, List.nodup_append] at hnodup
      exact fun hmem => hnodup.2.2 _ hmem _ List.mem_cons_self rfl
    obtain ⟨b₁, hcall, hb₁⟩ := h.addProduction hroles hempty hhead hnew hallowed
    obtain ⟨b₂, hcalls, hb₂⟩ := Written.addRulesFrom hroles rest hb₁ hrest (by simpa using hnodup)
    refine ⟨b₂, ?_, by simpa using hb₂⟩
    rw [Builder.addRulesFrom, hcall]
    simpa using hcalls

end Builder

/-! ## Languages -/

namespace Language

variable {N : Type} {l : Language N}

/-- Nothing in a language makes a builder refuse it: its terminals differ, its rules are different alternatives of
nonterminals, and every nonterminal has one. -/
structure IsSound (l : Language N) : Prop extends l.Augmented where
  terminals : l.terminals.Pairwise fun t u => Builder.Differ u t
  terminal : ∀ t ∈ l.terminals, t.name ≠ Symbol.startName ∧ t.role ≠ .start
  heads : ∀ r ∈ l.rules, ∀ t ∈ l.terminals, t.name ≠ r.head
  rules : (l.rules.map fun r => (r.head, Text.words r.body)).Nodup
  defined : ∀ {name : String}, l.Uses name → (∀ t ∈ l.terminals, t.name ≠ name) → ∃ r ∈ l.rules, r.head = name

/-- **All calls of a sound language are granted**, and afterwards the builder has its terminals and its rules. -/
theorem IsSound.exists_written (h : l.IsSound) : ∃ b,
    Builder.calls ((l.terminals.map fun t => Builder.addTerminal t.name t.id t.role) ++
      (l.terminals.filter (!·.wild)).map (fun t => Builder.excludeFromWildcard t.name) ++
      [Builder.addRules (l.rules.map fun r => (r.head, r.body))]) {} = (.ok (), b) ∧
    b.Written l.terminals l.Uses (l.rules.map fun r => (r.head, r.body)) ∧
    ∀ t ∈ l.terminals, ∃ (i : Nat) (s : PendingSymbol), b.symbols[i]? = some s ∧ s.name = t.name ∧ s.terminal = some t.id := by
  have hroles : ∀ t ∈ l.terminals, t.role ≠ .empty := fun t ht => (h.role t ht).1
  obtain ⟨b₁, hregister, hholds⟩ :=
    Builder.Holds.register l.terminals Builder.holds_new h.terminal (fun _ _ _ hu => absurd hu List.not_mem_nil) h.terminals
  obtain ⟨-, hlists₁, wf₁, hproductions₁, hterminals⟩ :=
    Builder.Lists.register l.terminals Builder.lists_new Builder.wellFormed_new (List.Subset.refl _) hregister
  obtain ⟨b₂, hexclude, hsymbols⟩ := Builder.exclude_ok ((l.terminals.filter (!·.wild)).map (·.name)) (b := b₁) (by
    intro name hname
    obtain ⟨t, ht, rfl⟩ := List.mem_map.mp hname
    obtain ⟨i, s, hs, hsname, hid, -⟩ := hterminals t (List.mem_of_mem_filter ht)
    refine ⟨i, hlists₁.indexOf? ⟨s, hs, hsname⟩, ?_⟩
    rw [Builder.isTerminalAt, hs, Option.bind_some, hid]
    rfl)
  obtain ⟨-, hlists₂, wf₂, hproductions₂, -⟩ := Builder.Lists.exclude (l.terminals.filter (!·.wild)) hlists₁ wf₁
    (fun t ht => by simpa using ht) (by simpa [Function.comp_def] using hexclude)
  have hwritten : b₂.Written l.terminals l.Uses [] := by
    refine ⟨hlists₂, wf₂, by rw [hproductions₂, hproductions₁]; rfl, fun hr => by simp at hr, fun {i s} hs hnone => ?_⟩
    rw [hsymbols] at hs
    rcases hholds hs with ⟨hstart, -⟩ | ⟨t, -, -, hid, -⟩
    · exact .inl hstart
    · cases hnone.symm.trans hid
  obtain ⟨b₃, hrules, hb₃⟩ := Builder.Written.addRulesFrom hroles (l.rules.map fun r => (r.head, r.body)) hwritten (by
    intro r' hr'
    obtain ⟨r, hr, rfl⟩ := List.mem_map.mp hr'
    exact ⟨(h.body r hr).1, h.heads r hr, uses_head hr, fun name hname => uses_of_mem_body hr hname⟩) (by
    simpa [Function.comp_def] using h.rules)
  obtain ⟨hkeeps, -⟩ := Builder.Lists.addRulesFrom hroles _ 0 hlists₂ wf₂
    (by simpa using fun r hr => (h.body r hr).1) hwritten.size.symm hrules
  refine ⟨b₃, ?_, hb₃, fun t ht => ?_⟩
  · refine Builder.calls_of_append (Builder.calls_of_append hregister (by simpa [Function.comp_def] using hexclude)) ?_
    rw [Builder.calls, show Builder.addRules _ b₂ = (.ok (), b₃) from hrules]
    rfl
  · obtain ⟨i, s, hs, hname, hid, -⟩ := hterminals t ht
    obtain ⟨s', hs', hname', -, hid'⟩ := hkeeps.symbols (hsymbols.symm ▸ hs)
    exact ⟨i, s', hs', hname'.trans hname, hid'.trans hid⟩

/-- A nonterminal that is used has a rule, and so an alternative. -/
theorem IsSound.productions_ne_nil (h : l.IsSound) {b : Builder}
    (hb : b.Written l.terminals l.Uses (l.rules.map fun r => (r.head, r.body))) {i : Nat} {s : PendingSymbol}
    (hs : b.symbols[i]? = some s) (huses : l.Uses s.name) (hname : ∀ t ∈ l.terminals, t.name ≠ s.name) : s.productions ≠ [] := by
  intro hnil
  obtain ⟨r, hr, hhead⟩ := h.defined huses hname
  obtain ⟨k, hk⟩ := List.mem_iff_getElem?.mp hr
  obtain ⟨p, hp, hknows, -⟩ := hb.rule (show (l.rules.map fun r => (r.head, r.body))[k]? = some (r.head, r.body) by simp [hk])
  have hi := hb.lists.unique hknows ⟨s, hs, hhead.symm⟩
  have hmem := (hb.wellFormed.alternatives hs k).mpr ⟨p, hp, hi⟩
  rw [hnil] at hmem
  exact absurd hmem List.not_mem_nil

/-- **A sound language has a grammar.** -/
theorem IsSound.exists_grammar (h : l.IsSound) : ∃ g, l.grammar = .ok g := by
  obtain ⟨b, hcalls, hb, hterminals⟩ := h.exists_written
  have hstart : ¬(b.alternativesAt 0).isEmpty = true := by
    obtain ⟨s, hs, hname⟩ := hb.lists.start
    rw [Builder.alternativesAt, hs, List.isEmpty_iff]
    exact h.productions_ne_nil hb hs (.inl hname) fun t ht heq => (h.terminal t ht).1 (heq.trans hname)
  have hundefined : b.symbols.find? (fun s => s.terminal.isNone && s.productions.isEmpty) = none := by
    rw [Array.find?_eq_none]
    intro s hs hempty
    obtain ⟨i, hi⟩ := Array.getElem?_of_mem hs
    rw [Bool.and_eq_true, Option.isNone_iff_eq_none, List.isEmpty_iff] at hempty
    refine h.productions_ne_nil hb hi (hb.allowed hi hempty.1) (fun t ht heq => ?_) hempty.2
    obtain ⟨j, u, hu, huname, hid⟩ := hterminals t ht
    obtain rfl := hb.lists.unique ⟨u, hu, huname.trans heq⟩ ⟨s, hi, rfl⟩
    cases hi.symm.trans hu
    cases hempty.1.symm.trans hid
  refine ⟨b.freeze, ?_⟩
  simp only [Language.grammar, hcalls, Builder.build]
  rw [if_neg hstart, hundefined]

end Language

end ShaderFront
