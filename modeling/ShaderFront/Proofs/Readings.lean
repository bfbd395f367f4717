import Mathlib
import ShaderFront.Proofs.Reading
import ShaderFront.Proofs.Retracing

/-!
# Readings behind a parse

The converse of `Alphabet.Covers.parse_of_canTake`: a parse that succeeds comes from a reading of its tokens by the rules
(`Alphabet.Covers.reads_of_parse`). The reading also says where the wildcard stands: where the word after a dot begins with a token
at once, a token is not taken as the wildcard if a production that begins alike asks there for its own kind.
-/

namespace ShaderFront

namespace Grammar

variable {g : Grammar} {c : Collection}

/-! ## Productions that begin alike -/

/-- A state holds, with its dot at a position, every production of a head that begins as a body does. -/
def HasAlike (g : Grammar) (c : Collection) (state : StateId) (p : Production) (dot : Nat) : Prop :=
  ∀ id q, g.production? id = some q → q.head = p.head → q.body.take dot = p.body.take dot → HasItem c state id dot

/-- A state that holds one production of a head in front holds all of them, unless it is the start symbol. -/
theorem Automaton.hasAlike_zero (wf : g.WellFormed) (hc : g.Automaton c) {state : StateId} {id : ProductionId} {p : Production}
    (h : HasItem c state id 0) (hp : g.production? id = some p) (hhead : p.head ≠ g.start) : g.HasAlike c state p 0 := by
  intro id' q hq hhead' _
  obtain ⟨S, hS, item, hitem, rfl, hdot⟩ := h
  have hstate := (hc.joined hS).isState wf
  obtain ⟨k, hk, hkernel, hyields⟩ := hstate.generated item hitem
  rcases hyields.cases_tail with rfl | ⟨waiting, hwaiting, hstep⟩
  · simp [isKernelItem, hdot, hp, hhead] at hkernel
  · -- what demands the one production demands the other one as well
    obtain ⟨r, next, s, hr, hnext, hs, hterminal, halternative, -, hlookahead⟩ := mem_demanded.mp hstep
    obtain ⟨p', hp', hhead''⟩ := (wf.alternatives hs _).mp halternative
    cases hp.symm.trans hp'
    have hmem : (⟨id', 0, item.lookahead⟩ : Item) ∈ g.demanded waiting :=
      mem_demanded.mpr ⟨r, next, s, hr, hnext, hs, hterminal, (wf.alternatives hs id').mpr ⟨q, hq, hhead'.trans hhead''⟩, rfl,
        hlookahead⟩
    exact ⟨S, hS, _, hstate.closed _ (hstate.yields hk hwaiting) _ hmem, rfl, rfl⟩

variable {state next : StateId} {id : ProductionId} {p q : Production} {dot : Nat} {symbol : SymbolId}

/-- The symbol after a dot has a transition. -/
theorem Automaton.exists_target_of_hasItem (wf : g.WellFormed) (hc : g.Automaton c) (h : HasItem c state id dot)
    (hq : g.production? id = some q) (hsymbol : q.body[dot]? = some symbol) : ∃ t, c.target? state symbol = some t ∧
      HasItem c t id (dot + 1) := by
  obtain ⟨S, hS, item, hitem, rfl, rfl⟩ := h
  obtain ⟨t, T, ht, hT, hadvanced⟩ := hc.exists_target wf hS hitem (nextSymbol_eq_some.mpr ⟨q, hq, hsymbol⟩)
  exact ⟨t, ht, T, hT, _, hadvanced, rfl, rfl⟩

theorem HasAlike.advance (wf : g.WellFormed) (hc : g.Automaton c) (h : g.HasAlike c state p dot)
    (hsymbol : p.body[dot]? = some symbol) (htarget : c.target? state symbol = some next) : g.HasAlike c next p (dot + 1) := by
  intro id q hq hhead hbody
  have hget : q.body[dot]? = some symbol := by
    rw [← hsymbol, ← List.getElem?_take_of_lt (Nat.lt_succ_self dot), hbody, List.getElem?_take_of_lt (Nat.lt_succ_self dot)]
  have htake : q.body.take dot = p.body.take dot := by
    simpa [List.take_take] using congrArg (List.take dot) hbody
  obtain ⟨t, ht, hitem⟩ := hc.exists_target_of_hasItem wf (h id q hq hhead htake) hq hget
  cases ht.symm.trans htarget
  exact hitem

end Grammar

namespace Alphabet

variable {K H N : Type} {a : Alphabet K H} {l : Language N}

/-! ## Where the wildcard stands -/

/-- No production that begins as another one does asks after a dot for the own kind of a token that is taken as another kind. -/
def Unrivalled (a : Alphabet K H) (id dot : Nat) (r : K × Token) : Prop :=
  ∀ p q kind, a.productions[id]? = some p → q ∈ a.productions → q.head = p.head → q.body.take dot = p.body.take dot →
    q.body[dot]? = some (.token kind) → r.2.symbol = (a.terminal kind).id → r.1 = kind

/-- A word begins with a token at once: it is a token, or one of some nonterminals. -/
def opensAtOnce (atOnce : H → Bool) : Word K H → Bool
  | .token _ => true
  | .node head => atOnce head

/-- The bodies of some nonterminals begin with a token at once, and a token that such a word begins with is clear after a dot if it
is unrivalled there. -/
structure ClearAtOnce (a : Alphabet K H) (atOnce : H → Bool) (clear : Nat → Nat → K × Token → Prop) : Prop where
  opens : ∀ p ∈ a.productions, atOnce p.head = true → p.body.head?.any (opensAtOnce atOnce) = true
  clear : ∀ id dot r p, a.productions[id]? = some p →
    (∀ word, p.body[dot]? = some word → opensAtOnce atOnce word = true → a.Unrivalled id dot r) → clear id dot r

/-- A token after a state that is taken as another kind has no transition of its own. -/
def Unclaimed (a : Alphabet K H) (c : Collection) (state : StateId) (r : K × Token) : Prop :=
  r.2.symbol ≠ (a.terminal r.1).id → c.target? state r.2.symbol = none

/-- The tokens of a word begin after a state. -/
def BeginsAt (a : Alphabet K H) (c : Collection) (atOnce : H → Bool) (state : StateId) (word : Word K H)
    (front : List (K × Token)) : Prop :=
  opensAtOnce atOnce word = true → ∃ r rest, front = r :: rest ∧ a.Unclaimed c state r

namespace Covers

variable (h : a.Covers l) {g : Grammar} {number : String → SymbolId} {c : Collection} {atOnce : H → Bool}
  {clear : Nat → Nat → K × Token → Prop}

include h

/-- A token that stands for a terminal is admitted as its kind. -/
theorem admits_of_fits (hnumber : l.Numbered g number) {kind : K} {token : Token} (hfits : g.Fits (a.terminal kind).id token) :
    a.Admits kind token := by
  refine h.admits (hfits.imp id fun ⟨hwildcard, _, hexcluded⟩ => ⟨hnumber.wildcard hwildcard, fun u hu hid => ?_⟩)
  rw [← hid] at hexcluded
  by_contra hwild
  exact hexcluded (hnumber.excluded u hu (by simpa using hwild))

theorem not_isTerminal (hnumber : l.Numbered g number) (head : H) : g.isTerminal (number (a.nonterminal head)) = false := by
  refine hnumber.not_isTerminal (h.uses (.node head)) fun t ht heq => ?_
  obtain ⟨kind, rfl⟩ := h.exists_kind ht
  exact h.terminal_name_ne kind head heq

theorem number_injective (hnumber : l.Numbered g number) {word other : Word K H}
    (heq : number (a.name word) = number (a.name other)) : word = other :=
  h.name_injective (hnumber.injective (h.uses word) (h.uses other) heq)

/-- A token whose own transition is missing is unrivalled after a dot. -/
theorem unrivalled (hnumber : l.Numbered g number) (hc : g.Automaton c) {state : StateId} {id dot : Nat} {p : Production}
    (hp : g.production? id = some p) (halike : g.HasAlike c state p dot) {r : K × Token} (hr : a.Unclaimed c state r) :
    a.Unrivalled id dot r := by
  intro s q kind hs hq hhead htake hget hsymbol
  by_contra hne
  obtain ⟨rule, hrule, -, hphead, hpbody⟩ := hnumber.exists_rule hp
  obtain ⟨s', hs', hshead, hsbody⟩ := h.exists_spelling hrule
  cases hs.symm.trans hs'
  obtain ⟨id', hid'⟩ := List.mem_iff_getElem?.mp hq
  have hlt : id' < l.rules.length := by
    have := congrArg List.length h.rules
    simp only [List.length_map] at this
    exact this ▸ (List.getElem?_eq_some_iff.mp hid').1
  have hproduction := h.production_of_rule hnumber (List.getElem?_eq_getElem hlt) hid'
  have hitem := halike id' _ hproduction (by rw [hphead, hshead, hhead])
    (by rw [hpbody, hsbody, List.map_map, ← List.map_take, htake, List.map_take]; rfl)
  obtain ⟨t, ht, -⟩ := hc.exists_target_of_hasItem hnumber.wellFormed hitem hproduction
    (by rw [List.getElem?_map, hget, Option.map_some, h.number_token hnumber])
  rw [← hsymbol, hr fun heq => hne (h.id_injective (heq.symm.trans hsymbol))] at ht
  cases ht

section Retraced

variable (l number c atOnce clear) in
/-- What stands for a nonterminal after a state is read as that nonterminal. -/
def RereadNode (_ : a.Covers l) (g : Grammar) (state : StateId) (symbol : SymbolId) (element : Matched N) (tokens : List Token) :
    Prop :=
  ∀ head, symbol = number (a.nonterminal head) → symbol ≠ g.start → ∃ node front,
    element = .node (number (a.nonterminal head)) node ∧ front.map Prod.snd = tokens ∧
      a.Reads l (fun head => number (a.nonterminal head)) clear head front node ∧ a.BeginsAt c atOnce state (.node head) front

variable (l number c atOnce clear) in
/-- What stands for the words after a dot of a production, after a state that holds it, is read as those words. -/
def RereadBody (_ : a.Covers l) (g : Grammar) (state : StateId) (symbols : List SymbolId) (elements : List (Matched N))
    (tokens : List Token) : Prop :=
  ∀ {id dot : Nat} {p : Production} {q : Spelling K H}, g.production? id = some p → a.productions[id]? = some q →
    g.HasAlike c state p dot → ∀ words : List (Word K H), symbols = words.map (fun word => number (a.name word)) →
    p.body.drop dot = words.map (fun word => number (a.name word)) → q.body.drop dot = words → ∃ front,
      front.map Prod.snd = tokens ∧ a.ReadsAll l (fun head => number (a.nonterminal head)) clear id dot words elements front ∧
        ∀ word ∈ words.head?, a.BeginsAt c atOnce state word front

variable {state next last : StateId} {symbol : SymbolId} {element : Matched N} {front tokens : List Token}
  {symbols : List SymbolId} {elements : List (Matched N)}

theorem rereadBody_nil : h.RereadBody l number c atOnce clear g state [] [] [] := by
  intro id dot p q _ _ _ words hwords _ _
  obtain rfl := List.map_eq_nil_iff.mp hwords.symm
  exact ⟨[], rfl, .nil, nofun⟩

theorem rereadNode_token (hnumber : l.Numbered g number) {token : Token} (hterminal : g.isTerminal symbol = true) :
    h.RereadNode l number c atOnce clear g state symbol (.token token) [token] := by
  rintro head rfl _
  rw [h.not_isTerminal hnumber] at hterminal
  cases hterminal

theorem rereadNode_node (hclear : a.ClearAtOnce atOnce clear) (hnumber : l.Numbered g number) (hc : g.Automaton c) {id : ProductionId}
    {p : Production} {memory : Unit} {node : N} (hp : g.production? id = some p) (hitem : Grammar.HasItem c state id 0)
    (hbody : h.RereadBody l number c atOnce clear g state p.body elements tokens)
    (hnode : (l.semantics id elements memory).1 = .ok node) :
    h.RereadNode l number c atOnce clear g state p.head (.node p.head node) tokens := by
  intro head hsymbol hstart
  obtain ⟨rule, hrule, -, hphead, hpbody⟩ := hnumber.exists_rule hp
  obtain ⟨q, hq, hqhead, hqbody⟩ := h.exists_spelling hrule
  have heq : number (a.name (.node head)) = number (a.name (.node q.head)) := by
    change number (a.nonterminal head) = number (a.nonterminal q.head)
    rw [← hsymbol, hphead, hqhead]
  obtain rfl : head = q.head := Word.node.inj (h.number_injective hnumber heq)
  have hwords : p.body = q.body.map fun word => number (a.name word) := by rw [hpbody, hqbody, List.map_map]; rfl
  obtain ⟨front, hfront, hreads, hbegins⟩ := hbody hp hq (hc.hasAlike_zero hnumber.wellFormed hitem hp hstart) q.body hwords
    (by rw [List.drop_zero, hwords]) (by rw [List.drop_zero])
  rw [h.semantics_of_reads hrule hq hreads] at hnode
  refine ⟨node, front, by rw [hsymbol], hfront, .rule hrule hq hreads hnode, fun hopens => ?_⟩
  obtain ⟨word, hword, hopens⟩ := (Option.any_eq_true _ _).mp (hclear.opens q (List.mem_of_getElem? hq) hopens)
  exact hbegins word hword hopens

theorem rereadBody_cons (hclear : a.ClearAtOnce atOnce clear) (hnumber : l.Numbered g number) (hc : g.Automaton c)
    (hfirst : g.Retraces c l.semantics state symbol element front)
    (hnode : h.RereadNode l number c atOnce clear g state symbol element front) (htarget : c.target? state symbol = some next)
    (hrest : h.RereadBody l number c atOnce clear g next symbols elements tokens) :
    h.RereadBody l number c atOnce clear g state (symbol :: symbols) (element :: elements) (front ++ tokens) := by
  intro id dot p q hp hq halike words hwords hdrop hdrop'
  obtain ⟨word, rest, rfl, hword, hrestWords⟩ := List.map_eq_cons_iff.mp hwords.symm
  obtain ⟨hget, hdropNext⟩ := getElem?_of_drop hdrop
  have hdropNext' : q.body.drop (dot + 1) = rest := by rw [← List.tail_drop, hdrop', List.tail_cons]
  have halike' := halike.advance hnumber.wellFormed hc (hget.trans (congrArg some hword)) htarget
  obtain ⟨back, hback, hreads, hbegins⟩ := hrest hp hq halike' rest hrestWords.symm hdropNext hdropNext'
  -- the token after the dot has no transition of its own, unless it is taken as its own kind
  have hnext : ∀ next ∈ back.head?, clear id (dot + 1) next := by
    intro next hnext
    refine hclear.clear id (dot + 1) next q hq fun other hother hopens => ?_
    rw [← List.head?_drop, hdropNext'] at hother
    obtain ⟨r, _, rfl, hunclaimed⟩ := hbegins other hother hopens
    cases hnext
    exact h.unrivalled hnumber hc hp halike' hunclaimed
  cases word with
  | token kind =>
    have hsymbol := hword.symm.trans (h.number_token hnumber kind)
    cases hfirst with
    | @token _ _ token hterminal hfits hown =>
      rw [hsymbol] at hfits hown
      refine ⟨(kind, token) :: back, by rw [List.map_cons, hback]; rfl, .token (h.admits_of_fits hnumber hfits) hnext hreads, ?_⟩
      rintro _ ⟨⟩ _
      exact ⟨_, _, rfl, hown⟩
    | node hp' _ _ _ =>
      obtain ⟨rule, -, hr, hphead, -⟩ := hnumber.exists_rule hp'
      obtain ⟨s, -, hshead, -⟩ := h.exists_spelling_of_mem hr
      have hterminal := h.isTerminal_token hnumber kind
      rw [← hsymbol, hphead, hshead, h.not_isTerminal hnumber] at hterminal
      cases hterminal
  | node head =>
    have hstart : number (a.nonterminal head) ≠ g.start := by
      rw [hnumber.start, ← h.startName]
      intro heq
      have heq : number (a.name (.node head)) = number (a.name (.node a.start)) := heq
      obtain rfl : head = a.start := Word.node.inj (h.number_injective hnumber heq)
      refine h.start_not_mem q (List.mem_of_getElem? hq) (List.mem_of_mem_drop (i := dot) ?_)
      rw [hdrop']
      exact List.mem_cons_self
    obtain ⟨node, front, rfl, hfront, hread, hbeginsFirst⟩ := hnode head hword.symm (hword ▸ hstart)
    refine ⟨front ++ back, by rw [List.map_append, hfront, hback], .node hread hnext hreads, ?_⟩
    rintro _ ⟨⟩ hopens
    obtain ⟨r, others, rfl, hunclaimed⟩ := hbeginsFirst hopens
    exact ⟨r, others ++ back, rfl, hunclaimed⟩

variable (hclear : a.ClearAtOnce atOnce clear)

include hclear

mutual

/-- **What retraces a derivation is read by the rules.** -/
theorem reread_node (hnumber : l.Numbered g number) (hc : g.Automaton c) : ∀ {state : StateId} {symbol : SymbolId}
    {element : Matched N} {tokens : List Token}, g.Retraces c l.semantics state symbol element tokens →
    h.RereadNode l number c atOnce clear g state symbol element tokens
  | _, _, _, _, .token hterminal _ _ => h.rereadNode_token hnumber hterminal
  | _, _, _, _, .node hp hitem hbody hnode => h.rereadNode_node hclear hnumber hc hp hitem (reread_body hnumber hc hbody) hnode

/-- The elements of a body are read by the rules. -/
theorem reread_body (hnumber : l.Numbered g number) (hc : g.Automaton c) : ∀ {state last : StateId}
    {symbols : List SymbolId} {elements : List (Matched N)} {tokens : List Token},
    g.RetracesAll c l.semantics state last symbols elements tokens →
    h.RereadBody l number c atOnce clear g state symbols elements tokens
  | _, _, _, _, _, .nil => h.rereadBody_nil
  | _, _, _, _, _, .cons hfirst htarget hrest =>
    h.rereadBody_cons hclear hnumber hc hfirst (reread_node hnumber hc hfirst) htarget (reread_body hnumber hc hrest)

end

end Retraced

/-- The body of a start production is the root. -/
theorem eq_root_of_isRoot (hnumber : l.Numbered g number) {symbol : SymbolId} (hroot : g.IsRoot symbol) :
    symbol = number (a.nonterminal a.root) ∧ symbol ≠ g.start := by
  obtain ⟨id, p, hp, hhead, hbody⟩ := hroot
  obtain ⟨r, -, hr, hphead, hpbody⟩ := hnumber.exists_rule hp
  obtain ⟨q, hq, hqhead, hqbody⟩ := h.exists_spelling_of_mem hr
  have hstart : q.head = a.start := by
    refine h.head_eq_start (hqhead.symm.trans ?_)
    exact hnumber.injective (Language.uses_head hr) (.inl rfl) (hphead.symm.trans (hhead.trans hnumber.start))
  rw [hqbody, h.startBody q hq hstart, hbody] at hpbody
  refine ⟨(List.cons.inj hpbody).1, fun hsymbol => ?_⟩
  exact (hnumber.augmented h.augmented).start_not_mem hp (by rw [hbody, hsymbol]; exact List.mem_cons_self)

/-- **A parse comes from a reading of its tokens.** -/
theorem reads_of_parse (tame : a.outline.Tame) (hclear : a.ClearAtOnce atOnce clear)
    {tokens : List Token} (hkinds : ∀ token ∈ tokens, ∃ kind, token.symbol = (a.terminal kind).id) {node : N}
    (hparse : l.parse l.table tokens = .ok node) : ∃ g number front, l.grammar = .ok g ∧ l.Numbered g number ∧
      front.map Prod.snd = tokens ∧ a.Reads l (fun head => number (a.nonterminal head)) clear a.root front node := by
  obtain ⟨g, hg, fuel, hnode⟩ := Language.parse_eq_ok hparse
  obtain ⟨number, hnumber⟩ := h.augmented.numbered hg
  have hconflictless := h.conflictless tame hnumber
  have hterminals : ∀ token ∈ tokens, g.isTerminal token.symbol = true ∧ token.symbol ≠ g.endOfInput := by
    intro token htoken
    obtain ⟨kind, hkind⟩ := hkinds token htoken
    rw [hkind]
    refine ⟨h.isTerminal_token hnumber kind, ?_⟩
    rw [← h.number_token hnumber kind]
    exact hnumber.endOfInput (h.uses (.token kind))
  obtain ⟨symbol, symbol', hroot, hretraces⟩ := hconflictless.parse_retraces (fun token htoken => (hterminals token htoken).1)
    (fun token htoken => (hterminals token htoken).2) hnode
  obtain ⟨hsymbol, hstart⟩ := h.eq_root_of_isRoot hnumber hroot
  obtain ⟨node', front, hnode', hfront, hreads, -⟩ :=
    h.reread_node hclear hnumber hconflictless.automaton hretraces a.root hsymbol hstart
  cases hnode'
  exact ⟨g, number, front, hg, hnumber, hfront, hreads⟩

end Covers

end Alphabet

end ShaderFront
