import Mathlib
import ShaderFront.Proofs.Answers
import ShaderFront.Proofs.Wildcard

/-!
# Reading by the rules of a language

A derivation with values: the words of a body are read one after the other, and the rule builds a node from their elements
(`Alphabet.Reads`). What can be read this way is the result of a parse (`Alphabet.Covers.parse_reads`). The converse of
`Alphabet.Covers.parse_attribute`, where a result is known and its derivation is not.
-/

namespace ShaderFront

namespace Alphabet

variable {K H N : Type} {a : Alphabet K H} {l : Language N}

mutual

/-- A nonterminal is read from some tokens, each taken as a kind, with a node as its value. Where a token comes after the dot of
a production, `clear` says that it can be taken so. -/
inductive Reads (a : Alphabet K H) (l : Language N) (number : H → SymbolId) (clear : Nat → Nat → K × Token → Prop) :
    H → List (K × Token) → N → Prop
  | rule {id : Nat} {r : Rule N} {p : Spelling K H} {elements : List (Matched N)} {front : List (K × Token)} {node : N} :
      l.rules[id]? = some r → a.productions[id]? = some p → ReadsAll a l number clear id 0 p.body elements front →
      r.build elements = .ok node → Reads a l number clear p.head front node

/-- The words after a dot are read from some tokens, with elements as their values. -/
inductive ReadsAll (a : Alphabet K H) (l : Language N) (number : H → SymbolId) (clear : Nat → Nat → K × Token → Prop) :
    Nat → Nat → List (Word K H) → List (Matched N) → List (K × Token) → Prop
  | nil {id dot : Nat} : ReadsAll a l number clear id dot [] [] []
  | token {id dot : Nat} {kind : K} {token : Token} {words : List (Word K H)} {elements : List (Matched N)}
      {rest : List (K × Token)} : a.Admits kind token → (∀ next ∈ rest.head?, clear id (dot + 1) next) →
      ReadsAll a l number clear id (dot + 1) words elements rest →
      ReadsAll a l number clear id dot (.token kind :: words) (.token token :: elements) ((kind, token) :: rest)
  | node {id dot : Nat} {head : H} {front : List (K × Token)} {node : N} {words : List (Word K H)}
      {elements : List (Matched N)} {rest : List (K × Token)} : Reads a l number clear head front node →
      (∀ next ∈ rest.head?, clear id (dot + 1) next) → ReadsAll a l number clear id (dot + 1) words elements rest →
      ReadsAll a l number clear id dot (.node head :: words) (.node (number head) node :: elements) (front ++ rest)

end

/-- What words are read as is of their kinds. -/
theorem ReadsAll.kinds {number : H → SymbolId} {clear : Nat → Nat → K × Token → Prop} : ∀ {id dot : Nat} {words : List (Word K H)}
    {elements : List (Matched N)} {front : List (K × Token)}, a.ReadsAll l number clear id dot words elements front →
    elements.map Matched.kind = words.map Word.kind
  | _, _, _, _, _, .nil => rfl
  | _, _, _, _, _, .token _ _ hrest => congrArg (ElementKind.token :: ·) hrest.kinds
  | _, _, _, _, _, .node _ _ hrest => congrArg (ElementKind.node :: ·) hrest.kinds

section Clear

variable {number : H → SymbolId} {clear clear' : Nat → Nat → K × Token → Prop}

mutual

theorem Reads.mono (h : ∀ id dot r, clear id dot r → clear' id dot r) : ∀ {head : H} {front : List (K × Token)} {node : N},
    a.Reads l number clear head front node → a.Reads l number clear' head front node
  | _, _, _, .rule hr hp hbody hbuild => .rule hr hp (ReadsAll.mono h hbody) hbuild

theorem ReadsAll.mono (h : ∀ id dot r, clear id dot r → clear' id dot r) : ∀ {id dot : Nat} {words : List (Word K H)}
    {elements : List (Matched N)} {front : List (K × Token)}, a.ReadsAll l number clear id dot words elements front →
    a.ReadsAll l number clear' id dot words elements front
  | _, _, _, _, _, .nil => .nil
  | _, _, _, _, _, .token hadmits hnext hrest =>
    .token hadmits (fun next hmem => h _ _ next (hnext next hmem)) (ReadsAll.mono h hrest)
  | _, _, _, _, _, .node hread hnext hrest =>
    .node (Reads.mono h hread) (fun next hmem => h _ _ next (hnext next hmem)) (ReadsAll.mono h hrest)

end

mutual

/-- What holds of all tokens holds of those after a dot. -/
theorem Reads.of_forall {Q : K × Token → Prop} : ∀ {head : H} {front : List (K × Token)} {node : N},
    a.Reads l number clear head front node → (∀ r ∈ front, Q r) →
    a.Reads l number (fun id dot r => clear id dot r ∧ Q r) head front node
  | _, _, _, .rule hr hp hbody hbuild, h => .rule hr hp (ReadsAll.of_forall hbody h) hbuild

theorem ReadsAll.of_forall {Q : K × Token → Prop} : ∀ {id dot : Nat} {words : List (Word K H)} {elements : List (Matched N)}
    {front : List (K × Token)}, a.ReadsAll l number clear id dot words elements front → (∀ r ∈ front, Q r) →
    a.ReadsAll l number (fun id dot r => clear id dot r ∧ Q r) id dot words elements front
  | _, _, _, _, _, .nil, _ => .nil
  | _, _, _, _, _, .token hadmits hnext hrest, h => by
    have hall := (List.forall_mem_cons.mp h).2
    exact .token hadmits (fun next hmem => ⟨hnext next hmem, hall next (List.mem_of_mem_head? hmem)⟩) (ReadsAll.of_forall hrest hall)
  | _, _, _, _, _, .node hread hnext hrest, h => by
    obtain ⟨hfront, hall⟩ := List.forall_mem_append.mp h
    exact .node (Reads.of_forall hread hfront)
      (fun next hmem => ⟨hnext next hmem, hall next (List.mem_of_mem_head? hmem)⟩) (ReadsAll.of_forall hrest hall)

end

end Clear

/-- A token is taken as its own kind. -/
def IsOwn (a : Alphabet K H) (r : K × Token) : Prop := r.2.symbol = (a.terminal r.1).id

theorem getElem?_of_drop {body : List SymbolId} {dot : Nat} {symbol : SymbolId} {rest : List SymbolId}
    (h : body.drop dot = symbol :: rest) : body[dot]? = some symbol ∧ body.drop (dot + 1) = rest := by
  refine ⟨?_, ?_⟩
  · rw [← List.head?_drop, h]
    rfl
  · rw [← List.tail_drop, h]
    rfl

/-- A token taken as a kind is taken as its terminal. -/
def taken (a : Alphabet K H) (r : K × Token) : Taken := ⟨(a.terminal r.1).id, r.2⟩

theorem IsOwn.taken_eq {r : K × Token} (h : a.IsOwn r) : a.taken r = .plain r.2 := by
  rw [taken, Taken.plain, h]

/-- A token can be taken as a kind, wherever a production ends and wherever it is clear. -/
structure CanTake (a : Alphabet K H) (g : Grammar) (c : Collection) (clear : Nat → Nat → K × Token → Prop) (r : K × Token) :
    Prop where
  takes : g.Takes c (a.taken r)
  clear : ∀ id dot, clear id dot r → g.Clear c id dot (a.taken r)

theorem IsOwn.canTake {g : Grammar} {c : Collection} {clear : Nat → Nat → K × Token → Prop} {r : K × Token} (h : a.IsOwn r) :
    a.CanTake g c clear r where
  takes := h.taken_eq ▸ Grammar.takes_plain r.2
  clear id dot _ := h.taken_eq ▸ Grammar.clear_plain id dot r.2

theorem clear_of_head? {g : Grammar} {c : Collection} {clear : Nat → Nat → K × Token → Prop} {id dot : Nat}
    {rest : List (K × Token)} (hrest : ∀ r ∈ rest, a.CanTake g c clear r) (hnext : ∀ next ∈ rest.head?, clear id dot next) :
    ∀ r ∈ (rest.map a.taken).head?, g.Clear c id dot r := by
  intro r hr
  rw [List.head?_map] at hr
  obtain ⟨next, hhead, rfl⟩ := Option.map_eq_some_iff.mp hr
  exact (hrest next (List.mem_of_mem_head? hhead)).clear id dot (hnext next hhead)

/-! ### Words -/

/-- Tokens of their own kinds have the kinds and the texts of some words. -/
structure Carries (a : Alphabet K H) (front : List (K × Token)) (words : List (K × String)) : Prop where
  own : ∀ r ∈ front, a.IsOwn r
  written : front.map (fun r => (r.1, r.2.text)) = words

theorem Carries.cons {front : List (K × Token)} {word : K × String} {words : List (K × String)}
    (h : a.Carries front (word :: words)) : ∃ token rest, front = (word.1, token) :: rest ∧ token.text = word.2 ∧
      a.Admits word.1 token ∧ a.Carries rest words := by
  obtain ⟨r, rest, rfl, hword, hwords⟩ := List.map_eq_cons_iff.mp h.written
  obtain ⟨hown, hrest⟩ := List.forall_mem_cons.mp h.own
  cases hword
  exact ⟨r.2, rest, rfl, rfl, .inl hown, hrest, hwords⟩

theorem Carries.append {front : List (K × Token)} {words others : List (K × String)} (h : a.Carries front (words ++ others)) :
    ∃ left right, front = left ++ right ∧ a.Carries left words ∧ a.Carries right others := by
  obtain ⟨left, right, rfl, hleft, hright⟩ := List.map_eq_append_iff.mp h.written
  obtain ⟨hownLeft, hownRight⟩ := List.forall_mem_append.mp h.own
  exact ⟨left, right, rfl, ⟨hownLeft, hleft⟩, ⟨hownRight, hright⟩⟩

theorem Carries.singleton {front : List (K × Token)} {word : K × String} (h : a.Carries front [word]) :
    ∃ token, front = [(word.1, token)] ∧ token.text = word.2 ∧ a.Admits word.1 token := by
  obtain ⟨token, rest, rfl, htext, hadmits, hrest⟩ := h.cons
  obtain rfl := List.map_eq_nil_iff.mp hrest.written
  exact ⟨token, rfl, htext, hadmits⟩

/-! ### Reading without conditions -/

/-- A nonterminal is read from some tokens, whatever comes after a dot. -/
abbrev ReadsAs (a : Alphabet K H) (l : Language N) (number : H → SymbolId) : H → List (K × Token) → N → Prop :=
  a.Reads l number fun _ _ _ => True

/-- The words after a dot are read from some tokens, whatever comes after a dot. -/
abbrev ReadsBody (a : Alphabet K H) (l : Language N) (number : H → SymbolId) (id dot : Nat) :
    List (Word K H) → List (Matched N) → List (K × Token) → Prop :=
  a.ReadsAll l number (fun _ _ _ => True) id dot

section Free

variable {number : H → SymbolId} {id dot : Nat} {words : List (Word K H)} {elements : List (Matched N)}
  {front rest : List (K × Token)}

theorem readsBody_token {kind : K} {token : Token} (htoken : token.symbol = (a.terminal kind).id)
    (hrest : a.ReadsBody l number id (dot + 1) words elements rest) :
    a.ReadsBody l number id dot (.token kind :: words) (.token token :: elements) ((kind, token) :: rest) :=
  .token (.inl htoken) (fun _ _ => trivial) hrest

theorem readsBody_node {head : H} {node : N} (hnode : a.ReadsAs l number head front node)
    (hrest : a.ReadsBody l number id (dot + 1) words elements rest) :
    a.ReadsBody l number id dot (.node head :: words) (.node (number head) node :: elements) (front ++ rest) :=
  .node hnode (fun _ _ => trivial) hrest

theorem readsBody_last {head : H} {node : N} (hnode : a.ReadsAs l number head front node) :
    a.ReadsBody l number id dot [.node head] [.node (number head) node] front := by
  have hbody : a.ReadsBody l number id dot [.node head] [.node (number head) node] (front ++ []) :=
    readsBody_node hnode .nil
  rwa [List.append_nil] at hbody

end Free

namespace Covers

variable (h : a.Covers l) {g : Grammar} {number : String → SymbolId} {c : Collection}
  {clear : Nat → Nat → K × Token → Prop}

include h

theorem number_token (hnumber : l.Numbered g number) (kind : K) : number (a.name (.token kind)) = (a.terminal kind).id :=
  hnumber.terminal _ (h.terminal_mem kind)

theorem isTerminal_token (hnumber : l.Numbered g number) (kind : K) : g.isTerminal (a.terminal kind).id = true := by
  rw [← h.number_token hnumber kind]
  exact (hnumber.isTerminal (h.uses (.token kind))).mpr ⟨a.terminal kind, h.terminal_mem kind, rfl⟩

/-- The production of a rule. -/
theorem production_of_rule (hnumber : l.Numbered g number) {id : Nat} {r : Rule N} {p : Spelling K H}
    (hr : l.rules[id]? = some r) (hp : a.productions[id]? = some p) :
    g.production? id = some ⟨id, number (a.nonterminal p.head), p.body.map fun word => number (a.name word)⟩ := by
  obtain ⟨p', hp', hhead, hbody⟩ := h.exists_spelling hr
  cases hp.symm.trans hp'
  have hproduction := hnumber.rule hr
  rwa [hhead, hbody, List.map_map] at hproduction

/-- The root is the body of a start production. -/
theorem isRoot (hnumber : l.Numbered g number) : g.IsRoot (number (a.nonterminal a.root)) := by
  obtain ⟨r, hr, hhead⟩ := h.exists_rule a.start
  obtain ⟨id, hid⟩ := List.mem_iff_getElem?.mp hr
  obtain ⟨p, hp, hphead, -⟩ := h.exists_spelling hid
  have hstart := h.head_eq_start (hphead.symm.trans (hhead.trans h.startName))
  refine ⟨id, _, h.production_of_rule hnumber hid hp, ?_, ?_⟩
  · rw [hnumber.start, hstart, h.startName]
  · rw [h.startBody p (List.mem_of_getElem? hp) hstart]
    rfl

/-- From what the words of a rule are read as, the rule builds. -/
theorem semantics_of_reads {id : Nat} {r : Rule N} {p : Spelling K H} {elements : List (Matched N)} {front : List (K × Token)}
    {number : H → SymbolId} (hr : l.rules[id]? = some r) (hp : a.productions[id]? = some p)
    (hbody : a.ReadsAll l number clear id 0 p.body elements front) (memory : Unit) :
    l.semantics id elements memory = (r.build elements, memory) := by
  obtain ⟨p', hp', -, hwords⟩ := h.exists_spelling hr
  obtain rfl := Option.some.inj (hp'.symm.trans hp)
  exact Language.semantics_of_kinds hr (by rw [hbody.kinds, hwords, h.kinds]) memory

mutual

/-- **What is read by the rules is read by the engine**, if its tokens can be taken as they are. -/
theorem readable (hnumber : l.Numbered g number) (hconflictless : g.Conflictless c) : ∀ {head : H} {front : List (K × Token)}
    {node : N}, a.Reads l (fun head => number (a.nonterminal head)) clear head front node →
    (∀ r ∈ front, a.CanTake g c clear r) →
    g.Readable c l.semantics (number (a.nonterminal head)) (.node (number (a.nonterminal head)) node) (front.map a.taken)
  | _, _, _, @Reads.rule _ _ _ _ _ _ _ id r p elements front node hr hp hbody hbuild, hfront => by
    have hproduction := h.production_of_rule hnumber hr hp
    refine hconflictless.readable_node hproduction (readableFrom hnumber hconflictless hproduction hbody rfl hfront) ?_
    exact (h.semantics_of_reads hr hp hbody ()).trans (congrArg (·, ()) hbuild)

theorem readableFrom (hnumber : l.Numbered g number) (hconflictless : g.Conflictless c) {q : Production} : ∀ {id dot : Nat}
    {words : List (Word K H)} {elements : List (Matched N)} {front : List (K × Token)}, g.production? id = some q →
    a.ReadsAll l (fun head => number (a.nonterminal head)) clear id dot words elements front →
    q.body.drop dot = words.map (fun word => number (a.name word)) → (∀ r ∈ front, a.CanTake g c clear r) →
    g.ReadableFrom c l.semantics id q dot elements (front.map a.taken)
  | _, _, _, _, _, hq, .nil, hdrop, _ => hconflictless.readableFrom_nil hq hdrop
  | id, dot, _, _, _, hq, @ReadsAll.token _ _ _ _ _ _ _ _ _ kind token words elements rest _ hnext hrest, hdrop, hfront => by
    obtain ⟨hfirst, hfront⟩ := List.forall_mem_cons.mp hfront
    obtain ⟨hget, hdrop⟩ := getElem?_of_drop hdrop
    have hget : q.body[dot]? = some (a.terminal kind).id := hget.trans (congrArg some (h.number_token hnumber kind))
    exact hconflictless.readableFrom_cons hq hget
      (hconflictless.readable_token (h.isTerminal_token hnumber kind) hfirst.takes)
      (readableFrom hnumber hconflictless hq hrest hdrop hfront) (clear_of_head? hfront hnext)
  | id, dot, _, _, _, hq, @ReadsAll.node _ _ _ _ _ _ _ _ _ head front node words elements rest hread hnext hrest, hdrop,
      hfront => by
    obtain ⟨hfirst, hfront⟩ := List.forall_mem_append.mp hfront
    obtain ⟨hget, hdrop⟩ := getElem?_of_drop hdrop
    rw [List.map_append]
    exact hconflictless.readableFrom_cons hq hget (readable hnumber hconflictless hread hfirst)
      (readableFrom hnumber hconflictless hq hrest hdrop hfront) (clear_of_head? hfront hnext)

end

/-- A parse of a tame language has the result that its run has with enough moves. -/
theorem parse_eq_ok_of_run (tame : a.outline.Tame) (hg : l.grammar = .ok g) {tokens : List Token} {node : N}
    (hrun : ∃ n, ∀ fuel, n ≤ fuel →
      (Engine.parse (g.table .unioned).tables l.semantics fuel tokens ()).result = .ok node) :
    l.parse l.table tokens = .ok node := by
  obtain ⟨number, hnumber⟩ := h.augmented.numbered hg
  obtain ⟨number', hdescribes, -⟩ := h.exists_describes hnumber
  obtain ⟨n, hn⟩ := hrun
  obtain ⟨last, hsteps, hlast⟩ :=
    hdescribes.exists_last_move (hnumber.augmented h.augmented) tame .unioned l.semantics tokens ()
  obtain ⟨m, hm⟩ := hsteps.run_eq
  -- both runs end with the last move
  have hresult := hn (n + 1 + m) (by omega)
  rw [Engine.parse, hm (n + 1), Engine.run, hlast] at hresult
  simp only [Language.parse, Language.table, hg, hdescribes.parserTable_eq_ok tame, hresult]

theorem conflictless (tame : a.outline.Tame) {g : Grammar} {number : String → SymbolId} (hnumber : l.Numbered g number) :
    g.Conflictless (g.itemSets .unioned) := by
  obtain ⟨codes, hdescribes, -⟩ := h.exists_describes hnumber
  exact (hnumber.wellFormed.conflictless (hnumber.augmented h.augmented) (hdescribes.parserTable_eq_ok tame .unioned)).1

/-- A parse gives what the rules read, if the tokens can be taken as they are read. -/
theorem parse_of_canTake (tame : a.outline.Tame) {front : List (K × Token)} {node : N}
    (hreads : ∀ number, a.Reads l number clear a.root front node)
    (htake : ∀ {g : Grammar} {number : String → SymbolId}, l.Numbered g number → g.Conflictless (g.itemSets .unioned) →
      (∀ r ∈ front, a.CanTake g (g.itemSets .unioned) clear r) ∧
        ∀ r ∈ front.head?, g.Alike (g.itemSets .unioned) Engine.startState (a.taken r)) :
    l.parse l.table (front.map Prod.snd) = .ok node := by
  obtain ⟨g, hg⟩ := h.isSound.exists_grammar
  obtain ⟨number, hnumber⟩ := h.augmented.numbered hg
  have hconflictless := h.conflictless tame hnumber
  obtain ⟨hfront, halike⟩ := htake hnumber hconflictless
  have hread := h.readable hnumber hconflictless (hreads _) hfront
  have hfirst : ∀ r ∈ (front.map a.taken).head?, g.Alike (g.itemSets .unioned) Engine.startState r := by
    intro r hr
    rw [List.head?_map] at hr
    obtain ⟨r', hr', rfl⟩ := Option.map_eq_some_iff.mp hr
    exact halike r' hr'
  refine h.parse_eq_ok_of_run tame hg ?_
  obtain ⟨n, hn⟩ := hconflictless.parse_readable (h.isRoot hnumber) hread hfirst
  rw [List.map_map] at hn
  exact ⟨n, hn⟩

/-- **What is read by the rules is parsed**: if the root is read from tokens of their own kinds, whatever the numbers of the
nonterminals, then the parse of the tokens gives its node. -/
theorem parse_reads (tame : a.outline.Tame) {front : List (K × Token)} {node : N} (hown : ∀ r ∈ front, a.IsOwn r)
    (hreads : ∀ number, a.Reads l number (fun _ _ _ => True) a.root front node) :
    l.parse l.table (front.map Prod.snd) = .ok node := by
  refine h.parse_of_canTake tame hreads fun _ _ => ⟨fun r hr => (hown r hr).canTake, fun r hr => ?_⟩
  rw [(hown r (List.mem_of_mem_head? hr)).taken_eq]
  exact Grammar.alike_plain _ _

end Covers

end Alphabet

end ShaderFront
