import Mathlib
import ShaderFront.Proofs.Alphabet

/-!
# Answers of a parser

A parse of a language ends with a node or with an error. Here no error comes from the tables or from a rule that does not fit
its body: if every rule either builds a node of the sort of its head or refuses one of the tokens, the parse does the same, or
it reports a token at a wrong place or the end of the input (`Alphabet.Covers.parse_answers`).

That there is a table, and that the parse ends within its bound, is checked on the outline (`Outline.isTame`).
-/

namespace ShaderFront

/-- **What may be wrong with tokens**: one of them stands at a wrong place, the input ends too early, or one of them is refused
for itself. -/
inductive InputError (refused : Token → ParseError → Prop) (tokens : List Token) : ParseError → Prop
  | unexpectedToken {token : Token} (expected : List String) : token ∈ tokens →
      InputError refused tokens (.unexpectedToken token.text expected token.span)
  | unexpectedEnd (expected : List String) (span : Span) : InputError refused tokens (.unexpectedEnd expected span)
  | refused {token : Token} {e : ParseError} : token ∈ tokens → refused token e → InputError refused tokens e

/-- The text of a token was not read as a number. -/
inductive Misread (token : Token) : ParseError → Prop
  | integer : Misread token (.semantic s!"invalid integer `{token.text}`")
  | float : Misread token (.semantic s!"invalid float `{token.text}`")

/-- A rule that reads a number builds a node, or the number is misread. -/
theorem answers_map {α N : Type} {read : Except ParseError α} {f : α → N} {Q : N → Prop} {token : Token} {tokens : List Token}
    (h : (∃ x, read = .ok x) ∨ ∃ e, read = .error e ∧ Misread token e) (htoken : token ∈ tokens) (hQ : ∀ x, Q (f x)) :
    (∃ node, read.map f = .ok node ∧ Q node) ∨ ∃ token ∈ tokens, ∃ e, read.map f = .error e ∧ Misread token e := by
  rcases h with ⟨x, rfl⟩ | ⟨e, rfl, hmisread⟩
  · exact .inl ⟨f x, rfl, hQ x⟩
  · exact .inr ⟨token, htoken, e, rfl, hmisread⟩

theorem eq_of_map_eq_ok {α β ε : Type} {read : Except ε α} {f : α → β} {b : β} (h : read.map f = .ok b) :
    ∃ x, b = f x := by
  cases read with
  | error e => cases h
  | ok x =>
    cases h
    exact ⟨x, rfl⟩

namespace Grammar

open Engine

variable {g : Grammar} {c : Collection} {σ N : Type} {P : SymbolId → List Token → N → Prop} {frames : List (Frame N)}
  {trail : Trail} {tokens : List Token} {semantics : Semantics σ N}

theorem Stacked.spelled (h : g.Stacked c P frames trail tokens) : g.Spelled c frames trail := by
  induction h with
  | nil => exact ⟨.nil, .nil⟩
  | cons hbelow htarget helement ih =>
    rw [← hbelow.topState_eq] at htarget
    refine ih.cons htarget ?_
    revert helement
    generalize Frame.element _ = element
    intro helement
    cases helement with
    | token _ hfits => exact hfits.imp Eq.symm standsFor_iff.mpr
    | node _ => exact .inl rfl

/-- An acceptance finds a node on the stack. -/
theorem Stacked.exists_node (wf : g.WellFormed) (haug : g.Augmented) (hc : g.Automaton c) (h : g.Stacked c P frames trail tokens)
    {symbol : SymbolId} (haction : (g.tableOf c).action (topState frames) symbol = .accept) :
    ∃ state symbol node below, frames = ⟨state, .node symbol node⟩ :: below := by
  obtain ⟨-, S, item, p, hS, hitem, hp, hhead, hdot⟩ := accept_sound wf hc haction
  obtain ⟨root, hbody, hnonterminal⟩ := haug.start_body hp hhead
  rw [h.topState_eq] at hS
  rw [hbody, List.length_singleton] at hdot
  obtain ⟨hle, hlabels, -⟩ := h.isTrail.pop wf hc 1 hS hitem hdot hp
  cases h with
  | nil => cases hle
  | @cons frame below trail tokens front label hbelow _ helement =>
    obtain ⟨state, element⟩ := frame
    cases helement with
    | node _ => exact ⟨state, _, _, below, rfl⟩
    | token hterminal _ =>
      -- the body of a start production is no terminal, so no token stands for it
      obtain rfl : label = root := by simpa [hbody] using hlabels
      cases hnonterminal.symm.trans hterminal

theorem Attributed.steps (wf : g.WellFormed) (haug : g.Augmented) (hc : g.Automaton c) (hkeeps : g.Keeps semantics P)
    {config last : Config σ N} (h : g.Attributed c P tokens config)
    (hsteps : Steps (g.tableOf c).tables semantics config last) : g.Attributed c P tokens last := by
  induction hsteps with
  | refl => exact h
  | tail _ hstep ih => exact ih.step wf haug hc hkeeps hstep

/-- A semantics refuses the elements of a body only for one of the tokens they cover. -/
def Refuses (g : Grammar) (semantics : Semantics σ N) (P : SymbolId → List Token → N → Prop) (T : Token → Prop)
    (refused : Token → ParseError → Prop) : Prop :=
  ∀ {id : ProductionId} {p : Production} {elements : List (Matched N)} {tokens : List Token} {memory : σ} {e : ParseError},
    g.production? id = some p → g.BearsAll P p.body elements tokens → (∀ token ∈ tokens, T token) →
    (semantics id elements memory).1 = .error e → ∃ token ∈ tokens, refused token e

/-- The error of a last move is one of the input. -/
theorem Attributed.error (wf : g.WellFormed) (haug : g.Augmented) (hc : g.Automaton c) {T : Token → Prop}
    {refused : Token → ParseError → Prop} (hrefuses : g.Refuses semantics P T refused) (htokens : ∀ token ∈ tokens, T token)
    {config : Config σ N} (h : g.Attributed c P tokens config) {outcome : Outcome σ N}
    (hstep : Engine.step (g.tableOf c).tables semantics config = .done outcome) {e : ParseError}
    (he : outcome.result = .error e) : InputError refused tokens e := by
  obtain ⟨trail, front, lastEnd, input, hstack, rfl, hread⟩ := h
  cases moving hstep with
  | accept => cases he
  | refuse =>
    cases he
    rw [syntaxError]
    split
    · exact .unexpectedEnd _ _
    · rename_i hend
      cases input with
      | nil => exact absurd (congrArg Token.symbol (Prod.mk.inj hread).1).symm hend
      | cons token rest =>
        rw [← (Prod.mk.inj hread).1]
        exact .unexpectedToken _ (by simp)
  | reduce haction hreduce =>
    obtain ⟨p, hp, hle, hmatch, -, S, hS, item, hitem, rfl, hdot⟩ := hstack.spelled.reduce wf hc haction
    obtain ⟨p', below, back, hp', rfl, -, hbears⟩ := hstack.reduce wf hc haction
    cases hp'.symm.trans hp
    obtain ⟨target, hgoto⟩ := hc.exists_goto wf hS hitem hdot hp (hc.head_ne_start wf haug.avoids_start haction hp)
    rw [reduce_eq hp hle hmatch] at hreduce
    split at hreduce
    · rename_i e' memory hfail
      cases hreduce
      cases he
      have hback : ∀ token ∈ back, token ∈ below ++ back ++ input := fun token htoken => by simp [htoken]
      obtain ⟨token, htoken, hrefused⟩ :=
        hrefuses hp hbears (fun token htoken => htokens token (hback token htoken)) (congrArg Prod.fst hfail)
      exact .refused (hback token htoken) hrefused
    · rw [show (g.tableOf c).tables.goto (topState (config.frames.drop p.body.length)) p.head = some target from hgoto] at hreduce
      cases hreduce
  | bare haction hframes =>
    obtain ⟨state, symbol, node, below, heq⟩ := hstack.exists_node wf haug hc haction
    exact absurd heq (hframes state symbol node below)

end Grammar

/-! ## Outlines -/

namespace Outline

/-- Whether the tables of an outline have no conflicts and parse in few moves. -/
def isTame (o : Outline) (rounds fuel cap : Nat) : Bool :=
  let s := Survey.grown o rounds
  let l := Ledger.settled o s cap rounds
  o.isSimple s fuel && (o.isPaid s l && Nat.ble l.cap 127)

/-- An outline that passes the check, with the numbers that the check takes. -/
structure Tame (o : Outline) where
  rounds : Nat
  fuel : Nat
  cap : Nat
  isTame : o.isTame rounds fuel cap = true

end Outline

theorem Table.le_moveBound (t : Table) (n : Nat) : 128 * (n + 1) ≤ t.moveBound n := by
  have hsquare : Nat.pow ((n + 2) * 2) 2 ≤ Nat.pow ((n + 2) * (t.stateCount + 2)) 2 :=
    Nat.pow_le_pow_left (Nat.mul_le_mul_left _ (Nat.le_add_left 2 _)) 2
  have hpower : Nat.pow 2 3 ≤ Nat.pow (t.grammar.symbols.length + 2) (t.stateCount + 3) :=
    (Nat.pow_le_pow_left (Nat.le_add_left 2 _) 3).trans (Nat.pow_le_pow_right (by omega) (Nat.le_add_left 3 _))
  calc 128 * (n + 1) ≤ ((n + 2) * 2) ^ 2 * 2 ^ 3 := by nlinarith
    _ ≤ t.moveBound n := Nat.mul_le_mul hsquare hpower

namespace Outline

variable {o : Outline} {g : Grammar} {number : Nat → SymbolId} {σ N : Type}

theorem Tame.parts (tame : o.Tame) : ∃ s l, o.isSimple s tame.fuel = true ∧ s.isClosed o = true ∧
    o.isDeep s = true ∧ o.isPaid s l = true ∧ l.cap ≤ 127 := by
  obtain ⟨hsimple, hledger⟩ := (Bool.and_eq_true _ _).mp tame.isTame
  obtain ⟨hpaid, hcap⟩ := (Bool.and_eq_true _ _).mp hledger
  obtain ⟨⟨hclosed, hdeep⟩, -⟩ : (_ ∧ _) ∧ _ := by simpa only [isSimple, Bool.and_eq_true] using hsimple
  exact ⟨_, _, hsimple, hclosed, hdeep, hpaid, Nat.le_of_ble_eq_true hcap⟩

/-- A tame outline has a table. -/
theorem Describes.parserTable_eq_ok (h : o.Describes g number) (tame : o.Tame)
    (construction : Construction) : g.parserTable construction = .ok (g.table construction) := by
  obtain ⟨s, -, hsimple, -⟩ := tame.parts
  exact Grammar.parserTable_eq_ok.mpr ⟨h.conflicts_eq_nil hsimple construction, rfl⟩

/-- Every parse with a table of a tame outline ends within the bound on its moves. -/
theorem Describes.exists_last_move (h : o.Describes g number) (haug : g.Augmented) (tame : o.Tame)
    (construction : Construction) (semantics : Semantics σ N) (tokens : List Token) (memory : σ) : ∃ last : Engine.Config σ N,
      Engine.Steps (g.table construction).tables semantics (Engine.start (g.table construction).tables tokens memory) last ∧
      Engine.step (g.table construction).tables semantics last = .done (Engine.parse (g.table construction).tables semantics
        ((g.table construction).moveBound tokens.length) tokens memory) := by
  obtain ⟨s, l, -, hclosed, hdeep, hpaid, hcap⟩ := tame.parts
  have wf := h.wellFormed
  refine (h.budget hclosed hdeep hpaid).exists_last_move wf haug (wf.automaton construction) _ ⟨.nil, .nil⟩ ?_
  have hpending : Engine.pending (g.table construction).tables
      (Engine.start (g.table construction).tables tokens memory : Engine.Config σ N) ≤ tokens.length :=
    Grammar.pending_le (t := (g.table construction).tables) rfl rfl
  calc Grammar.charge _ _ _ _ (g.table construction).tables [] (Engine.start (g.table construction).tables tokens memory)
      ≤ 127 + (127 + 1) * tokens.length := Nat.add_le_add hcap (Nat.mul_le_mul (Nat.succ_le_succ hcap) hpending)
    _ < 128 * (tokens.length + 1) := by omega
    _ ≤ (g.table construction).moveBound tokens.length := Table.le_moveBound _ _

end Outline

/-! ## Languages -/

namespace Language

variable {N : Type} {l : Language N} {g : Grammar} {number : String → SymbolId} {P : String → List Token → N → Prop}

/-- A rule refuses the elements of its body only for one of the tokens they cover. -/
def Refuses (l : Language N) (P : String → List Token → N → Prop) (T : Token → Prop) (refused : Token → ParseError → Prop)
    (r : Rule N) : Prop :=
  ∀ {elements : List (Matched N)} {tokens : List Token} {e : ParseError}, l.Spells P (Text.words r.body) elements tokens →
    (∀ token ∈ tokens, T token) → r.build elements = .error e → ∃ token ∈ tokens, refused token e

theorem Numbered.refuses (h : l.Numbered g number) {T : Token → Prop} {refused : Token → ParseError → Prop}
    (hrules : ∀ r ∈ l.rules, l.Refuses P T refused r) :
    g.Refuses l.semantics (l.byNumber number P) T refused := by
  intro id p elements tokens memory e hp hbears htokens hfail
  obtain ⟨r, hget, hr, -, hbody⟩ := h.exists_rule hp
  rw [hbody] at hbears
  have hspells := h.spells (fun name hname => uses_of_mem_body hr hname) hbears
  rw [semantics_of_kinds hget hspells.kinds] at hfail
  exact hrules r hr hspells htokens hfail

end Language

/-! ## Alphabets -/

namespace Alphabet

variable {K H N : Type} {a : Alphabet K H} {T : Token → Prop} {A : H → List Token → N → Prop}
  {refused : Token → ParseError → Prop}

/-- A rule fits its production: it builds a node with the attribute, or refuses one of the tokens. -/
def Fits (a : Alphabet K H) (T : Token → Prop) (A : H → List Token → N → Prop) (refused : Token → ParseError → Prop)
    (r : Rule N) (p : Spelling K H) : Prop :=
  ∀ elements tokens, a.Fills T A p.body elements tokens → (∃ node, r.build elements = .ok node ∧ A p.head tokens node) ∨
    ∃ token ∈ tokens, ∃ e, r.build elements = .error e ∧ refused token e

section Fills

variable {words : List (Word K H)} {Q : List (Matched N) → List Token → Prop}

/-! What holds of all elements that fill a body is said word by word. -/

theorem forall_fills_nil :
    (∀ elements tokens, a.Fills T A [] elements tokens → Q elements tokens) ↔ Q [] [] :=
  ⟨fun h => h [] [] ⟨rfl, rfl⟩, fun h elements tokens hfills => by
    obtain ⟨rfl, rfl⟩ := hfills
    exact h⟩

theorem forall_fills_token {kind : K} :
    (∀ elements tokens, a.Fills T A (.token kind :: words) elements tokens → Q elements tokens) ↔
      ∀ token, a.Admits kind token → T token → ∀ elements tokens, a.Fills T A words elements tokens →
        Q (.token token :: elements) (token :: tokens) :=
  ⟨fun h token hadmits htoken elements tokens hfills =>
    h _ _ ⟨token, elements, tokens, hadmits, htoken, rfl, rfl, hfills⟩, fun h elements tokens hfills => by
    obtain ⟨token, elements, tokens, hadmits, htoken, rfl, rfl, hrest⟩ := hfills
    exact h token hadmits htoken elements tokens hrest⟩

theorem forall_fills_node {head : H} :
    (∀ elements tokens, a.Fills T A (.node head :: words) elements tokens → Q elements tokens) ↔
      ∀ symbol node front, A head front node → ∀ elements tokens, a.Fills T A words elements tokens →
        Q (.node symbol node :: elements) (front ++ tokens) :=
  ⟨fun h symbol node front hnode elements tokens hfills =>
    h _ _ ⟨symbol, node, front, elements, tokens, hnode, rfl, rfl, hfills⟩, fun h elements tokens hfills => by
    obtain ⟨symbol, node, front, elements, tokens, hnode, rfl, rfl, hrest⟩ := hfills
    exact h symbol node front hnode elements tokens hrest⟩

/-- What a rule keeps is said for all elements that fill its body, and then for the node it builds. -/
theorem builds_iff {r : Rule N} {p : Spelling K H} : a.Builds T A r p ↔ ∀ elements tokens, a.Fills T A p.body elements tokens →
    ∀ node, r.build elements = .ok node → A p.head tokens node :=
  ⟨fun h elements tokens hfills node => h elements tokens node hfills,
    fun h elements tokens node hfills => h elements tokens hfills node⟩

end Fills

theorem Fills.imp {B : H → List Token → N → Prop} (hAB : ∀ {head : H} {tokens : List Token} {node : N}, A head tokens node →
    B head tokens node) : ∀ {words : List (Word K H)} {elements : List (Matched N)} {tokens : List Token},
    a.Fills T A words elements tokens → a.Fills T B words elements tokens
  | [], _, _, h => h
  | .token _ :: _, _, _, ⟨token, elements, tokens, hadmits, htoken, helements, htokens, hrest⟩ =>
    ⟨token, elements, tokens, hadmits, htoken, helements, htokens, Fills.imp hAB hrest⟩
  | .node _ :: _, _, _, ⟨symbol, node, front, elements, tokens, hnode, helements, htokens, hrest⟩ =>
    ⟨symbol, node, front, elements, tokens, hAB hnode, helements, htokens, Fills.imp hAB hrest⟩

/-- A rule that fits may keep another attribute besides. -/
theorem Fits.and {r : Rule N} {p : Spelling K H} (h : a.Fits T A refused r p) {B : H → List Token → N → Prop}
    (hB : ∀ elements tokens node, a.Fills T (fun head tokens node => A head tokens node ∧ B head tokens node) p.body elements
      tokens → r.build elements = .ok node → B p.head tokens node) :
    a.Fits T (fun head tokens node => A head tokens node ∧ B head tokens node) refused r p := by
  intro elements tokens hfills
  refine (h elements tokens (Fills.imp And.left hfills)).imp (fun ⟨node, hnode, hA⟩ => ?_) id
  exact ⟨node, hnode, hA, hB elements tokens node hfills hnode⟩

theorem Fits.builds {r : Rule N} {p : Spelling K H} (h : a.Fits T A refused r p) : a.Builds T A r p := by
  intro elements tokens node hfills hnode
  rcases h elements tokens hfills with ⟨node', hnode', hA⟩ | ⟨_, _, _, herror, _⟩
  · cases hnode.symm.trans hnode'
    exact hA
  · cases hnode.symm.trans herror

namespace Covers

variable {l : Language N} (h : a.Covers l)

include h

theorem refuses (hrules : List.Forall₂ (a.Fits T A refused) l.rules a.productions) {r : Rule N} (hr : r ∈ l.rules) :
    l.Refuses (a.byName T A) T refused r := by
  intro elements tokens e hspells htokens hfail
  obtain ⟨k, hk⟩ := List.mem_iff_getElem?.mp hr
  obtain ⟨p, hp, -, hbody⟩ := h.exists_spelling hk
  rw [hbody] at hspells
  obtain ⟨hrlt, rfl⟩ := List.getElem?_eq_some_iff.mp hk
  obtain ⟨hplt, rfl⟩ := List.getElem?_eq_some_iff.mp hp
  rcases hrules.get hrlt hplt _ _ (h.fills hspells htokens) with ⟨_, hnode, _⟩ | ⟨token, htoken, e', herror, hrefused⟩
  · cases hfail.symm.trans hnode
  · cases hfail.symm.trans herror
    exact ⟨token, htoken, hrefused⟩

/-- **Every parse has an answer**: a node of the sort of the root, or an error of the input. -/
theorem parse_answers (tame : a.outline.Tame)
    (hrules : List.Forall₂ (a.Fits T A refused) l.rules a.productions) {tokens : List Token}
    (hkinds : ∀ token ∈ tokens, ∃ kind, token.symbol = (a.terminal kind).id) (htokens : ∀ token ∈ tokens, T token) :
    (∃ node, l.parse l.table tokens = .ok node ∧ A a.root tokens node) ∨
      ∃ e, l.parse l.table tokens = .error (.parse e) ∧ InputError refused tokens e := by
  obtain ⟨g, hg⟩ := h.isSound.exists_grammar
  obtain ⟨number, hnumber⟩ := h.augmented.numbered hg
  obtain ⟨number', hdescribes, -⟩ := h.exists_describes hnumber
  have haug := hnumber.augmented h.augmented
  obtain ⟨last, hsteps, hlast⟩ := hdescribes.exists_last_move haug tame .unioned l.semantics tokens ()
  have wf := hnumber.wellFormed
  have hc := wf.automaton .unioned
  have hbuilds : List.Forall₂ (a.Builds T A) l.rules a.productions := hrules.imp fun _ _ hfits => hfits.builds
  have hkeeps : g.Keeps l.semantics (l.byNumber number (a.byName T A)) := hnumber.keeps fun r hr => h.preserves hbuilds hr
  have hparse : l.table = .ok (g.table .unioned) := by
    simp only [Language.table, hg, hdescribes.parserTable_eq_ok tame]
  cases hresult : (Engine.parse (g.table .unioned).tables l.semantics ((g.table .unioned).moveBound tokens.length) tokens
    ()).result with
  | ok node =>
    have hnode : l.parse l.table tokens = .ok node := by simp only [Language.parse, hparse, hresult]
    exact .inl ⟨node, hnode, h.parse_attribute hbuilds hkinds htokens hnode⟩
  | error e =>
    refine .inr ⟨e, by simp only [Language.parse, hparse, hresult], ?_⟩
    have hattributed : g.Attributed (g.itemSets .unioned) (l.byNumber number (a.byName T A)) tokens last :=
      Grammar.Attributed.steps wf haug hc hkeeps ⟨[], [], 0, tokens, .nil, rfl, rfl⟩ hsteps
    exact hattributed.error wf haug hc (hnumber.refuses fun r hr => h.refuses hrules hr) htokens hlast hresult

end Covers

end Alphabet

end ShaderFront
