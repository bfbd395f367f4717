import Mathlib
import ShaderFront.Proofs.Buildable
import ShaderFront.Proofs.Ledger

/-!
# Alphabets

The rules of a language are texts. An alphabet has constructors for their names: a word of a body is a kind of token or a
nonterminal, and a production is spelled with words. `Alphabet.Covers` says that the spelled productions are the rules of a
language, and that different words have different names.

A covered language has a grammar (`Alphabet.Covers.isSound`), and the alphabet gives the outline of it
(`Alphabet.Covers.exists_describes`). What every production preserves holds of the result of a parse
(`Alphabet.Covers.parse_attribute`).
-/

namespace ShaderFront

theorem Text.words_ofList (cs : List Char) : Text.words (String.ofList cs) = Text.wordsFrom [] cs := by
  simp [Text.words]

/-- A word of a body. -/
inductive Word (K H : Type) where
  | token (kind : K)
  | node (head : H)
deriving DecidableEq

/-- What stands for a word in a body. -/
def Word.kind {K H : Type} : Word K H → ElementKind
  | .token _ => .token
  | .node _ => .node

/-- A production over words. -/
structure Spelling (K H : Type) where
  head : H
  body : List (Word K H)
deriving DecidableEq

/-- The kinds of tokens and the nonterminals of a language, with its productions. -/
structure Alphabet (K H : Type) where
  kinds : List K
  terminal : K → Terminal
  heads : List H
  nonterminal : H → String
  /-- Numbers the nonterminals, the start symbol first. -/
  rank : H → Nat
  start : H
  root : H
  productions : List (Spelling K H)

namespace Alphabet

variable {K H N : Type} (a : Alphabet K H)

/-- All words. -/
def words : List (Word K H) := a.kinds.map .token ++ a.heads.map .node

/-- The name of a word in the rules. -/
def name : Word K H → String
  | .token kind => (a.terminal kind).name
  | .node head => a.nonterminal head

/-- The code of a word in an outline. -/
def code : Word K H → Nat
  | .token kind => 2 * (a.terminal kind).id + 2
  | .node head => 2 * a.rank head + 1

/-- The productions with codes for words. -/
def outline : Outline := a.productions.map fun p => (a.code (.node p.head), p.body.map a.code)

/-- The words of an alphabet are the names of a language, and its productions are the rules. -/
structure Covers (a : Alphabet K H) (l : Language N) : Prop where
  mem_kinds : ∀ kind, kind ∈ a.kinds
  mem_heads : ∀ head, head ∈ a.heads
  terminals : l.terminals = a.kinds.map a.terminal
  rules : l.rules.map (fun r => (r.head, Text.words r.body)) =
    a.productions.map fun p => (a.nonterminal p.head, p.body.map a.name)
  ids : (a.kinds.map fun kind => (a.terminal kind).id).Nodup
  roles : ∀ kind ∈ a.kinds, (a.terminal kind).role = .common ∨ (a.terminal kind).role = .wildcard
  wildcards : ∀ kind ∈ a.kinds, ∀ other ∈ a.kinds, (a.terminal kind).role = .wildcard →
    (a.terminal other).role = .wildcard → kind = other
  names : (a.words.map a.name).Nodup
  ranks : (a.heads.map a.rank).Nodup
  empty : ∀ word ∈ a.words, a.name word ≠ Symbol.emptyName
  startName : a.nonterminal a.start = Symbol.startName
  startRank : a.rank a.start = 0
  startBody : ∀ p ∈ a.productions, p.head = a.start → p.body = [.node a.root]
  start_not_mem : ∀ p ∈ a.productions, .node a.start ∉ p.body
  different : a.productions.Nodup
  defined : ∀ head ∈ a.heads, ∃ p ∈ a.productions, p.head = head

namespace Covers

variable {a} {l : Language N} (h : a.Covers l)

include h

/-! ## Words -/

theorem mem_words (word : Word K H) : word ∈ a.words := by
  cases word with
  | token kind => exact List.mem_append_left _ (List.mem_map_of_mem (h.mem_kinds kind))
  | node head => exact List.mem_append_right _ (List.mem_map_of_mem (h.mem_heads head))

/-- Different words have different names. -/
theorem name_injective : Function.Injective a.name := fun x y heq =>
  List.inj_on_of_nodup_map h.names (h.mem_words x) (h.mem_words y) heq

theorem id_injective {kind other : K} (heq : (a.terminal kind).id = (a.terminal other).id) : kind = other :=
  List.inj_on_of_nodup_map h.ids (h.mem_kinds kind) (h.mem_kinds other) heq

theorem code_injective : Function.Injective a.code := by
  intro x y heq
  cases x with
  | token kind =>
    cases y with
    | token other =>
      have hid : (a.terminal kind).id = (a.terminal other).id :=
        Nat.eq_of_mul_eq_mul_left Nat.zero_lt_two (Nat.add_right_cancel heq)
      rw [h.id_injective hid]
    | node head =>
      simp only [code] at heq
      omega
  | node head =>
    cases y with
    | token kind =>
      simp only [code] at heq
      omega
    | node other =>
      have hrank : a.rank head = a.rank other :=
        Nat.eq_of_mul_eq_mul_left Nat.zero_lt_two (Nat.add_right_cancel heq)
      rw [List.inj_on_of_nodup_map h.ranks (h.mem_heads head) (h.mem_heads other) hrank]

theorem terminal_name_ne (kind : K) (head : H) : (a.terminal kind).name ≠ a.nonterminal head := fun heq =>
  nomatch h.name_injective (show a.name (.token kind) = a.name (.node head) from heq)

theorem exists_kind {t : Terminal} (ht : t ∈ l.terminals) : ∃ kind, a.terminal kind = t := by
  rw [h.terminals] at ht
  obtain ⟨kind, -, hkind⟩ := List.mem_map.mp ht
  exact ⟨kind, hkind⟩

theorem terminal_mem (kind : K) : a.terminal kind ∈ l.terminals := by
  rw [h.terminals]
  exact List.mem_map_of_mem (h.mem_kinds kind)

/-- The spelling of a rule. -/
theorem exists_spelling {k : Nat} {r : Rule N} (hr : l.rules[k]? = some r) : ∃ p, a.productions[k]? = some p ∧
    r.head = a.nonterminal p.head ∧ Text.words r.body = p.body.map a.name := by
  have hmap := congrArg (·[k]?) h.rules
  simp only [List.getElem?_map, hr, Option.map_some] at hmap
  obtain ⟨p, hp, heq⟩ := Option.map_eq_some_iff.mp hmap.symm
  obtain ⟨hhead, hbody⟩ := Prod.mk.inj heq
  exact ⟨p, hp, hhead.symm, hbody.symm⟩

theorem exists_spelling_of_mem {r : Rule N} (hr : r ∈ l.rules) : ∃ p ∈ a.productions,
    r.head = a.nonterminal p.head ∧ Text.words r.body = p.body.map a.name := by
  obtain ⟨k, hk⟩ := List.mem_iff_getElem?.mp hr
  obtain ⟨p, hp, hhead, hbody⟩ := h.exists_spelling hk
  exact ⟨p, List.mem_of_getElem? hp, hhead, hbody⟩

/-- The rule of a nonterminal. -/
theorem exists_rule (head : H) : ∃ r ∈ l.rules, r.head = a.nonterminal head := by
  obtain ⟨p, hp, rfl⟩ := h.defined head (h.mem_heads head)
  have hmem : (a.nonterminal p.head, p.body.map a.name) ∈ l.rules.map fun r => (r.head, Text.words r.body) := by
    rw [h.rules]
    exact List.mem_map_of_mem hp
  obtain ⟨r, hr, heq⟩ := List.mem_map.mp hmem
  exact ⟨r, hr, (Prod.mk.inj heq).1⟩

/-- What stands for the words of a rule. -/
theorem kinds (words : List (Word K H)) : l.kinds (words.map a.name) = words.map Word.kind := by
  induction words with
  | nil => rfl
  | cons word words ih =>
    rw [List.map_cons, List.map_cons, ← ih]
    cases word with
    | token kind => exact Language.kinds_cons_of_mem (h.terminal_mem kind) _
    | node head =>
      refine Language.kinds_cons_of_forall_ne (fun t ht => ?_) _
      obtain ⟨kind, rfl⟩ := h.exists_kind ht
      exact h.terminal_name_ne kind head

theorem uses (word : Word K H) : l.Uses (a.name word) := by
  cases word with
  | token kind => exact .inr (.inl ⟨a.terminal kind, h.terminal_mem kind, rfl⟩)
  | node head =>
    obtain ⟨r, hr, hhead⟩ := h.exists_rule head
    exact .inr (.inr ⟨r, hr, .inl hhead.symm⟩)

theorem head_eq_start {p : Spelling K H} (hhead : a.nonterminal p.head = Symbol.startName) : p.head = a.start :=
  Word.node.inj (h.name_injective (show a.name (.node p.head) = a.name (.node a.start) from hhead.trans h.startName.symm))

/-! ## Soundness -/

theorem augmented : l.Augmented := by
  refine ⟨fun t ht => ?_, fun r hr => ?_, fun r hr hhead => ?_⟩
  · obtain ⟨kind, rfl⟩ := h.exists_kind ht
    rcases h.roles kind (h.mem_kinds kind) with hrole | hrole <;> simp [hrole]
  · obtain ⟨p, hp, -, hbody⟩ := h.exists_spelling_of_mem hr
    rw [hbody]
    refine ⟨fun hempty => ?_, fun hstart => ?_⟩
    · obtain ⟨word, -, hname⟩ := List.mem_map.mp hempty
      exact h.empty word (h.mem_words word) hname
    · obtain ⟨word, hword, hname⟩ := List.mem_map.mp hstart
      obtain rfl : word = .node a.start := h.name_injective (hname.trans h.startName.symm)
      exact h.start_not_mem p hp hword
  · obtain ⟨p, hp, hname, hbody⟩ := h.exists_spelling_of_mem hr
    rw [hbody, h.startBody p hp (h.head_eq_start (hname.symm.trans hhead))]
    refine ⟨rfl, fun name hname t ht hterminal => ?_⟩
    obtain ⟨kind, rfl⟩ := h.exists_kind ht
    rw [List.mem_singleton.mp hname] at hterminal
    exact h.terminal_name_ne kind a.root hterminal

theorem differ {kind other : K} (hne : kind ≠ other) : Builder.Differ (a.terminal other) (a.terminal kind) := by
  refine ⟨fun hname => ?_, fun hid => hne (h.id_injective hid).symm, fun hspecial hrole => ?_⟩
  · exact hne (Word.token.inj (h.name_injective hname)).symm
  · have hwildcard := (h.roles other (h.mem_kinds other)).resolve_left hspecial
    exact hne (h.wildcards kind (h.mem_kinds kind) other (h.mem_kinds other) (hrole.symm.trans hwildcard) hwildcard)

/-- **A covered language is sound**, and so it has a grammar. -/
theorem isSound : l.IsSound := by
  refine { h.augmented with terminals := ?_, terminal := ?_, heads := ?_, rules := ?_, defined := ?_ }
  · rw [h.terminals, List.pairwise_map]
    exact (h.ids.of_map _).imp h.differ
  · intro t ht
    obtain ⟨kind, rfl⟩ := h.exists_kind ht
    refine ⟨fun hname => h.terminal_name_ne kind a.start (hname.trans h.startName.symm), fun hrole => ?_⟩
    rcases h.roles kind (h.mem_kinds kind) with hcommon | hwildcard
    · cases hcommon.symm.trans hrole
    · cases hwildcard.symm.trans hrole
  · intro r hr t ht
    obtain ⟨kind, rfl⟩ := h.exists_kind ht
    obtain ⟨p, -, hhead, -⟩ := h.exists_spelling_of_mem hr
    exact fun heq => h.terminal_name_ne kind p.head (heq.trans hhead)
  · rw [h.rules]
    refine h.different.map fun p q heq => ?_
    obtain ⟨hhead, hbody⟩ := Prod.mk.inj heq
    obtain ⟨head, body⟩ := p
    obtain ⟨head', body'⟩ := q
    obtain rfl : head = head' := Word.node.inj (h.name_injective hhead)
    obtain rfl : body = body' := List.map_injective_iff.mpr h.name_injective hbody
    rfl
  · intro name huses hname
    rcases huses with rfl | ⟨t, ht, rfl⟩ | ⟨r, hr, rfl | hmem⟩
    · rw [← h.startName]
      exact h.exists_rule a.start
    · exact absurd rfl (hname t ht)
    · exact ⟨r, hr, rfl⟩
    · obtain ⟨p, -, -, hbody⟩ := h.exists_spelling_of_mem hr
      rw [hbody] at hmem
      obtain ⟨word, -, rfl⟩ := List.mem_map.mp hmem
      cases word with
      | token kind => exact absurd rfl (hname _ (h.terminal_mem kind))
      | node head => exact h.exists_rule head

/-! ## Outlines -/

theorem exists_word {c : Nat} (hmentions : a.outline.Mentions c) : c = 0 ∨ ∃ word, a.code word = c := by
  rcases hmentions with rfl | rfl | ⟨p', hp', hc⟩
  · exact .inl rfl
  · exact .inr ⟨.node a.start, by rw [code, h.startRank]⟩
  · obtain ⟨p, -, rfl⟩ := List.mem_map.mp hp'
    rcases hc with rfl | hc
    · exact .inr ⟨.node p.head, rfl⟩
    · obtain ⟨word, -, hword⟩ := List.mem_map.mp hc
      exact .inr ⟨word, hword⟩

omit h in
theorem code_ne_zero (word : Word K H) : a.code word ≠ 0 := by cases word <;> simp [code]

/-- **The outline of an alphabet describes the grammar**, with the numbers of words for their codes. -/
theorem exists_describes {g : Grammar} {number : String → SymbolId} (hnumber : l.Numbered g number) :
    ∃ number', a.outline.Describes g number' ∧ ∀ word, number' (a.code word) = number (a.name word) := by
  classical
  let number' (c : Nat) : SymbolId := if hc : ∃ word, a.code word = c then number (a.name hc.choose) else g.endOfInput
  have hword : ∀ word, number' (a.code word) = number (a.name word) := by
    intro word
    have hc : ∃ other, a.code other = a.code word := ⟨word, rfl⟩
    simp only [number']
    rw [dif_pos hc, h.code_injective hc.choose_spec]
  have hzero : number' 0 = g.endOfInput := dif_neg fun ⟨word, hcode⟩ => code_ne_zero word hcode
  refine ⟨number', ⟨hnumber.wellFormed, fun {id p} hp => ?_, fun hc => ?_, fun hc hd heq => ?_, ?_, hzero.symm⟩, hword⟩
  · obtain ⟨r, hr, -, hhead, hbody⟩ := hnumber.exists_rule hp
    obtain ⟨q, hq, hqhead, hqbody⟩ := h.exists_spelling hr
    refine ⟨_, _, by rw [outline, List.getElem?_map, hq]; rfl, ?_, ?_⟩
    · rw [hhead, hqhead, hword]
      rfl
    · rw [hbody, hqbody, List.map_map, List.map_map]
      exact List.map_congr_left fun word _ => (hword word).symm
  · rcases h.exists_word hc with rfl | ⟨word, rfl⟩
    · rw [hzero, hnumber.wellFormed.endOfInput]
      rfl
    · rw [hword]
      cases word with
      | token kind =>
        rw [(hnumber.isTerminal (h.uses _)).mpr ⟨a.terminal kind, h.terminal_mem kind, rfl⟩]
        simp [Outline.isToken, code]
      | node head =>
        rw [hnumber.not_isTerminal (h.uses _) fun t ht heq => ?_]
        · rw [Outline.isToken, code, Nat.mul_add_mod]
          rfl
        · obtain ⟨kind, rfl⟩ := h.exists_kind ht
          exact h.terminal_name_ne kind head heq
  · rcases h.exists_word hc with rfl | ⟨x, rfl⟩ <;> rcases h.exists_word hd with rfl | ⟨y, rfl⟩
    · rfl
    · rw [hzero, hword] at heq
      exact absurd heq.symm (hnumber.endOfInput (h.uses y))
    · rw [hzero, hword] at heq
      exact absurd heq (hnumber.endOfInput (h.uses x))
    · rw [hword, hword] at heq
      rw [h.name_injective (hnumber.injective (h.uses x) (h.uses y) heq)]
  · rw [hnumber.start, ← h.startName, show (1 : Nat) = a.code (.node a.start) by rw [code, h.startRank], hword]
    rfl

end Covers

/-! ## Attributes -/

/-- A token may stand for a kind: it has this kind, or the kind is the wildcard, which stands in for the token. -/
def Admits (kind : K) (token : Token) : Prop :=
  token.symbol = (a.terminal kind).id ∨
    (a.terminal kind).role = .wildcard ∧ ∀ tame, (a.terminal tame).wild = false → token.symbol ≠ (a.terminal tame).id

/-- Elements stand for the words of a body, one for each, and cover some tokens together. The tokens satisfy `T`, and the
nodes have the attribute `A` with the tokens they cover. -/
def Fills (T : Token → Prop) (A : H → List Token → N → Prop) : List (Word K H) → List (Matched N) → List Token → Prop
  | [], elements, tokens => elements = [] ∧ tokens = []
  | .token kind :: words, elements, tokens => ∃ token elements' tokens', a.Admits kind token ∧ T token ∧
      elements = .token token :: elements' ∧ tokens = token :: tokens' ∧ Fills T A words elements' tokens'
  | .node head :: words, elements, tokens => ∃ symbol node front elements' tokens', A head front node ∧
      elements = .node symbol node :: elements' ∧ tokens = front ++ tokens' ∧ Fills T A words elements' tokens'

/-- A rule keeps an attribute from the elements of its body to its head. -/
def Builds (T : Token → Prop) (A : H → List Token → N → Prop) (r : Rule N) (p : Spelling K H) : Prop :=
  ∀ elements tokens node, a.Fills T A p.body elements tokens → r.build elements = .ok node → A p.head tokens node

/-- An attribute of nonterminals is one of their names. -/
def byName (T : Token → Prop) (A : H → List Token → N → Prop) (name : String) (tokens : List Token) (node : N) : Prop :=
  (∀ token ∈ tokens, T token) → ∀ head : H, a.nonterminal head = name → A head tokens node

namespace Covers

variable {a} {l : Language N} (h : a.Covers l) {T : Token → Prop} {A : H → List Token → N → Prop}

include h

theorem admits {kind : K} {token : Token} (hadmits : l.Admits (a.terminal kind) token) : a.Admits kind token := by
  refine hadmits.imp id fun ⟨⟨u, hu, hrole, hid⟩, hwild⟩ => ⟨?_, fun tame htame htoken => ?_⟩
  · obtain ⟨other, rfl⟩ := h.exists_kind hu
    rwa [← h.id_injective hid]
  · have := hwild _ (h.terminal_mem tame) htoken.symm
    rw [htame] at this
    cases this

theorem fills : ∀ {words : List (Word K H)} {elements : List (Matched N)} {tokens : List Token},
    l.Spells (a.byName T A) (words.map a.name) elements tokens → (∀ token ∈ tokens, T token) →
    a.Fills T A words elements tokens
  | [], _, _, .nil, _ => ⟨rfl, rfl⟩
  | word :: words, _, _, hspells, htokens => by
    generalize hnames : (word :: words).map a.name = names at hspells
    cases hspells with
    | nil => cases hnames
    | @token t token names elements tokens ht hadmits hrest =>
      obtain ⟨hname, rfl⟩ := List.cons.inj hnames
      obtain ⟨htoken, htokens'⟩ := List.forall_mem_cons.mp htokens
      obtain ⟨kind, rfl⟩ := h.exists_kind ht
      obtain rfl : word = .token kind := h.name_injective hname
      exact ⟨token, elements, tokens, h.admits hadmits, htoken, rfl, rfl, fills hrest htokens'⟩
    | @node name symbol front node names elements tokens hname hattribute hrest =>
      obtain ⟨rfl, rfl⟩ := List.cons.inj hnames
      obtain ⟨hfront, htokens'⟩ := List.forall_mem_append.mp htokens
      cases word with
      | token kind => exact absurd rfl (hname _ (h.terminal_mem kind))
      | node head =>
        exact ⟨symbol, node, front, elements, tokens, hattribute hfront head rfl, rfl, rfl, fills hrest htokens'⟩

theorem preserves (hrules : List.Forall₂ (a.Builds T A) l.rules a.productions) {r : Rule N} (hr : r ∈ l.rules) :
    l.Preserves (a.byName T A) r := by
  intro elements tokens node hspells hnode htokens head hhead
  obtain ⟨k, hk⟩ := List.mem_iff_getElem?.mp hr
  obtain ⟨p, hp, hname, hbody⟩ := h.exists_spelling hk
  rw [hbody] at hspells
  obtain rfl : head = p.head := Word.node.inj (h.name_injective (hhead.trans hname))
  obtain ⟨hrlt, rfl⟩ := List.getElem?_eq_some_iff.mp hk
  obtain ⟨hplt, rfl⟩ := List.getElem?_eq_some_iff.mp hp
  exact hrules.get hrlt hplt _ _ _ (h.fills hspells htokens) hnode

theorem exists_terminal {tokens : List Token}
    (hkinds : ∀ token ∈ tokens, ∃ kind, token.symbol = (a.terminal kind).id) :
    ∀ token ∈ tokens, ∃ t ∈ l.terminals, t.id = token.symbol := by
  intro token htoken
  obtain ⟨kind, hkind⟩ := hkinds token htoken
  exact ⟨_, h.terminal_mem kind, hkind.symm⟩

/-- **What every production preserves holds of the result of a parse.** -/
theorem parse_attribute (hrules : List.Forall₂ (a.Builds T A) l.rules a.productions) {tokens : List Token}
    (hkinds : ∀ token ∈ tokens, ∃ kind, token.symbol = (a.terminal kind).id) (htokens : ∀ token ∈ tokens, T token)
    {node : N} (hparse : l.parse l.table tokens = .ok node) : A a.root tokens node := by
  obtain ⟨r, hr, hstart, name, hname, hattribute⟩ :=
    l.parse_attribute h.augmented (fun _ hr => h.preserves hrules hr) (h.exists_terminal hkinds) hparse
  obtain ⟨p, hp, hhead, hbody⟩ := h.exists_spelling_of_mem hr
  rw [hbody, h.startBody p hp (h.head_eq_start (hhead.symm.trans hstart))] at hname
  exact hattribute htokens a.root (List.cons.inj hname).1

end Covers

end Alphabet

end ShaderFront
