import Mathlib
import ShaderFront.Proofs.Parenthesis
import ShaderFront.Proofs.Precedence

/-!
# Reading particles

The rules of particles and of definitions, for tokens that may be taken as the wildcard (`Directive.Read`). A source whose tokens
are read as some particles is parsed as those (`Directive.parse_of_read`).
-/

namespace ShaderFront

namespace Alphabet

variable {K H N : Type} {a : Alphabet K H} {l : Language N} {number : H → SymbolId} {clear : Nat → Nat → K × Token → Prop}

mutual

/-- Tokens are read as kinds they may stand for. -/
theorem Reads.admits : ∀ {head : H} {front : List (K × Token)} {node : N}, a.Reads l number clear head front node →
    ∀ r ∈ front, a.Admits r.1 r.2
  | _, _, _, .rule _ _ hbody _ => ReadsAll.admits hbody

theorem ReadsAll.admits : ∀ {id dot : Nat} {words : List (Word K H)} {elements : List (Matched N)} {front : List (K × Token)},
    a.ReadsAll l number clear id dot words elements front → ∀ r ∈ front, a.Admits r.1 r.2
  | _, _, _, _, _, .nil => List.forall_mem_nil _
  | _, _, _, _, _, .token hadmits _ hrest => List.forall_mem_cons.mpr ⟨hadmits, ReadsAll.admits hrest⟩
  | _, _, _, _, _, .node hread _ hrest => List.forall_mem_append.mpr ⟨Reads.admits hread, ReadsAll.admits hrest⟩

end

end Alphabet

namespace Directive

variable {number : Nonterminal → SymbolId}

/-- A nonterminal is read from some tokens, none of which is the parenthesis of a definition taken for the first token of a
body. -/
abbrev Read (number : Nonterminal → SymbolId) := alphabet.Reads language number Opens

/-- Only one production defines a macro without parameters that has a body. -/
theorem eq_of_bodied {id : Nat} (h : productions[id]? = some bodied) : id = 18 := by
  have hbodied : productions[18]? = some bodied := rfl
  obtain ⟨hid, hget⟩ := List.getElem?_eq_some_iff.mp h
  obtain ⟨h18, hget'⟩ := List.getElem?_eq_some_iff.mp hbodied
  exact alphabet_covers.different.getElem_inj_iff.mp (hget.trans hget'.symm)

theorem opens_of_ne {id dot : Nat} {r : TokenKind × Token} (hid : id ≠ 18) : Opens id dot r := fun h =>
  absurd (eq_of_bodied h) hid

theorem opens_of_own {id dot : Nat} {r : TokenKind × Token} (h : r.1 ≠ .any) : Opens id dot r := fun _ _ hany => absurd hany h

section Rules

variable (id : Nat) {dot : Nat} {words : List (Word TokenKind Nonterminal)} {elements : List (Matched Node)}
  {front rest : List (TokenKind × Token)}

theorem read_rule {r : Rule Node} {p : Spelling TokenKind Nonterminal} {node : Node} (hr : rules[id]? = some r)
    (hp : productions[id]? = some p) (hbody : alphabet.ReadsAll language number Opens id 0 p.body elements front)
    (hbuild : r.build elements = .ok node) : Read number p.head front node :=
  .rule hr hp hbody hbuild

theorem readAll_token (hid : id ≠ 18) {kind : TokenKind} {token : Token} (hadmits : alphabet.Admits kind token)
    (hrest : alphabet.ReadsAll language number Opens id (dot + 1) words elements rest) :
    alphabet.ReadsAll language number Opens id dot (.token kind :: words) (.token token :: elements) ((kind, token) :: rest) :=
  .token hadmits (fun _ _ => opens_of_ne hid) hrest

theorem readAll_node (hid : id ≠ 18) {head : Nonterminal} {node : Node} (hnode : Read number head front node)
    (hrest : alphabet.ReadsAll language number Opens id (dot + 1) words elements rest) :
    alphabet.ReadsAll language number Opens id dot (.node head :: words) (.node (number head) node :: elements) (front ++ rest) :=
  .node hnode (fun _ _ => opens_of_ne hid) hrest

variable {id} in
theorem readAll_last {head : Nonterminal} {node : Node} (hnode : Read number head front node) :
    alphabet.ReadsAll language number Opens id dot [.node head] [.node (number head) node] front := by
  have hbody : alphabet.ReadsAll language number Opens id dot [.node head] [.node (number head) node] (front ++ []) :=
    .node hnode nofun .nil
  rwa [List.append_nil] at hbody

end Rules

/-! ## Lists of tokens -/

theorem read_tokenList {ts : List Token} (hne : ts ≠ []) (hany : ∀ t ∈ ts, alphabet.Admits .any t) :
    Read number .tokenList (ts.map fun t => (.any, t)) (.tokens ts) := by
  induction ts using List.reverseRecOn with
  | nil => exact absurd rfl hne
  | append_singleton ts t ih =>
    obtain ⟨hts, ht⟩ := List.forall_mem_append.mp hany
    have ht : alphabet.Admits .any t := ht t List.mem_cons_self
    by_cases hempty : ts = []
    · subst hempty
      exact read_rule 23 (by rfl) (by rfl) (readAll_token 23 (by decide) ht .nil) rfl
    · rw [List.map_append]
      exact read_rule 24 (by rfl) (by rfl) (readAll_node 24 (by decide) (ih hempty hts) (readAll_token 24 (by decide) ht .nil)) rfl

/-- A definition without parameters. -/
theorem read_definition {opening name close : Token} {ts : List Token} (hopening : opening.symbol = TokenKind.define.id)
    (hname : name.symbol = TokenKind.identifier.id) (hclose : close.symbol = TokenKind.newline.id) (hne : ts ≠ [])
    (hany : ∀ t ∈ ts, alphabet.Admits .any t) (hparen : ∀ t ∈ ts.head?, t.symbol ≠ TokenKind.macroParen.id) :
    Read number .particle ((.define, opening) :: (.identifier, name) :: (ts.map fun t => (.any, t)) ++ [(.newline, close)])
      (.particle (.define ⟨name.text, none, joinTokens ts⟩)) := by
  have hbody : alphabet.ReadsAll language number Opens 18 0 bodied.body
      [.token opening, .token name, .node (number .tokenList) (.tokens ts), .token close]
      ((.define, opening) :: (.identifier, name) :: ((ts.map fun t => (.any, t)) ++ [(.newline, close)])) := by
    refine .token (.inl hopening) (fun next hnext => opens_of_own (by cases hnext; nofun)) (.token (.inl hname) ?_ ?_)
    · -- the first token of the body comes right after the name
      intro next hnext _ _ _
      cases ts with
      | nil => exact absurd rfl hne
      | cons t ts =>
        cases hnext
        exact hparen t rfl
    · exact .node (read_tokenList hne hany) (fun next hnext => opens_of_own (by cases hnext; nofun))
        (.token (.inl hclose) nofun .nil)
  exact read_rule 6 (by rfl) (by rfl) (readAll_last (read_rule 7 (by rfl) (by rfl) (readAll_last
    (read_rule 18 (by rfl) (by rfl) hbody rfl)) rfl)) rfl

/-- A token of a kind that is wild can be taken as any token. -/
theorem admits_any {kind : TokenKind} {token : Token} (hsymbol : token.symbol = kind.id) (hwild : kind.isWild = true) :
    alphabet.Admits .any token := by
  refine .inr ⟨rfl, fun tame htame hid => ?_⟩
  obtain rfl := id_injective (hsymbol.symm.trans hid)
  cases hwild.symm.trans htame

/-! ## Sources -/

theorem read_nil : Read number .particleList [] (.particles []) := read_rule 3 (by rfl) (by rfl) .nil rfl

theorem read_concat {front back : List (TokenKind × Token)} {ps : List Particle} {p : Particle}
    (hfront : Read number .particleList front (.particles ps)) (hback : Read number .particle back (.particle p)) :
    Read number .particleList (front ++ back) (.particles (ps ++ [p])) :=
  read_rule 4 (by rfl) (by rfl) (readAll_node 4 (by decide) hfront (readAll_last hback)) rfl

/-- **A source that is read as some particles is parsed as those.** -/
theorem parse_of_read {source : String} {front : List (TokenKind × Token)} {ps : List Particle}
    (htokens : front.map Prod.snd = tokens source) (hread : ∀ number, Read number .particleList front (.particles ps)) :
    parse source = .ok ps := by
  have hfile : ∀ number, Read number .program front (.file ps) := fun number =>
    read_rule 1 (by rfl) (by rfl) (readAll_last (hread number)) rfl
  have hadmits := (hread fun _ => 0).admits
  have hfirst : ∀ r ∈ front.head?, r.2.symbol = r.1.id := by
    intro r hr
    refine (admits_cases (hadmits r (List.mem_of_mem_head? hr))).resolve_right fun ⟨hany, _⟩ => ?_
    -- no particle begins with the wildcard
    have hbegins := (Alphabet.Reads.inside tameness.isClosed.1 (hread fun _ => 0)).2.1 r hr
    rw [hany] at hbegins
    revert hbegins
    decide +kernel
  have hparse := language_parse_of_reads (fun r hr => ⟨hadmits r hr, ?_⟩) hfirst hfile
  · rw [htokens] at hparse
    exact congrArg particlesOf hparse
  · have hmem : r.2 ∈ tokens source := htokens ▸ List.mem_map_of_mem hr
    exact exists_kind_of_mem_tokens source _ hmem

/-- A source that is a definition without parameters. -/
theorem parse_definition {source : String} {opening name close : Token} {ts : List Token}
    (htokens : tokens source = opening :: name :: ts ++ [close]) (hopening : opening.symbol = TokenKind.define.id)
    (hname : name.symbol = TokenKind.identifier.id) (hclose : close.symbol = TokenKind.newline.id) (hne : ts ≠ [])
    (hwild : ∀ t ∈ ts, ∃ kind : TokenKind, kind.isWild = true ∧ t.symbol = kind.id)
    (hparen : ∀ t ∈ ts.head?, t.symbol ≠ TokenKind.macroParen.id) :
    parse source = .ok [.define ⟨name.text, none, joinTokens ts⟩] := by
  have hany : ∀ t ∈ ts, alphabet.Admits .any t := fun t ht => by
    obtain ⟨kind, hkind, hsymbol⟩ := hwild t ht
    exact admits_any hsymbol hkind
  refine parse_of_read ?_ fun number => read_concat read_nil (read_definition hopening hname hclose hne hany hparen)
  rw [htokens]
  simp [Function.comp_def]

/-- A source that is an `#include`. -/
theorem parse_include {source : String} {opening path close : Token} (htokens : tokens source = [opening, path, close])
    (hopening : opening.symbol = TokenKind.include_.id) (hpath : path.symbol = TokenKind.string.id)
    (hclose : close.symbol = TokenKind.newline.id) : parse source = .ok [.include (unquote path.text) path.span] := by
  have hread : ∀ number, Read number .particle [(.include_, opening), (.string, path), (.newline, close)]
      (.particle (.include (unquote path.text) path.span)) := fun number =>
    read_rule 6 (by rfl) (by rfl) (readAll_last (read_rule 11 (by rfl) (by rfl) (readAll_last
      (read_rule 31 (by rfl) (by rfl) (readAll_token 31 (by decide) (.inl hopening) (readAll_token 31 (by decide) (.inl hpath)
        (readAll_token 31 (by decide) (.inl hclose) .nil))) rfl)) rfl)) rfl
  exact parse_of_read (by rw [htokens]; rfl) fun number => read_concat read_nil (hread number)

end Directive

end ShaderFront
