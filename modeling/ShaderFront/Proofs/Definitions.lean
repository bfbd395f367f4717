import Mathlib
import ShaderFront.Proofs.Layout
import ShaderFront.Proofs.Particles
import ShaderFront.Proofs.Readings

/-!
# What a definition was written as

A source that is parsed comes from a reading of its tokens (`Directive.exists_read`). For a source that is one `#define` the reading
says which tokens are the heading, with the name and the parameters, and which are the body (`Directive.parse_define_iff`).
-/

namespace ShaderFront

namespace Alphabet

variable {K H N : Type} {a : Alphabet K H} {l : Language N} {number : H → SymbolId} {clear : Nat → Nat → K × Token → Prop}
  {id dot : Nat} {words : List (Word K H)} {elements : List (Matched N)} {front : List (K × Token)}

/-! ## Taking a reading apart -/

theorem Reads.exists_rule {head : H} {node : N} (h : a.Reads l number clear head front node) : ∃ id r p elements,
    l.rules[id]? = some r ∧ a.productions[id]? = some p ∧ p.head = head ∧
      a.ReadsAll l number clear id 0 p.body elements front ∧ r.build elements = .ok node := by
  cases h with
  | rule hr hp hbody hbuild => exact ⟨_, _, _, _, hr, hp, rfl, hbody, hbuild⟩

theorem ReadsAll.eq_nil (h : a.ReadsAll l number clear id dot [] elements front) : elements = [] ∧ front = [] := by
  cases h
  exact ⟨rfl, rfl⟩

theorem ReadsAll.exists_token {kind : K} (h : a.ReadsAll l number clear id dot (.token kind :: words) elements front) :
    ∃ token others rest, elements = .token token :: others ∧ front = (kind, token) :: rest ∧ a.Admits kind token ∧
      (∀ next ∈ rest.head?, clear id (dot + 1) next) ∧ a.ReadsAll l number clear id (dot + 1) words others rest := by
  cases h with
  | token hadmits hnext hrest => exact ⟨_, _, _, rfl, rfl, hadmits, hnext, hrest⟩

theorem ReadsAll.exists_node {head : H} (h : a.ReadsAll l number clear id dot (.node head :: words) elements front) :
    ∃ node left others rest, elements = .node (number head) node :: others ∧ front = left ++ rest ∧
      a.Reads l number clear head left node ∧ a.ReadsAll l number clear id (dot + 1) words others rest := by
  cases h with
  | node hread _ hrest => exact ⟨_, _, _, _, rfl, rfl, hread, hrest⟩

end Alphabet

namespace Directive

variable {number : Nonterminal → SymbolId} {front : List (TokenKind × Token)} {node : Node}

/-! ## Readings of a source -/

/-- Before the body of a definition, a parenthesis that touches the name is taken as the one of the parameters. -/
theorem clearAtOnce_opens : alphabet.ClearAtOnce (fun head => head = .tokenList) Opens where
  opens := by decide
  clear := by
    rintro id dot r p hp hunrivalled hid rfl hany hsymbol
    cases hp.symm.trans hid
    have hkind := hunrivalled (.node .tokenList) rfl rfl bodied
      ⟨.defDirective, [.token .define, .token .identifier, .token .macroParen, .token .parenRight, .token .newline]⟩ .macroParen hp
      (by decide) rfl rfl rfl hsymbol
    cases hany.symm.trans hkind

/-- **A source that is parsed is read as its particles.** -/
theorem exists_read {source : String} {ps : List Particle} (h : parse source = .ok ps) : ∃ number front,
    front.map Prod.snd = tokens source ∧ Read number .program front (.file ps) := by
  obtain ⟨_, _, front, -, -, hfront, hreads⟩ :=
    alphabet_covers.reads_of_parse tameness clearAtOnce_opens (exists_kind_of_mem_tokens source) (eq_file_of_particlesOf h)
  exact ⟨_, front, hfront, hreads⟩

/-- The numbers of the productions of a nonterminal. -/
def numbersOf (head : Nonterminal) : List Nat := (List.range productions.length).filter fun id => productions[id]?.map (·.head) = some head

theorem mem_numbersOf {id : Nat} {p : Spelling TokenKind Nonterminal} (hp : productions[id]? = some p) : id ∈ numbersOf p.head := by
  obtain ⟨hlt, -⟩ := List.getElem?_eq_some_iff.mp hp
  exact List.mem_filter.mpr ⟨List.mem_range.mpr hlt, by simp [hp]⟩

/-- A nonterminal is read by one of its productions. -/
theorem exists_production {head : Nonterminal} (h : Read number head front node) : ∃ id ∈ numbersOf head, ∃ r p elements,
    rules[id]? = some r ∧ productions[id]? = some p ∧ alphabet.ReadsAll language number Opens id 0 p.body elements front ∧
      r.build elements = .ok node := by
  obtain ⟨id, r, p, elements, hr, hp, rfl, hbody, hbuild⟩ := h.exists_rule
  exact ⟨id, mem_numbersOf hp, r, p, elements, hr, hp, hbody, hbuild⟩

theorem numbersOf_program : numbersOf .program = [1, 2] := by decide +kernel

theorem numbersOf_particleList : numbersOf .particleList = [3, 4] := by decide +kernel

theorem numbersOf_particle : numbersOf .particle = [5, 6] := by decide +kernel

theorem numbersOf_directive : numbersOf .directive = [7, 8, 9, 10, 11, 12, 13, 14, 15, 16] := by decide +kernel

theorem numbersOf_defDirective : numbersOf .defDirective = [17, 18, 19, 20, 21, 22] := by decide +kernel

theorem numbersOf_tokenList : numbersOf .tokenList = [23, 24] := by decide +kernel

theorem numbersOf_formalsList : numbersOf .formalsList = [25, 26] := by decide +kernel

/-- A rule that passes on a node reads what its symbol reads. -/
theorem read_of_passRule {id : Nat} {head body : String} {inner : Nonterminal} {elements : List (Matched Node)}
    (hbody : alphabet.ReadsAll language number Opens id 0 [.node inner] elements front)
    (hbuild : (passRule head body).build elements = .ok node) : Read number inner front node := by
  obtain ⟨n, left, others, rest, rfl, rfl, hread, hrest⟩ := hbody.exists_node
  obtain ⟨rfl, rfl⟩ := hrest.eq_nil
  cases hbuild
  rwa [List.append_nil]

theorem read_of_program {ps : List Particle} (h : Read number .program front (.file ps))
    (hplain : ∀ r ∈ front, r.2.symbol ≠ TokenKind.expressionStart.id) :
    Read number .particleList front (.particles ps) := by
  obtain ⟨id, hid, r, p, elements, hr, hp, hbody, hbuild⟩ := exists_production h
  rw [numbersOf_program] at hid
  simp only [List.mem_cons, List.not_mem_nil, or_false] at hid
  rcases hid with rfl | rfl
  · cases hr
    cases hp
    obtain ⟨n, left, others, rest, rfl, rfl, hread, hrest⟩ := hbody.exists_node
    obtain ⟨rfl, rfl⟩ := hrest.eq_nil
    dsimp only at hbuild
    split at hbuild <;> cases hbuild
    rename_i heq
    cases heq
    rwa [List.append_nil]
  · cases hr
    cases hp
    obtain ⟨start, others, rest, rfl, rfl, hadmits, -, -⟩ := hbody.exists_token
    exact absurd ((admits_cases hadmits).resolve_right fun h => nomatch h.1) (hplain _ List.mem_cons_self)

theorem particles_cases {ps : List Particle} (h : Read number .particleList front (.particles ps)) : front = [] ∧ ps = [] ∨
    ∃ left right others p, front = left ++ right ∧ ps = others ++ [p] ∧ Read number .particleList left (.particles others) ∧
      Read number .particle right (.particle p) := by
  obtain ⟨id, hid, r, p, elements, hr, hp, hbody, hbuild⟩ := exists_production h
  rw [numbersOf_particleList] at hid
  simp only [List.mem_cons, List.not_mem_nil, or_false] at hid
  rcases hid with rfl | rfl
  · cases hr
    cases hp
    obtain ⟨rfl, rfl⟩ := hbody.eq_nil
    cases hbuild
    exact .inl ⟨rfl, rfl⟩
  · cases hr
    cases hp
    obtain ⟨n, left, others, rest, rfl, rfl, hleft, hbody⟩ := hbody.exists_node
    obtain ⟨m, right, others, rest, rfl, rfl, hright, hbody⟩ := hbody.exists_node
    obtain ⟨rfl, rfl⟩ := hbody.eq_nil
    dsimp only at hbuild
    split at hbuild <;> cases hbuild
    rename_i heq
    cases heq
    exact .inr ⟨left, right, _, _, by rw [List.append_nil], rfl, hleft, hright⟩

/-! ## Definitions -/

/-- No directive but `#define` is a definition. -/
theorem no_definition : ∀ r ∈ directiveRules ++ conditionalRules.take 2, ∀ elements d, r.build elements ≠ .ok (.particle (.define d)) := by
  simp only [directiveRules, conditionalRules, List.cons_append, List.nil_append, List.take, List.forall_mem_cons]
  and_intros
  on_goal 17 => exact List.forall_mem_nil _
  all_goals
    intro elements d h
    split at h
  all_goals
    first
      | cases h
      | obtain ⟨i, h⟩ := integerOf_map h
        cases h

/-- What is read by rules that build no definition is none. -/
theorem not_define_of_numbersOf {head : Nonterminal} (hhead : ∀ id ∈ numbersOf head, 27 ≤ id ∧ id < 43) {d : MacroDefinition} :
    ¬Read number head front (.particle (.define d)) := by
  intro h
  obtain ⟨id, hid, r, p, elements, hr, -, -, hbuild⟩ := exists_production h
  obtain ⟨hle, hlt⟩ := hhead id hid
  have hrules : (rules.drop 27).take 16 = directiveRules ++ conditionalRules.take 2 := rfl
  have hmem : r ∈ (rules.drop 27).take 16 := by
    refine List.mem_of_getElem? (i := id - 27) ?_
    rw [List.getElem?_take_of_lt (by omega), List.getElem?_drop, Nat.add_sub_cancel' hle, hr]
  exact no_definition r (hrules ▸ hmem) elements d hbuild

theorem read_of_particle {d : MacroDefinition} (h : Read number .particle front (.particle (.define d))) :
    Read number .defDirective front (.particle (.define d)) := by
  obtain ⟨id, hid, r, p, elements, hr, hp, hbody, hbuild⟩ := exists_production h
  rw [numbersOf_particle] at hid
  simp only [List.mem_cons, List.not_mem_nil, or_false] at hid
  rcases hid with rfl | rfl
  · cases hr
    cases hp
    dsimp only at hbuild
    split at hbuild <;> cases hbuild
  · cases hr
    cases hp
    obtain ⟨id, hid, r, p, elements, hr, hp, hbody, hbuild⟩ := exists_production (read_of_passRule hbody hbuild)
    rw [numbersOf_directive] at hid
    simp only [List.mem_cons, List.not_mem_nil, or_false] at hid
    rcases hid with rfl | rfl | rfl | rfl | rfl | rfl | rfl | rfl | rfl | rfl <;> cases hr <;> cases hp
    · exact read_of_passRule hbody hbuild
    all_goals exact absurd (read_of_passRule hbody hbuild) (not_define_of_numbersOf (by decide))

theorem tokens_cases {ts : List Token} (h : Read number .tokenList front (.tokens ts)) :
    (∃ t, front = [(.any, t)] ∧ ts = [t] ∧ alphabet.Admits .any t) ∨ ∃ left others t, front = left ++ [(.any, t)] ∧
      ts = others ++ [t] ∧ Read number .tokenList left (.tokens others) ∧ alphabet.Admits .any t := by
  obtain ⟨id, hid, r, p, elements, hr, hp, hbody, hbuild⟩ := exists_production h
  rw [numbersOf_tokenList] at hid
  simp only [List.mem_cons, List.not_mem_nil, or_false] at hid
  rcases hid with rfl | rfl
  · cases hr
    cases hp
    obtain ⟨t, others, rest, rfl, rfl, hadmits, -, hbody⟩ := hbody.exists_token
    obtain ⟨rfl, rfl⟩ := hbody.eq_nil
    cases hbuild
    exact .inl ⟨t, rfl, rfl, hadmits⟩
  · cases hr
    cases hp
    obtain ⟨n, left, others, rest, rfl, rfl, hleft, hbody⟩ := hbody.exists_node
    obtain ⟨t, others, rest, rfl, rfl, hadmits, -, hbody⟩ := hbody.exists_token
    obtain ⟨rfl, rfl⟩ := hbody.eq_nil
    dsimp only at hbuild
    split at hbuild <;> cases hbuild
    rename_i heq
    cases heq
    exact .inr ⟨left, _, _, rfl, rfl, hleft, hadmits⟩

/-- The tokens of a list, all taken as the wildcard. -/
theorem exists_of_tokenList {ts : List Token} (h : Read number .tokenList front (.tokens ts)) :
    ts ≠ [] ∧ front = ts.map (fun t => (.any, t)) ∧ ∀ t ∈ ts, alphabet.Admits .any t := by
  induction ts using List.reverseRecOn generalizing front with
  | nil =>
    obtain ⟨t, -, hts, -⟩ | ⟨left, others, t, -, hts, -⟩ := tokens_cases h
    · cases hts
    · exact absurd hts.symm (by simp)
  | append_singleton ts last ih =>
    refine ⟨by simp, ?_⟩
    obtain ⟨t, rfl, hts, hadmits⟩ | ⟨left, others, t, rfl, hts, hleft, hadmits⟩ := tokens_cases h
    · rw [hts]
      simpa using hadmits
    · obtain ⟨rfl, ht⟩ := List.append_inj' hts rfl
      obtain rfl := (List.cons.inj ht).1
      obtain ⟨-, rfl, hall⟩ := ih hleft
      exact ⟨by simp, List.forall_mem_append.mpr ⟨hall, by simpa using hadmits⟩⟩

theorem symbol_of_admits {kind : TokenKind} (hkind : kind ≠ .any) {token : Token} (h : alphabet.Admits kind token) :
    token.symbol = kind.id :=
  (admits_cases h).resolve_right fun h => hkind h.1

/-- The tokens that list the parameters of a definition. -/
inductive Lists : List String → List Token → Prop
  | one {name : Token} : name.symbol = TokenKind.identifier.id → Lists [name.text] [name]
  | more {names : List String} {ts : List Token} {comma name : Token} : Lists names ts → comma.symbol = TokenKind.comma.id →
      name.symbol = TokenKind.identifier.id → Lists (names ++ [name.text]) (ts ++ [comma, name])

/-- The tokens of a definition in front of its body. -/
inductive Heading (d : MacroDefinition) : List Token → Prop
  | plain {opening name : Token} : opening.symbol = TokenKind.define.id → name.symbol = TokenKind.identifier.id → name.text = d.name →
      d.parameters = none → Heading d [opening, name]
  | empty {opening name left right : Token} : opening.symbol = TokenKind.define.id → name.symbol = TokenKind.identifier.id →
      name.text = d.name → left.symbol = TokenKind.macroParen.id → right.symbol = TokenKind.parenRight.id →
      d.parameters = some [] → Heading d [opening, name, left, right]
  | formals {opening name left right : Token} {names : List String} {ts : List Token} : opening.symbol = TokenKind.define.id →
      name.symbol = TokenKind.identifier.id → name.text = d.name → left.symbol = TokenKind.macroParen.id →
      right.symbol = TokenKind.parenRight.id → Lists names ts → d.parameters = some names →
      Heading d (opening :: name :: left :: ts ++ [right])

theorem formals_cases {names : List String} (h : Read number .formalsList front (.formals names)) :
    (∃ name : Token, front = [(.identifier, name)] ∧ names = [name.text] ∧ name.symbol = TokenKind.identifier.id) ∨
      ∃ (left : List (TokenKind × Token)) (others : List String) (comma name : Token),
        front = left ++ [(.comma, comma), (.identifier, name)] ∧ names = others ++ [name.text] ∧
        Read number .formalsList left (.formals others) ∧ comma.symbol = TokenKind.comma.id ∧
        name.symbol = TokenKind.identifier.id := by
  obtain ⟨id, hid, r, p, elements, hr, hp, hbody, hbuild⟩ := exists_production h
  rw [numbersOf_formalsList] at hid
  simp only [List.mem_cons, List.not_mem_nil, or_false] at hid
  rcases hid with rfl | rfl
  · cases hr
    cases hp
    obtain ⟨name, others, rest, rfl, rfl, hname, -, hbody⟩ := hbody.exists_token
    obtain ⟨rfl, rfl⟩ := hbody.eq_nil
    cases hbuild
    exact .inl ⟨name, rfl, rfl, symbol_of_admits (by decide) hname⟩
  · cases hr
    cases hp
    obtain ⟨n, left, others, rest, rfl, rfl, hleft, hbody⟩ := hbody.exists_node
    obtain ⟨comma, others, rest, rfl, rfl, hcomma, -, hbody⟩ := hbody.exists_token
    obtain ⟨name, others, rest, rfl, rfl, hname, -, hbody⟩ := hbody.exists_token
    obtain ⟨rfl, rfl⟩ := hbody.eq_nil
    dsimp only at hbuild
    split at hbuild <;> cases hbuild
    rename_i heq
    cases heq
    exact .inr ⟨left, _, _, _, rfl, rfl, hleft, symbol_of_admits (by decide) hcomma, symbol_of_admits (by decide) hname⟩

theorem lists_of_formalsList {names : List String} (h : Read number .formalsList front (.formals names)) :
    Lists names (front.map Prod.snd) := by
  induction names using List.reverseRecOn generalizing front with
  | nil =>
    obtain ⟨name, -, hnames, -⟩ | ⟨left, others, comma, name, -, hnames, -⟩ := formals_cases h
    · cases hnames
    · exact absurd hnames.symm (by simp)
  | append_singleton names last ih =>
    obtain ⟨name, rfl, hnames, hname⟩ | ⟨left, others, comma, name, rfl, hnames, hleft, hcomma, hname⟩ := formals_cases h
    · rw [hnames]
      exact .one hname
    · obtain ⟨rfl, hlast⟩ := List.append_inj' hnames rfl
      obtain rfl := (List.cons.inj hlast).1
      rw [List.map_append]
      exact .more (ih hleft) hcomma hname

section Ends

variable {id dot : Nat} {elements : List (Matched Node)}

theorem exists_newline (h : alphabet.ReadsAll language number Opens id dot [.token .newline] elements front) :
    ∃ close, elements = [.token close] ∧ front = [(.newline, close)] ∧ close.symbol = TokenKind.newline.id := by
  obtain ⟨close, others, rest, rfl, rfl, hclose, -, hbody⟩ := h.exists_token
  obtain ⟨rfl, rfl⟩ := hbody.eq_nil
  exact ⟨close, rfl, rfl, symbol_of_admits (by decide) hclose⟩

theorem exists_body (h : alphabet.ReadsAll language number Opens id dot [.node .tokenList, .token .newline] elements front) :
    ∃ n left close, elements = [.node (number .tokenList) n, .token close] ∧ front = left ++ [(.newline, close)] ∧
      Read number .tokenList left n ∧ close.symbol = TokenKind.newline.id := by
  obtain ⟨n, left, others, rest, rfl, rfl, hleft, hbody⟩ := h.exists_node
  obtain ⟨close, rfl, rfl, hclose⟩ := exists_newline hbody
  exact ⟨n, left, close, rfl, rfl, hleft, hclose⟩

/-- What opens a definition is its keyword and its name. -/
theorem exists_opening {words : List (Word TokenKind Nonterminal)}
    (h : alphabet.ReadsAll language number Opens id dot (.token .define :: .token .identifier :: words) elements front) :
    ∃ opening name others rest, elements = .token opening :: .token name :: others ∧
      front = (.define, opening) :: (.identifier, name) :: rest ∧ opening.symbol = TokenKind.define.id ∧
      name.symbol = TokenKind.identifier.id ∧ (∀ next ∈ rest.head?, Opens id (dot + 1 + 1) next) ∧
      alphabet.ReadsAll language number Opens id (dot + 1 + 1) words others rest := by
  obtain ⟨opening, others, rest, rfl, rfl, hopening, -, h⟩ := h.exists_token
  obtain ⟨name, others, rest, rfl, rfl, hname, hnext, h⟩ := h.exists_token
  exact ⟨opening, name, others, rest, rfl, rfl, symbol_of_admits (by decide) hopening, symbol_of_admits (by decide) hname, hnext, h⟩

theorem exists_parentheses {words : List (Word TokenKind Nonterminal)}
    (h : alphabet.ReadsAll language number Opens id dot (.token .macroParen :: .token .parenRight :: words) elements front) :
    ∃ left right others rest, elements = .token left :: .token right :: others ∧
      front = (.macroParen, left) :: (.parenRight, right) :: rest ∧ left.symbol = TokenKind.macroParen.id ∧
      right.symbol = TokenKind.parenRight.id ∧ alphabet.ReadsAll language number Opens id (dot + 1 + 1) words others rest := by
  obtain ⟨left, others, rest, rfl, rfl, hleft, -, h⟩ := h.exists_token
  obtain ⟨right, others, rest, rfl, rfl, hright, -, h⟩ := h.exists_token
  exact ⟨left, right, others, rest, rfl, rfl, symbol_of_admits (by decide) hleft, symbol_of_admits (by decide) hright, h⟩

theorem exists_formals {words : List (Word TokenKind Nonterminal)} (h : alphabet.ReadsAll language number Opens id dot
      (.token .macroParen :: .node .formalsList :: .token .parenRight :: words) elements front) :
    ∃ left n names right others rest, elements = .token left :: .node (number .formalsList) n :: .token right :: others ∧
      front = (.macroParen, left) :: (names ++ (.parenRight, right) :: rest) ∧ left.symbol = TokenKind.macroParen.id ∧
      right.symbol = TokenKind.parenRight.id ∧ Read number .formalsList names n ∧
      alphabet.ReadsAll language number Opens id (dot + 1 + 1 + 1) words others rest := by
  obtain ⟨left, others, rest, rfl, rfl, hleft, -, h⟩ := h.exists_token
  obtain ⟨n, names, others, rest, rfl, rfl, hnames, h⟩ := h.exists_node
  obtain ⟨right, others, rest, rfl, rfl, hright, -, h⟩ := h.exists_token
  exact ⟨left, n, names, right, others, rest, rfl, rfl, symbol_of_admits (by decide) hleft, symbol_of_admits (by decide) hright,
    hnames, h⟩

/-- The tokens of a definition: its heading, its body and the end of the line. -/
structure Defines (d : MacroDefinition) (tokens opening body : List Token) (close : Token) : Prop where
  all : tokens = opening ++ body ++ [close]
  heading : Heading d opening
  joined : joinTokens body = d.body
  wild : ∀ t ∈ body, alphabet.Admits .any t
  ends : close.symbol = TokenKind.newline.id
  /-- A parenthesis that touches the name gives the macro its parameters. -/
  opens : d.parameters = none → ∀ t ∈ body.head?, t.symbol ≠ TokenKind.macroParen.id

theorem Defines.of_empty {d : MacroDefinition} {opening : List Token} {close : Token} (hheading : Heading d opening)
    (hbody : d.body = "") (hclose : close.symbol = TokenKind.newline.id) : Defines d (opening ++ [close]) opening [] close :=
  ⟨by simp, hheading, hbody.symm, List.forall_mem_nil _, hclose, nofun⟩

end Ends

/-- **The tokens of a definition** are its heading, its body and the end of the line. -/
theorem exists_defines {d : MacroDefinition} (h : Read number .defDirective front (.particle (.define d))) :
    ∃ opening body close, Defines d (front.map Prod.snd) opening body close := by
  obtain ⟨id, hid, r, p, elements, hr, hp, hbody, hbuild⟩ := exists_production h
  rw [numbersOf_defDirective] at hid
  simp only [List.mem_cons, List.not_mem_nil, or_false] at hid
  rcases hid with rfl | rfl | rfl | rfl | rfl | rfl <;> cases hr <;> cases hp <;>
    obtain ⟨opening, name, others, rest, rfl, rfl, hopening, hname, hnext, hbody⟩ := exists_opening hbody
  · obtain ⟨close, rfl, rfl, hclose⟩ := exists_newline hbody
    cases hbuild
    exact ⟨_, _, _, .of_empty (.plain hopening hname rfl rfl) rfl hclose⟩
  · obtain ⟨n, left, close, rfl, rfl, hleft, hclose⟩ := exists_body hbody
    dsimp only at hbuild
    split at hbuild <;> cases hbuild
    rename_i heq
    cases heq
    obtain ⟨hne, rfl, hall⟩ := exists_of_tokenList hleft
    refine ⟨[opening, name], _, close, ⟨by simp, .plain hopening hname rfl rfl, rfl, hall, hclose, fun _ t ht => ?_⟩⟩
    obtain ⟨rest, rfl⟩ := List.head?_eq_some_iff.mp ht
    exact hnext (.any, t) rfl rfl rfl rfl
  · obtain ⟨left, right, others, rest, rfl, rfl, hleft, hright, hbody⟩ := exists_parentheses hbody
    obtain ⟨close, rfl, rfl, hclose⟩ := exists_newline hbody
    cases hbuild
    exact ⟨_, _, _, .of_empty (.empty hopening hname rfl hleft hright rfl) rfl hclose⟩
  · obtain ⟨left, right, others, rest, rfl, rfl, hleft, hright, hbody⟩ := exists_parentheses hbody
    obtain ⟨n, ts, close, rfl, rfl, hts, hclose⟩ := exists_body hbody
    dsimp only at hbuild
    split at hbuild <;> cases hbuild
    rename_i heq
    cases heq
    obtain ⟨-, rfl, hall⟩ := exists_of_tokenList hts
    exact ⟨[opening, name, left, right], _, close,
      ⟨by simp, .empty hopening hname rfl hleft hright rfl, rfl, hall, hclose, nofun⟩⟩
  · obtain ⟨left, n, names, right, others, rest, rfl, rfl, hleft, hright, hnames, hbody⟩ := exists_formals hbody
    obtain ⟨close, rfl, rfl, hclose⟩ := exists_newline hbody
    dsimp only at hbuild
    split at hbuild <;> cases hbuild
    rename_i heq
    cases heq
    exact ⟨opening :: name :: left :: names.map Prod.snd ++ [right], [], close, ⟨by simp, .formals hopening hname rfl hleft hright
      (lists_of_formalsList hnames) rfl, rfl, List.forall_mem_nil _, hclose, nofun⟩⟩
  · obtain ⟨left, n, names, right, others, rest, rfl, rfl, hleft, hright, hnames, hbody⟩ := exists_formals hbody
    obtain ⟨n, ts, close, rfl, rfl, hts, hclose⟩ := exists_body hbody
    dsimp only at hbuild
    split at hbuild <;> cases hbuild
    rename_i heq
    cases heq
    obtain ⟨-, rfl, hall⟩ := exists_of_tokenList hts
    exact ⟨opening :: name :: left :: names.map Prod.snd ++ [right], _, close, ⟨by simp, .formals hopening hname rfl hleft hright
      (lists_of_formalsList hnames) rfl, rfl, hall, hclose, nofun⟩⟩

/-- **A source that is one definition** has the tokens of a definition. -/
theorem defines_of_parse {source : String} {d : MacroDefinition} (h : parse source = .ok [.define d]) :
    ∃ opening body close, Defines d (tokens source) opening body close := by
  obtain ⟨number, front, hfront, hread⟩ := exists_read h
  have hlist := read_of_program hread fun r hr => plain_tokens source r.2 (hfront ▸ List.mem_map_of_mem hr)
  obtain ⟨-, hps⟩ | ⟨left, right, others, p, rfl, hps, hleft, hright⟩ := particles_cases hlist
  · cases hps
  · obtain ⟨rfl, hp⟩ := @List.append_inj' _ [] _ _ _ hps rfl
    obtain rfl := (List.cons.inj hp).1
    obtain ⟨rfl, -⟩ | ⟨_, _, others, _, -, hnil, -⟩ := particles_cases hleft
    · rw [← hfront]
      exact exists_defines (read_of_particle hright)
    · exact absurd hnil.symm (by simp)

/-! ## Reading a definition -/

theorem read_formals {names : List String} {ts : List Token} (h : Lists names ts) : ∃ front, front.map Prod.snd = ts ∧
    ∀ number, Read number .formalsList front (.formals names) := by
  induction h with
  | @one name hname =>
    exact ⟨[(.identifier, name)], rfl, fun number => read_rule 25 (by rfl) (by rfl) (readAll_token 25 (by decide) (.inl hname) .nil) rfl⟩
  | @more names ts comma name _ hcomma hname ih =>
    obtain ⟨front, rfl, hread⟩ := ih
    refine ⟨front ++ [(.comma, comma), (.identifier, name)], by simp, fun number => ?_⟩
    exact read_rule 26 (by rfl) (by rfl) (readAll_node 26 (by decide) (hread number) (readAll_token 26 (by decide) (.inl hcomma)
      (readAll_token 26 (by decide) (.inl hname) .nil))) rfl

section Ends

variable {id dot : Nat} {close : Token} {body : List Token} {words : List (Word TokenKind Nonterminal)} {others : List (Matched Node)}
  {rest : List (TokenKind × Token)}

variable (id) in
theorem readAll_opening {opening name : Token} (hid : id ≠ 18) (hopening : opening.symbol = TokenKind.define.id)
    (hname : name.symbol = TokenKind.identifier.id) (h : alphabet.ReadsAll language number Opens id (dot + 1 + 1) words others rest) :
    alphabet.ReadsAll language number Opens id dot (.token .define :: .token .identifier :: words)
      (.token opening :: .token name :: others) ((.define, opening) :: (.identifier, name) :: rest) :=
  readAll_token id hid (.inl hopening) (readAll_token id hid (.inl hname) h)

theorem readAll_parentheses {left right : Token} (hid : id ≠ 18) (hleft : left.symbol = TokenKind.macroParen.id)
    (hright : right.symbol = TokenKind.parenRight.id) (h : alphabet.ReadsAll language number Opens id (dot + 1 + 1) words others rest) :
    alphabet.ReadsAll language number Opens id dot (.token .macroParen :: .token .parenRight :: words)
      (.token left :: .token right :: others) ((.macroParen, left) :: (.parenRight, right) :: rest) :=
  readAll_token id hid (.inl hleft) (readAll_token id hid (.inl hright) h)

theorem readAll_formals {left right : Token} {names : List String} (hid : id ≠ 18) (hleft : left.symbol = TokenKind.macroParen.id)
    (hnames : Read number .formalsList front (.formals names)) (hright : right.symbol = TokenKind.parenRight.id)
    (h : alphabet.ReadsAll language number Opens id (dot + 1 + 1 + 1) words others rest) :
    alphabet.ReadsAll language number Opens id dot (.token .macroParen :: .node .formalsList :: .token .parenRight :: words)
      (.token left :: .node (number .formalsList) (.formals names) :: .token right :: others)
      ((.macroParen, left) :: (front ++ (.parenRight, right) :: rest)) :=
  readAll_token id hid (.inl hleft) (readAll_node id hid hnames (readAll_token id hid (.inl hright) h))

theorem readAll_newline (hid : id ≠ 18) (hclose : close.symbol = TokenKind.newline.id) :
    alphabet.ReadsAll language number Opens id dot [.token .newline] [.token close] [(.newline, close)] :=
  readAll_token id hid (.inl hclose) .nil

theorem readAll_body (hid : id ≠ 18) (hne : body ≠ []) (hwild : ∀ t ∈ body, alphabet.Admits .any t)
    (hclose : close.symbol = TokenKind.newline.id) : alphabet.ReadsAll language number Opens id dot [.node .tokenList, .token .newline]
      [.node (number .tokenList) (.tokens body), .token close] (body.map (fun t => (.any, t)) ++ [(.newline, close)]) :=
  readAll_node id hid (read_tokenList hne hwild) (readAll_newline hid hclose)

end Ends

theorem read_directive {d : MacroDefinition} (h : Read number .defDirective front (.particle (.define d))) :
    Read number .particle front (.particle (.define d)) :=
  read_rule 6 (by rfl) (by rfl) (readAll_last (read_rule 7 (by rfl) (by rfl) (readAll_last h) rfl)) rfl

/-- The tokens of a definition are read as that definition. -/
theorem read_defines {d : MacroDefinition} {tokens opening body : List Token} {close : Token} (h : Defines d tokens opening body close) :
    ∃ front, front.map Prod.snd = tokens ∧ ∀ number, Read number .particle front (.particle (.define d)) := by
  obtain ⟨rfl, hheading, hjoined, hwild, hclose, hopens⟩ := h
  obtain ⟨dname, parameters, dbody⟩ := d
  obtain rfl : joinTokens body = dbody := hjoined
  by_cases hne : body = []
  · subst hne
    cases hheading with
    | @plain opening name hopening hname htext hnone =>
      obtain rfl : name.text = dname := htext
      obtain rfl : parameters = none := hnone
      exact ⟨[(.define, opening), (.identifier, name), (.newline, close)], rfl, fun number => read_directive (read_rule 17 (by rfl)
        (by rfl) (readAll_opening 17 (by decide) hopening hname (readAll_newline (by decide) hclose)) rfl)⟩
    | @empty opening name left right hopening hname htext hleft hright hsome =>
      obtain rfl : name.text = dname := htext
      obtain rfl : parameters = some [] := hsome
      exact ⟨[(.define, opening), (.identifier, name), (.macroParen, left), (.parenRight, right), (.newline, close)], rfl,
        fun number => read_directive (read_rule 19 (by rfl) (by rfl) (readAll_opening 19 (by decide) hopening hname
          (readAll_parentheses (by decide) hleft hright (readAll_newline (by decide) hclose))) rfl)⟩
    | @formals opening name left right names ts hopening hname htext hleft hright hlists hsome =>
      obtain rfl : name.text = dname := htext
      obtain rfl : parameters = some names := hsome
      obtain ⟨front, rfl, hread⟩ := read_formals hlists
      exact ⟨(.define, opening) :: (.identifier, name) :: (.macroParen, left) :: (front ++ [(.parenRight, right), (.newline, close)]),
        by simp, fun number => read_directive (read_rule 21 (by rfl) (by rfl) (readAll_opening 21 (by decide) hopening hname
          (readAll_formals (by decide) hleft (hread number) hright (readAll_newline (by decide) hclose))) rfl)⟩
  · cases hheading with
    | @plain opening name hopening hname htext hnone =>
      obtain rfl : name.text = dname := htext
      obtain rfl : parameters = none := hnone
      refine ⟨(.define, opening) :: (.identifier, name) :: (body.map fun t => (.any, t)) ++ [(.newline, close)], by simp,
        fun number => read_definition hopening hname hclose hne hwild (hopens rfl)⟩
    | @empty opening name left right hopening hname htext hleft hright hsome =>
      obtain rfl : name.text = dname := htext
      obtain rfl : parameters = some [] := hsome
      exact ⟨(.define, opening) :: (.identifier, name) :: (.macroParen, left) :: (.parenRight, right) ::
        ((body.map fun t => (.any, t)) ++ [(.newline, close)]), by simp, fun number => read_directive (read_rule 20 (by rfl) (by rfl)
          (readAll_opening 20 (by decide) hopening hname (readAll_parentheses (by decide) hleft hright
            (readAll_body (by decide) hne hwild hclose))) rfl)⟩
    | @formals opening name left right names ts hopening hname htext hleft hright hlists hsome =>
      obtain rfl : name.text = dname := htext
      obtain rfl : parameters = some names := hsome
      obtain ⟨front, rfl, hread⟩ := read_formals hlists
      exact ⟨(.define, opening) :: (.identifier, name) :: (.macroParen, left) :: (front ++ (.parenRight, right) ::
        ((body.map fun t => (.any, t)) ++ [(.newline, close)])), by simp, fun number => read_directive (read_rule 22 (by rfl) (by rfl)
          (readAll_opening 22 (by decide) hopening hname (readAll_formals (by decide) hleft (hread number) hright
            (readAll_body (by decide) hne hwild hclose))) rfl)⟩

/-- **Exactly the tokens of a definition are parsed as that definition.** -/
theorem parse_define_iff {source : String} {d : MacroDefinition} : parse source = .ok [.define d] ↔
    ∃ opening body close, Defines d (tokens source) opening body close := by
  refine ⟨defines_of_parse, fun ⟨opening, body, close, h⟩ => ?_⟩
  obtain ⟨front, hfront, hread⟩ := read_defines h
  exact parse_of_read hfront fun number => read_concat read_nil (hread number)

end Directive

end ShaderFront
