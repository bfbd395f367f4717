import Mathlib
import ShaderFront.Proofs.Nesting
import ShaderFront.Proofs.Spelling.Shader
import ShaderFront.Proofs.Tokens
import ShaderFront.Proofs.Unshadowed

/-!
# Lists that are not looked into

Function bodies, initializers and array sizes are lists of tokens that the parser does not look into. Main statement: such a
list is accepted exactly if its brackets are nested and no token is invalid, and an initializer besides needs a token and has no
`,` or `;` outside of brackets (`Shader.parse_opaque_iff`).

The rules read balanced lists with the wildcard in the place of most tokens (`Balanced.reads_nestedList`,
`Balanced.reads_initializer`), and what a parse puts into the tree is balanced (`parseTokens_balanced`).
-/

namespace ShaderFront.Shader

open Alphabet (readsBody_token readsBody_node readsBody_last)

/-! ## Balanced lists are read -/

/-- Tokens are read by the rules of declarations. -/
abbrev ReadsAs := alphabet.ReadsAs language

/-- The elements of a body are read. -/
abbrev ReadsBody := alphabet.ReadsBody language

variable {number : Nonterminal → SymbolId}

theorem reads_rule (id : Nat) {r : Rule Node} {p : Spelling TokenKind Nonterminal} {elements : List (Matched Node)}
    {front : List (TokenKind × Token)} {node : Node} (hr : rules[id]? = some r) (hp : productions[id]? = some p)
    (hbody : ReadsBody number id 0 p.body elements front) (hbuild : r.build elements = .ok node) :
    ReadsAs number p.head front node :=
  .rule hr hp hbody hbuild

/-- A token is read as the wildcard where it is not a delimiter. -/
def taken (token : Token) : TokenKind × Token :=
  (if (kindOf token).isWild then .any else kindOf token, token)

/-- The kinds of the tokens of a list are known. -/
def Known (tokens : List Token) : Prop := ∀ token ∈ tokens, HasKind token

theorem taken_of_not_isWild {token : Token} (h : (kindOf token).isWild = false) : taken token = (kindOf token, token) := by
  rw [taken, h]
  rfl

theorem admits_any {token : Token} (hkind : HasKind token) (hwild : (kindOf token).isWild = true) :
    alphabet.Admits .any token := by
  refine .inr ⟨rfl, fun tame htame heq => ?_⟩
  rw [hkind.symbol_eq] at heq
  have hkinds : kindOf token = tame := alphabet_covers.id_injective (a := alphabet) heq
  rw [hkinds] at hwild
  exact absurd (htame.symm.trans hwild) nofun

/-- A token is admitted as what it is read as. -/
theorem admits_taken {token : Token} (hkind : HasKind token) : alphabet.Admits (taken token).1 token := by
  cases hwild : (kindOf token).isWild with
  | true =>
    rw [taken, if_pos hwild]
    exact admits_any hkind hwild
  | false =>
    rw [taken_of_not_isWild hwild]
    exact .inl hkind.symbol_eq

theorem reads_any {token : Token} (hkind : HasKind token) (hwild : (kindOf token).isWild = true) :
    ReadsAs number .initItem [taken token] (.tokens [token]) := by
  rw [taken, if_pos hwild]
  exact reads_rule 86 (by rfl) (by rfl) (.token (admits_any hkind hwild) (fun _ _ => trivial) .nil) rfl

/-- Brackets around a list are one item. -/
theorem reads_group {opening closing : Token} {front : List (TokenKind × Token)} {inner : List Token}
    (hopening : HasKind opening) (hclosing : HasKind closing)
    (hmatch : (kindOf opening).closing? = some (kindOf closing)) (hinner : ReadsAs number .nestedList front (.tokens inner)) :
    ReadsAs number .initItem (taken opening :: (front ++ [taken closing])) (.tokens (opening :: inner ++ [closing])) := by
  have hbody : ∀ {id : Nat}, ReadsBody number id 0 [.token (kindOf opening), .node .nestedList, .token (kindOf closing)]
      [.token opening, .node (number .nestedList) (.tokens inner), .token closing]
      ((kindOf opening, opening) :: (front ++ [(kindOf closing, closing)])) :=
    readsBody_token hopening.symbol_eq (readsBody_node hinner (readsBody_token hclosing.symbol_eq .nil))
  have hfirst : taken opening = (kindOf opening, opening) := by
    refine taken_of_not_isWild ?_
    revert hmatch
    generalize kindOf opening = kind
    cases kind <;> first | exact fun _ => rfl | exact fun h => nomatch h
  have hlast : taken closing = (kindOf closing, closing) := by
    refine taken_of_not_isWild ?_
    have hclose := isClosing_of_closing? hmatch
    generalize kindOf closing = kind at hclose
    cases kind <;> first | rfl | cases hclose
  rw [hfirst, hlast]
  revert hbody
  generalize kindOf opening = open_, kindOf closing = close at hmatch
  intro hbody
  cases open_ <;> cases hmatch
  · exact reads_rule 87 (by rfl) (by rfl) hbody rfl
  · exact reads_rule 88 (by rfl) (by rfl) hbody rfl
  · exact reads_rule 89 (by rfl) (by rfl) hbody rfl

/-- Inside of brackets an item may also be a separator. -/
theorem reads_nestedItem {token : Token} (hkind : HasKind token)
    (h : (kindOf token).isWild = true ∨ isItemSeparator token = true) :
    ReadsAs number .nestedItem [taken token] (.tokens [token]) := by
  rcases h with hwild | hseparator
  · exact reads_rule 92 (by rfl) (by rfl) (readsBody_last (reads_any hkind hwild)) rfl
  · have hnot : (kindOf token).isWild = false := by
      by_contra hwild
      rw [isItemSeparator_of_isWild (by simpa using hwild)] at hseparator
      cases hseparator
    have hkind := hkind.symbol_eq
    rw [taken_of_not_isWild hnot]
    rcases (Bool.or_eq_true _ _).mp hseparator with hcomma | hsemicolon
    · rw [of_decide_eq_true hcomma] at hkind ⊢
      exact reads_rule 93 (by rfl) (by rfl) (readsBody_token hkind .nil) rfl
    · rw [of_decide_eq_true hsemicolon] at hkind ⊢
      exact reads_rule 94 (by rfl) (by rfl) (readsBody_token hkind .nil) rfl

/-- One more item of a list inside of brackets. -/
theorem reads_nestedList_concat {front back : List (TokenKind × Token)} {tokens others : List Token}
    (hfront : ReadsAs number .nestedList front (.tokens tokens)) (hback : ReadsAs number .nestedItem back (.tokens others)) :
    ReadsAs number .nestedList (front ++ back) (.tokens (tokens ++ others)) :=
  reads_rule 91 (by rfl) (by rfl) (readsBody_node hfront (readsBody_last hback)) rfl

/-- One more item of an initializer. -/
theorem reads_initializer_concat {front back : List (TokenKind × Token)} {tokens others : List Token}
    (hfront : ReadsAs number .initializer front (.tokens tokens)) (hback : ReadsAs number .initItem back (.tokens others)) :
    ReadsAs number .initializer (front ++ back) (.tokens (tokens ++ others)) :=
  reads_rule 85 (by rfl) (by rfl) (readsBody_node hfront (readsBody_last hback)) rfl

theorem Known.group {opening closing : Token} {inner rest : List Token}
    (h : Known (opening :: (inner ++ closing :: rest))) :
    HasKind opening ∧ Known inner ∧ HasKind closing ∧ Known rest := by
  obtain ⟨hopening, h⟩ := List.forall_mem_cons.mp h
  obtain ⟨hinner, h⟩ := List.forall_mem_append.mp h
  obtain ⟨hclosing, hrest⟩ := List.forall_mem_cons.mp h
  exact ⟨hopening, hinner, hclosing, hrest⟩

/-- A balanced list is read after another inside of brackets. -/
theorem Balanced.reads_after {inside : Bool} {tokens : List Token} (h : Balanced inside tokens) (hknown : Known tokens)
    {front : List (TokenKind × Token)} {others : List Token} (hfront : ReadsAs number .nestedList front (.tokens others)) :
    ReadsAs number .nestedList (front ++ tokens.map taken) (.tokens (others ++ tokens)) := by
  induction h generalizing front others with
  | nil => rwa [List.map_nil, List.append_nil, List.append_nil]
  | token htoken _ ih =>
    obtain ⟨hkind, hrest⟩ := List.forall_mem_cons.mp hknown
    have hread := ih hrest (reads_nestedList_concat hfront (reads_nestedItem hkind (htoken.imp id And.right)))
    rwa [List.append_assoc, List.append_assoc] at hread
  | @group inside opening closing inner rest hmatch _ _ ihinner ihrest =>
    obtain ⟨hopening, hinner, hclosing, hrest⟩ := hknown.group
    have hread := ihinner hinner (reads_rule 90 (by rfl) (by rfl) .nil rfl)
    have hitem : ReadsAs number .nestedItem _ _ := reads_rule 92 (by rfl) (by rfl)
      (readsBody_last (reads_group hopening hclosing hmatch hread)) rfl
    have hlist := ihrest hrest (reads_nestedList_concat hfront hitem)
    simpa using hlist

theorem Balanced.reads_nestedList {inside : Bool} {tokens : List Token} (h : Balanced inside tokens) (hknown : Known tokens) :
    ReadsAs number .nestedList (tokens.map taken) (.tokens tokens) :=
  h.reads_after hknown (reads_rule 90 (by rfl) (by rfl) .nil rfl)

variable (number) in
/-- A balanced list begins with an item. -/
theorem Balanced.reads_item {tokens : List Token} (h : Balanced false tokens) (hknown : Known tokens) (hne : tokens ≠ []) :
    ∃ item rest, tokens = item ++ rest ∧ rest.length < tokens.length ∧ Balanced false rest ∧ Known rest ∧
      ReadsAs number .initItem (item.map taken) (.tokens item) := by
  cases h with
  | nil => exact absurd rfl hne
  | @token _ token rest htoken hrest =>
    obtain ⟨hkind, hknown⟩ := List.forall_mem_cons.mp hknown
    exact ⟨[token], rest, rfl, Nat.lt_succ_self _, hrest, hknown, reads_any hkind (htoken.resolve_right fun h => nomatch h.1)⟩
  | @group _ opening closing inner rest hmatch hinner hrest =>
    obtain ⟨hopening, hknown, hclosing, hknown'⟩ := hknown.group
    refine ⟨opening :: inner ++ [closing], rest, by simp, by simp; omega, hrest, hknown', ?_⟩
    simpa using reads_group hopening hclosing hmatch (hinner.reads_nestedList hknown)

/-- A balanced list is read after another in an initializer. -/
theorem Balanced.reads_initializer_after {tokens : List Token} (h : Balanced false tokens) (hknown : Known tokens)
    {front : List (TokenKind × Token)} {others : List Token} (hfront : ReadsAs number .initializer front (.tokens others)) :
    ReadsAs number .initializer (front ++ tokens.map taken) (.tokens (others ++ tokens)) := by
  by_cases hne : tokens = []
  · rw [hne]
    rwa [List.map_nil, List.append_nil, List.append_nil]
  · obtain ⟨item, rest, htokens, hlt, hrest, hknown', hitem⟩ := h.reads_item number hknown hne
    have hread := hrest.reads_initializer_after hknown' (reads_initializer_concat hfront hitem)
    rw [htokens]
    simpa using hread
termination_by tokens.length

theorem Balanced.reads_initializer {tokens : List Token} (h : Balanced false tokens) (hknown : Known tokens)
    (hne : tokens ≠ []) : ReadsAs number .initializer (tokens.map taken) (.tokens tokens) := by
  obtain ⟨item, rest, rfl, -, hrest, hknown', hitem⟩ := h.reads_item number hknown hne
  rw [List.map_append]
  exact hrest.reads_initializer_after hknown' (reads_rule 84 (by rfl) (by rfl) (readsBody_last hitem) rfl)

/-! ## Declarations with one list -/

/-- A unit of one declaration. -/
theorem reads_unit {front : List (TokenKind × Token)} {e : External}
    (h : ReadsAs number .externalDeclaration front (.external e)) :
    ReadsAs number .translationUnit front (.unit [e]) := by
  have hempty : ReadsAs number .translationUnit [] (.unit []) := reads_rule 1 (by rfl) (by rfl) .nil rfl
  exact reads_rule 2 (by rfl) (by rfl) (readsBody_node hempty (readsBody_last h)) rfl

/-- A type name alone is a type with qualifiers. -/
theorem reads_fullType {front : List (TokenKind × Token)} {name : TypeName}
    (h : ReadsAs number .typeSpecifierNonarray front (.typeName name)) :
    ReadsAs number .fullySpecifiedType front (.fullType ⟨none, ⟨name, none⟩⟩) := by
  have hspecifier : ReadsAs number .typeSpecifier front (.typeSpecifier ⟨name, none⟩) :=
    reads_rule 67 (by rfl) (by rfl) (readsBody_last h) rfl
  exact reads_rule 38 (by rfl) (by rfl) (readsBody_last hspecifier) rfl

/-- A function without parameters. -/
theorem reads_function {void name left right opening closing : Token} {tokens : List Token}
    (hvoid : void.symbol = TokenKind.void.id) (hname : name.symbol = TokenKind.identifier.id)
    (hleft : left.symbol = TokenKind.parenLeft.id) (hright : right.symbol = TokenKind.parenRight.id)
    (hopening : opening.symbol = TokenKind.braceLeft.id) (hclosing : closing.symbol = TokenKind.braceRight.id)
    {front : List (TokenKind × Token)} (hlist : ReadsAs number .nestedList front (.tokens tokens)) :
    ReadsAs number .translationUnit ((.void, void) :: (.identifier, name) :: (.parenLeft, left) :: (.parenRight, right) ::
        (.braceLeft, opening) :: (front ++ [(.braceRight, closing)]))
      (.unit [.function [] ⟨⟨none, ⟨.void, none⟩⟩, name.text, []⟩ ⟨tokens⟩]) := by
  have htype : ReadsAs number .fullySpecifiedType [(.void, void)] (.fullType ⟨none, ⟨.void, none⟩⟩) :=
    reads_fullType (reads_rule 69 (by rfl) (by rfl) (readsBody_token hvoid .nil) rfl)
  have hprototype : ReadsAs number .functionPrototype
      [(.void, void), (.identifier, name), (.parenLeft, left), (.parenRight, right)]
      (.prototype ⟨⟨none, ⟨.void, none⟩⟩, name.text, []⟩) :=
    reads_rule 16 (by rfl) (by rfl)
      (readsBody_node htype (readsBody_token hname (readsBody_token hleft (readsBody_token hright .nil)))) rfl
  have hbody : ReadsAs number .compoundBody ((.braceLeft, opening) :: (front ++ [(.braceRight, closing)])) (.tokens tokens) :=
    reads_rule 95 (by rfl) (by rfl) (readsBody_token hopening (readsBody_node hlist (readsBody_token hclosing .nil))) rfl
  have hleading : ReadsAs number .leadingAnnotations [] (.comments []) := reads_rule 5 (by rfl) (by rfl) .nil rfl
  exact reads_unit (reads_rule 4 (by rfl) (by rfl)
    (readsBody_node hleading (readsBody_node hprototype (readsBody_last hbody))) rfl)

/-- A variable of a built-in type. -/
theorem reads_variable {type semicolon : Token} {declarator : Declarator} (htype : type.symbol = TokenKind.nativeType.id)
    (hsemicolon : semicolon.symbol = TokenKind.semicolon.id) {front : List (TokenKind × Token)}
    (hdeclarator : ReadsAs number .declarator front (.declarator declarator)) :
    ReadsAs number .translationUnit ((.nativeType, type) :: (front ++ [(.semicolon, semicolon)]))
      (.unit [.declaration [] (.variableList ⟨⟨none, ⟨.native type.text, none⟩⟩, [declarator]⟩) []]) := by
  have htype : ReadsAs number .fullySpecifiedType [(.nativeType, type)] (.fullType ⟨none, ⟨.native type.text, none⟩⟩) :=
    reads_fullType (reads_rule 70 (by rfl) (by rfl) (readsBody_token htype .nil) rfl)
  have hsingle : ReadsAs number .singleDeclaration ((.nativeType, type) :: front)
      (.variableList ⟨⟨none, ⟨.native type.text, none⟩⟩, [declarator]⟩) :=
    reads_rule 33 (by rfl) (by rfl) (readsBody_node htype (readsBody_last hdeclarator)) rfl
  have hlist : ReadsAs number .initDeclaratorList ((.nativeType, type) :: front)
      (.variableList ⟨⟨none, ⟨.native type.text, none⟩⟩, [declarator]⟩) :=
    reads_rule 30 (by rfl) (by rfl) (readsBody_last hsingle) rfl
  have hdeclaration : ReadsAs number .declaration ((.nativeType, type) :: (front ++ [(.semicolon, semicolon)]))
      (.declaration (.variableList ⟨⟨none, ⟨.native type.text, none⟩⟩, [declarator]⟩)) :=
    reads_rule 10 (by rfl) (by rfl) (readsBody_node hlist (readsBody_token hsemicolon .nil)) rfl
  have hleading : ReadsAs number .leadingAnnotations [] (.comments []) := reads_rule 5 (by rfl) (by rfl) .nil rfl
  have htrailing : ReadsAs number .trailingAnnotations [] (.comments []) := reads_rule 7 (by rfl) (by rfl) .nil rfl
  have hexternal : ReadsAs number .externalDeclaration ([] ++ (((.nativeType, type) :: (front ++ [(.semicolon, semicolon)])) ++ []))
      (.external (.declaration [] (.variableList ⟨⟨none, ⟨.native type.text, none⟩⟩, [declarator]⟩) [])) :=
    reads_rule 3 (by rfl) (by rfl) (readsBody_node hleading (readsBody_node hdeclaration (readsBody_last htrailing))) rfl
  rw [List.nil_append, List.append_nil] at hexternal
  exact reads_unit hexternal

/-! ## What a parse finds is balanced -/

/-- The lists of a declarator are balanced, and an initializer has a token. -/
def Declarator.HasBalanced (d : Declarator) : Prop :=
  (∀ a ∈ d.array, ∀ list ∈ a.dimensions, Balanced true list.tokens) ∧
    ∀ list ∈ d.initializer, Balanced false list.tokens ∧ list.tokens ≠ []

theorem hasBalanced_mk {name : String} {span : Span} {array : Option ArraySpecifier} {initializer : Option TokenList} :
    (⟨name, span, array, initializer⟩ : Declarator).HasBalanced ↔
      (∀ a ∈ array, ∀ list ∈ a.dimensions, Balanced true list.tokens) ∧
        ∀ list ∈ initializer, Balanced false list.tokens ∧ list.tokens ≠ [] := Iff.rfl

@[inherit_doc Declarator.HasBalanced]
def Declaration.HasBalanced : Declaration → Prop
  | .variableList vs => ∀ d ∈ vs.declarators, d.HasBalanced
  | .prototype _ | .precision _ _ | .block _ | .qualifier _ => True

/-- The lists of a declaration are balanced, or the body of a function is. -/
def External.HasBalanced : External → Prop
  | .declaration _ d _ => d.HasBalanced
  | .function _ _ body => Balanced true body.tokens

/-- The lists in a node are balanced. -/
def Node.HasBalanced (inside : Bool) : Node → Prop
  | .unit ds => ∀ e ∈ ds, e.HasBalanced
  | .external e => e.HasBalanced
  | .declaration d => d.HasBalanced
  | .variableList vs => ∀ d ∈ vs.declarators, d.HasBalanced
  | .declarator d => d.HasBalanced
  | .array a => ∀ list ∈ a.dimensions, Balanced true list.tokens
  | .tokens ts => Balanced inside ts ∧ (inside = false → ts ≠ [])
  | _ => True

/-- Whether separators may stand in the lists of a nonterminal. -/
def Nonterminal.inside : Nonterminal → Bool
  | .initializer | .initItem => false
  | _ => true

/-- The node of a nonterminal has its sort, and balanced lists. -/
def FindsBalanced (head : Nonterminal) (tokens : List Token) (node : Node) : Prop :=
  Sorted head tokens node ∧ node.HasBalanced head.inside

/-- Above the lists, every rule keeps them as they are. -/
theorem declarations_balanced : List.Forall₂ (alphabet.Builds HasKind FindsBalanced)
    (unitRules ++ declarationRules ++ functionRules ++ variableRules ++ qualifierRules ++ typeRules)
    (unitProductions ++ declarationProductions ++ functionProductions ++ variableProductions ++ qualifierProductions ++
      typeProductions) := by
  simp only [unitRules, unitProductions, declarationRules, declarationProductions, functionRules, functionProductions,
    variableRules, variableProductions, qualifierRules, qualifierProductions, typeRules, typeProductions, List.cons_append,
    List.nil_append, List.forall₂_cons, List.forall₂_nil_left_iff, and_true]
  and_intros
  all_goals
    simp only [Alphabet.builds_iff, Alphabet.forall_fills_node, Alphabet.forall_fills_token, Alphabet.forall_fills_nil,
      FindsBalanced, Sorted, and_imp, forall_exists_index, ne_eq, reduceCtorEq, not_false_eq_true, admits_iff]
    intros
    subst_vars
    rename_i hbuild
    first
      | cases hbuild
      | obtain ⟨i, rfl⟩ := eq_of_map_eq_ok hbuild
    refine ⟨⟨_, rfl⟩, ?_⟩
    simp_all [Node.HasBalanced, External.HasBalanced, Declaration.HasBalanced, hasBalanced_mk, Nonterminal.inside, or_imp, forall_and]

/-- Balanced tokens between brackets are one balanced item. -/
theorem balanced_group {opening closing : Token} {left right : TokenKind} {inner : List Token} {inside : Bool}
    (hopening : opening.symbol = left.id) (hclosing : closing.symbol = right.id) (hmatch : left.closing? = some right)
    (hinner : Balanced true inner) : Balanced inside (opening :: inner ++ [closing]) := by
  refine .group ?_ hinner .nil
  rw [kindOf_eq hopening, kindOf_eq hclosing, hmatch]

/-- A token that is read as the wildcard is balanced alone. -/
theorem balanced_any {token : Token} (hadmits : alphabet.Admits .any token)
    (hkind : HasKind token) : Balanced false [token] := by
  obtain ⟨kind, hkind⟩ := hkind
  refine .token (.inl ?_) .nil
  rw [kindOf_eq hkind]
  rcases hadmits with hown | ⟨-, htame⟩
  · have hany : kind = .any := alphabet_covers.id_injective (a := alphabet) (hkind.symm.trans hown)
    rw [hany]
    rfl
  · by_contra hwild
    exact htame kind (Bool.eq_false_iff.mpr hwild) hkind

theorem balanced_separator {token : Token} {kind : TokenKind} (hkind : token.symbol = kind.id)
    (hseparator : kind = .comma ∨ kind = .semicolon) : Balanced true [token] := by
  refine .token (.inr ⟨rfl, ?_⟩) .nil
  rw [isItemSeparator, kindOf_eq hkind]
  rcases hseparator with rfl | rfl <;> rfl

/-- The rules of lists keep them balanced. -/
theorem lists_balanced : List.Forall₂ (alphabet.Builds HasKind FindsBalanced) tokenRules tokenProductions := by
  simp only [tokenRules, tokenProductions, List.forall₂_cons, List.forall₂_nil_left_iff, and_true]
  and_intros
  all_goals
    simp only [Alphabet.builds_iff, Alphabet.forall_fills_node, Alphabet.forall_fills_token, Alphabet.forall_fills_nil,
      FindsBalanced, Sorted, and_imp, forall_exists_index, ne_eq, reduceCtorEq, not_false_eq_true, admits_iff]
  -- the rules in their order: array sizes, initializers, items, lists inside of brackets, bodies
  · rintro _ _ _ _ _ _ inner rfl hinner _ _ _ _ ⟨⟩
    exact ⟨⟨_, rfl⟩, List.forall_mem_singleton.mpr hinner.1⟩
  · rintro _ _ _ array rfl harray _ _ _ _ _ _ inner rfl hinner _ _ _ _ ⟨⟩
    exact ⟨⟨_, rfl⟩, List.forall_mem_append.mpr ⟨harray, List.forall_mem_singleton.mpr hinner.1⟩⟩
  · rintro _ _ _ item rfl hitem _ ⟨⟩
    exact ⟨⟨_, rfl⟩, hitem⟩
  · rintro _ _ _ front rfl hfront _ _ _ item rfl hitem _ ⟨⟩
    exact ⟨⟨_, rfl⟩, hfront.1.append hitem.1, fun h => List.append_ne_nil_of_left_ne_nil (hfront.2 h) _⟩
  · rintro token hadmits hkind _ ⟨⟩
    exact ⟨⟨_, rfl⟩, balanced_any hadmits hkind, fun _ => List.cons_ne_nil _ _⟩
  · rintro opening hopening _ _ _ _ inner rfl hinner closing hclosing _ _ ⟨⟩
    exact ⟨⟨_, rfl⟩, balanced_group hopening hclosing rfl hinner.1, fun _ => List.cons_ne_nil _ _⟩
  · rintro opening hopening _ _ _ _ inner rfl hinner closing hclosing _ _ ⟨⟩
    exact ⟨⟨_, rfl⟩, balanced_group hopening hclosing rfl hinner.1, fun _ => List.cons_ne_nil _ _⟩
  · rintro opening hopening _ _ _ _ inner rfl hinner closing hclosing _ _ ⟨⟩
    exact ⟨⟨_, rfl⟩, balanced_group hopening hclosing rfl hinner.1, fun _ => List.cons_ne_nil _ _⟩
  · rintro _ ⟨⟩
    exact ⟨⟨_, rfl⟩, .nil, fun h => Bool.noConfusion h⟩
  · rintro _ _ _ front rfl hfront _ _ _ item rfl hitem _ ⟨⟩
    exact ⟨⟨_, rfl⟩, hfront.1.append hitem.1, fun h => Bool.noConfusion h⟩
  · rintro _ _ _ item rfl hitem _ ⟨⟩
    exact ⟨⟨_, rfl⟩, hitem.1.inside, fun h => Bool.noConfusion h⟩
  · rintro comma hcomma _ _ ⟨⟩
    exact ⟨⟨_, rfl⟩, balanced_separator hcomma (.inl rfl), fun h => Bool.noConfusion h⟩
  · rintro semicolon hsemicolon _ _ ⟨⟩
    exact ⟨⟨_, rfl⟩, balanced_separator hsemicolon (.inr rfl), fun h => Bool.noConfusion h⟩
  · rintro _ _ _ _ _ _ inner rfl hinner _ _ _ _ ⟨⟩
    exact ⟨⟨_, rfl⟩, hinner⟩

theorem eq_unit_of_unitOf {answer : Except LanguageError Node} {unit : CompilationUnit} (h : unitOf answer = .ok unit) :
    answer = .ok (.unit unit.declarations) := by
  unfold unitOf at h
  split at h <;> cases h
  rfl

/-- **The lists that a parse puts into the tree are balanced.** -/
theorem parseTokens_balanced {tokens : List Token} {unit : CompilationUnit} (htokens : ∀ token ∈ tokens, HasKind token)
    (hparse : parseTokens tokens = .ok unit) : ∀ e ∈ unit.declarations, e.HasBalanced := by
  have hfinds : FindsBalanced .translationUnit tokens (.unit unit.declarations) :=
    alphabet_covers.parse_attribute (List.rel_append declarations_balanced lists_balanced) htokens htokens
      (eq_unit_of_unitOf hparse)
  exact hfinds.2

/-- **What the rules read is parsed**, with a token for each element. -/
theorem parseTokens_of_reads {front : List (TokenKind × Token)} {ds : List External}
    (hfront : ∀ r ∈ front, alphabet.Admits r.1 r.2 ∧ HasKind r.2)
    (hreads : ∀ number, ReadsAs number .translationUnit front (.unit ds)) : parseTokens (front.map Prod.snd) = .ok ⟨ds⟩ := by
  have hunshadowed : alphabet.Unshadowed tameness .any := ⟨rfl, by decide +kernel⟩
  have hparse := alphabet_covers.parse_admitted tameness hunshadowed hfront hreads
  rw [parseTokens, table, hparse]
  rfl

/-! ## Texts around a list -/

/-- Two lists of tokens are written like two texts, wherever they stand. -/
structure Around (opening closing : String) (before after : List Token) : Prop where
  before : before.map Token.written = (tokens opening).map Token.written
  after : after.map Token.written = (tokens closing).map Token.written

/-- The elements of a list are its tokens, as they are read. -/
theorem admitted_taken {ts : List Token} (hts : Known ts) : ∀ r ∈ ts.map taken, alphabet.Admits r.1 r.2 ∧ HasKind r.2 := by
  rintro r hr
  obtain ⟨token, htoken, rfl⟩ := List.mem_map.mp hr
  exact ⟨admits_taken (hts token htoken), hts token htoken⟩

theorem admitted_own {kind : TokenKind} {token : Token} (h : token.symbol = kind.id) :
    alphabet.Admits kind token ∧ HasKind token := ⟨.inl h, kind, h⟩

theorem map_snd_taken (ts : List Token) : (ts.map taken).map Prod.snd = ts := by
  rw [List.map_map]
  exact List.map_id ts

theorem exists_of_written_cons {tokens : List Token} {symbol : SymbolId} {text : String} {rest : List (SymbolId × String)}
    (h : tokens.map Token.written = (symbol, text) :: rest) : ∃ token others, tokens = token :: others ∧ token.symbol = symbol ∧
      token.text = text ∧ others.map Token.written = rest := by
  obtain ⟨token, others, rfl, hfirst, hrest⟩ := List.map_eq_cons_iff.mp h
  obtain ⟨hsymbol, htext⟩ := Prod.mk.inj hfirst
  exact ⟨token, others, rfl, hsymbol, htext, hrest⟩

theorem eq_nil_of_written {tokens : List Token} (h : tokens.map Token.written = []) : tokens = [] := List.map_eq_nil_iff.mp h

/-- What stands before the body of a function: a head, and the brace that opens the body. -/
def functionFront : String := "void f ( ) " ++ TokenKind.braceLeft.name

/-- The brace that closes the body of a function. -/
def functionBack : String := TokenKind.braceRight.name

/-- A balanced list is the body of a function. -/
theorem parse_function {before after ts : List Token} (haround : Around functionFront functionBack before after) (hts : Known ts)
    (hbalanced : Balanced true ts) : ∃ leading prototype,
      parseTokens (before ++ ts ++ after) = .ok ⟨[.function leading prototype ⟨ts⟩]⟩ := by
  have hbefore : before.map Token.written = [(TokenKind.void.id, "void"), (TokenKind.identifier.id, "f"), (TokenKind.parenLeft.id, "("),
      (TokenKind.parenRight.id, ")"), (TokenKind.braceLeft.id, TokenKind.braceLeft.name)] := haround.before.trans (by decide +kernel)
  have hafter : after.map Token.written = [(TokenKind.braceRight.id, TokenKind.braceRight.name)] := haround.after.trans (by decide +kernel)
  obtain ⟨void, _, rfl, hvoid, -, h⟩ := exists_of_written_cons hbefore
  obtain ⟨name, _, rfl, hname, -, h⟩ := exists_of_written_cons h
  obtain ⟨left, _, rfl, hleft, -, h⟩ := exists_of_written_cons h
  obtain ⟨right, _, rfl, hright, -, h⟩ := exists_of_written_cons h
  obtain ⟨opening, _, rfl, hopening, -, h⟩ := exists_of_written_cons h
  obtain rfl := eq_nil_of_written h
  obtain ⟨closing, _, rfl, hclosing, -, h⟩ := exists_of_written_cons hafter
  obtain rfl := eq_nil_of_written h
  have hreads : ∀ number, ReadsAs number .translationUnit _ _ := fun number =>
    reads_function hvoid hname hleft hright hopening hclosing (hbalanced.reads_nestedList hts)
  have hparse := parseTokens_of_reads (by
    simp only [List.forall_mem_cons, List.forall_mem_append]
    exact ⟨admitted_own hvoid, admitted_own hname, admitted_own hleft, admitted_own hright, admitted_own hopening,
      admitted_taken hts, admitted_own hclosing, List.forall_mem_nil _⟩) hreads
  simp only [List.map_cons, List.map_append, map_snd_taken, List.map_nil] at hparse
  exact ⟨_, _, hparse⟩

/-- A declarator is read as a variable of type `float`. -/
theorem parse_variable {type semicolon : Token} {declarator : Declarator} (htype : type.symbol = TokenKind.nativeType.id)
    (hsemicolon : semicolon.symbol = TokenKind.semicolon.id) {front : List (TokenKind × Token)}
    (hfront : ∀ r ∈ front, alphabet.Admits r.1 r.2 ∧ HasKind r.2)
    (hdeclarator : ∀ number, ReadsAs number .declarator front (.declarator declarator)) : ∃ leading type' trailing,
      parseTokens (type :: (front.map Prod.snd ++ [semicolon])) =
        .ok ⟨[.declaration leading (.variableList ⟨type', [declarator]⟩) trailing]⟩ := by
  have hparse := parseTokens_of_reads (by
    simp only [List.forall_mem_cons, List.forall_mem_append]
    exact ⟨admitted_own htype, hfront, admitted_own hsemicolon, List.forall_mem_nil _⟩)
    fun number => reads_variable htype hsemicolon (hdeclarator number)
  simp only [List.map_cons, List.map_append, List.map_nil] at hparse
  exact ⟨_, _, _, hparse⟩

/-- A balanced list is an initializer, if it has a token and no separators outside of brackets. -/
theorem parse_initializer {before after ts : List Token} (haround : Around "float x =" ";" before after) (hts : Known ts)
    (hbalanced : Balanced false ts) (hne : ts ≠ []) : ∃ leading type span trailing, parseTokens (before ++ ts ++ after) =
      .ok ⟨[.declaration leading (.variableList ⟨type, [⟨"x", span, none, some ⟨ts⟩⟩]⟩) trailing]⟩ := by
  have hbefore : before.map Token.written = [(TokenKind.nativeType.id, "float"), (TokenKind.identifier.id, "x"), (TokenKind.equal.id, "=")] :=
    haround.before.trans (by decide +kernel)
  have hafter : after.map Token.written = [(TokenKind.semicolon.id, ";")] := haround.after.trans (by decide +kernel)
  obtain ⟨type, _, rfl, htype, -, h⟩ := exists_of_written_cons hbefore
  obtain ⟨name, _, rfl, hname, hx, h⟩ := exists_of_written_cons h
  obtain ⟨equal, _, rfl, hequal, -, h⟩ := exists_of_written_cons h
  obtain rfl := eq_nil_of_written h
  obtain ⟨semicolon, _, rfl, hsemicolon, -, h⟩ := exists_of_written_cons hafter
  obtain rfl := eq_nil_of_written h
  have hreads : ∀ number, ReadsAs number .declarator ((.identifier, name) :: (.equal, equal) :: ts.map taken)
      (.declarator ⟨name.text, name.span, none, some ⟨ts⟩⟩) := fun number => reads_rule 36 (by rfl) (by rfl)
    (readsBody_token hname (readsBody_token hequal (readsBody_last (hbalanced.reads_initializer hts hne)))) rfl
  obtain ⟨leading, type', trailing, hparse⟩ := parse_variable htype hsemicolon (by
    simp only [List.forall_mem_cons]
    exact ⟨admitted_own hname, admitted_own hequal, admitted_taken hts⟩) hreads
  simp only [List.map_cons, map_snd_taken, hx] at hparse
  exact ⟨leading, type', name.span, trailing, hparse⟩

/-- A balanced list is the size of an array. -/
theorem parse_size {before after ts : List Token} (haround : Around "float x [" "] ;" before after) (hts : Known ts)
    (hbalanced : Balanced true ts) : ∃ leading type span initializer trailing, parseTokens (before ++ ts ++ after) =
      .ok ⟨[.declaration leading (.variableList ⟨type, [⟨"x", span, some ⟨[⟨ts⟩]⟩, initializer⟩]⟩) trailing]⟩ := by
  have hbefore : before.map Token.written =
      [(TokenKind.nativeType.id, "float"), (TokenKind.identifier.id, "x"), (TokenKind.bracketLeft.id, "[")] :=
    haround.before.trans (by decide +kernel)
  have hafter : after.map Token.written = [(TokenKind.bracketRight.id, "]"), (TokenKind.semicolon.id, ";")] :=
    haround.after.trans (by decide +kernel)
  obtain ⟨type, _, rfl, htype, -, h⟩ := exists_of_written_cons hbefore
  obtain ⟨name, _, rfl, hname, hx, h⟩ := exists_of_written_cons h
  obtain ⟨opening, _, rfl, hopening, -, h⟩ := exists_of_written_cons h
  obtain rfl := eq_nil_of_written h
  obtain ⟨closing, _, rfl, hclosing, -, h⟩ := exists_of_written_cons hafter
  obtain ⟨semicolon, _, rfl, hsemicolon, -, h⟩ := exists_of_written_cons h
  obtain rfl := eq_nil_of_written h
  have harray : ∀ number, ReadsAs number .arraySpecifier
      ((.bracketLeft, opening) :: (ts.map taken ++ [(.bracketRight, closing)])) (.array ⟨[⟨ts⟩]⟩) := fun number =>
    reads_rule 82 (by rfl) (by rfl)
      (readsBody_token hopening (readsBody_node (hbalanced.reads_nestedList hts) (readsBody_token hclosing .nil))) rfl
  have hreads : ∀ number, ReadsAs number .declarator
      ((.identifier, name) :: (.bracketLeft, opening) :: (ts.map taken ++ [(.bracketRight, closing)]))
      (.declarator ⟨name.text, name.span, some ⟨[⟨ts⟩]⟩, none⟩) := fun number =>
    reads_rule 35 (by rfl) (by rfl) (readsBody_token hname (readsBody_last (harray number))) rfl
  obtain ⟨leading, type', trailing, hparse⟩ := parse_variable htype hsemicolon (by
    simp only [List.forall_mem_cons, List.forall_mem_append]
    exact ⟨admitted_own hname, admitted_own hopening, admitted_taken hts, admitted_own hclosing, List.forall_mem_nil _⟩) hreads
  simp only [List.map_cons, List.map_append, List.map_nil, map_snd_taken, hx] at hparse
  refine ⟨leading, type', name.span, none, trailing, ?_⟩
  simpa using hparse

/-- The tokens around a list have kinds. -/
theorem Around.known {opening closing : String} {before after ts : List Token} (haround : Around opening closing before after)
    (hts : Known ts) : Known (before ++ ts ++ after) := by
  have hwritten : ∀ {others : List Token} {text : String}, others.map Token.written = (tokens text).map Token.written → Known others := by
    intro others text h token htoken
    have hmem : (token.symbol, token.text) ∈ (tokens text).map Token.written := h ▸ List.mem_map_of_mem htoken
    obtain ⟨other, hother, heq⟩ := List.mem_map.mp hmem
    obtain ⟨kind, hkind⟩ := exists_kind_of_mem_classify hother
    exact ⟨kind, (congrArg Prod.fst heq).symm.trans hkind⟩
  intro token htoken
  rcases List.mem_append.mp htoken with htoken | htoken
  · rcases List.mem_append.mp htoken with htoken | htoken
    · exact hwritten haround.before token htoken
    · exact hts token htoken
  · exact hwritten haround.after token htoken

/-- **Lists that are not looked into are exactly the nested ones**: as the body of a function, as an initializer, which needs a
token and has no separators outside of brackets, and as the size of an array. -/
theorem parse_opaque_iff {ts : List Token} (hts : ∀ token ∈ ts, HasKind token) :
    (∀ before after, Around functionFront functionBack before after →
      ((∃ leading prototype, parseTokens (before ++ ts ++ after) = .ok ⟨[.function leading prototype ⟨ts⟩]⟩) ↔
        isNested [] ts = true)) ∧
    (∀ before after, Around "float x =" ";" before after →
      ((∃ leading type span trailing, parseTokens (before ++ ts ++ after) =
          .ok ⟨[.declaration leading (.variableList ⟨type, [⟨"x", span, none, some ⟨ts⟩⟩]⟩) trailing]⟩) ↔
        isNested [] ts = true ∧ ts ≠ [] ∧ ∀ token ∈ outside 0 ts, isItemSeparator token = false)) ∧
    ∀ before after, Around "float x [" "] ;" before after →
      ((∃ leading type span initializer trailing, parseTokens (before ++ ts ++ after) =
          .ok ⟨[.declaration leading (.variableList ⟨type, [⟨"x", span, some ⟨[⟨ts⟩]⟩, initializer⟩]⟩) trailing]⟩) ↔
        isNested [] ts = true) := by
  refine ⟨fun before after haround => ⟨?_, fun h => parse_function haround hts (isNested_iff.mp h)⟩,
    fun before after haround => ⟨?_, fun ⟨h, hne, hout⟩ => parse_initializer haround hts (balanced_false_iff.mpr ⟨h, hout⟩) hne⟩,
    fun before after haround => ⟨?_, fun h => parse_size haround hts (isNested_iff.mp h)⟩⟩
  · rintro ⟨leading, prototype, hparse⟩
    exact isNested_iff.mpr (parseTokens_balanced (haround.known hts) hparse _ List.mem_cons_self)
  · rintro ⟨leading, type, span, trailing, hparse⟩
    have hdeclaration := parseTokens_balanced (haround.known hts) hparse _ List.mem_cons_self
    obtain ⟨hbalanced, hne⟩ := (hasBalanced_mk.mp (hdeclaration _ List.mem_cons_self)).2 _ rfl
    obtain ⟨hnested, hout⟩ := balanced_false_iff.mp hbalanced
    exact ⟨hnested, hne, hout⟩
  · rintro ⟨leading, type, span, initializer, trailing, hparse⟩
    have hdeclaration := parseTokens_balanced (haround.known hts) hparse _ List.mem_cons_self
    exact isNested_iff.mpr ((hasBalanced_mk.mp (hdeclaration _ List.mem_cons_self)).1 _ rfl _ List.mem_cons_self)

/-- A statement is a body and a size, but no initializer: its `;` stands outside of brackets. -/
theorem parse_opaque_iff_statement : (∀ token ∈ tokens "a[i] = f(x, 1);", HasKind token) ∧
    (∃ leading prototype, parseTokens (tokens functionFront ++ tokens "a[i] = f(x, 1);" ++ tokens functionBack) =
      .ok ⟨[.function leading prototype ⟨tokens "a[i] = f(x, 1);"⟩]⟩) ∧
    (¬ ∃ leading type span trailing, parseTokens (tokens "float x =" ++ tokens "a[i] = f(x, 1);" ++ tokens ";") =
      .ok ⟨[.declaration leading (.variableList ⟨type, [⟨"x", span, none, some ⟨tokens "a[i] = f(x, 1);"⟩⟩]⟩) trailing]⟩) ∧
    ∃ leading type span initializer trailing, parseTokens (tokens "float x [" ++ tokens "a[i] = f(x, 1);" ++ tokens "] ;") =
      .ok ⟨[.declaration leading
        (.variableList ⟨type, [⟨"x", span, some ⟨[⟨tokens "a[i] = f(x, 1);"⟩]⟩, initializer⟩]⟩) trailing]⟩ := by
  have hkinds : ∀ token ∈ tokens "a[i] = f(x, 1);", HasKind token := fun _ htoken => exists_kind_of_mem_classify htoken
  obtain ⟨hnested, hseparator⟩ : isNested [] (tokens "a[i] = f(x, 1);") = true ∧
      ¬ ∀ token ∈ outside 0 (tokens "a[i] = f(x, 1);"), isItemSeparator token = false := by decide +kernel
  obtain ⟨hfunction, hinitializer, hsize⟩ := parse_opaque_iff hkinds
  exact ⟨hkinds, (hfunction _ _ ⟨rfl, rfl⟩).mpr hnested,
    fun hparse => hseparator ((hinitializer _ _ ⟨rfl, rfl⟩).mp hparse).2.2, (hsize _ _ ⟨rfl, rfl⟩).mpr hnested⟩

end ShaderFront.Shader
